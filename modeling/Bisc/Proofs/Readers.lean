import Bisc.Proofs.Lines
import Bisc.Proofs.Outcome
import Mathlib

/-!
Two runs of a reader, compared. Readers look at tokens in few ways: they take the next one and refuse
what ends a line, take the rest of a line without its comments, or take the end of a line. Whatever
relation between cursors these keep, all readers of a line keep. The relation may be between a cursor
and itself, and then says what a single run keeps.
-/
namespace Bisc

variable {α β γ δ : Type}

/-- Both give values in relation, or both fail and the first at a place that has the property. -/
inductive Agree (place : Position → Prop) (related : α → β → Prop) : Except Error α → Except Error β → Prop
  | ok {a : α} {b : β} (same : related a b) : Agree place related (.ok a) (.ok b)
  | error {e e' : Error} (here : place e.pos) : Agree place related (.error e) (.error e')

namespace Agree

variable {place : Position → Prop} {related : α → β → Prop} {related' : γ → δ → Prop}
  {x : Except Error α} {y : Except Error β}

theorem ok_left {a : α} (agreed : Agree place related (.ok a) y) : ∃ b, y = .ok b ∧ related a b := by
  cases agreed with
  | ok same => exact ⟨_, rfl, same⟩

theorem error_left {e : Error} (agreed : Agree place related (.error e) y) : place e.pos ∧ ∃ e', y = .error e' := by
  cases agreed with
  | error here => exact ⟨here, _, rfl⟩

theorem bind {f : α → Except Error γ} {g : β → Except Error δ} (first : Agree place related x y)
    (rest : ∀ a b, x = .ok a → y = .ok b → related a b → Agree place related' (f a) (g b)) :
    Agree place related' (x >>= f) (y >>= g) := by
  cases first with
  | ok same => exact rest _ _ rfl rfl same
  | error here => exact .error here

theorem map {f : α → γ} {g : β → δ} (first : Agree place related x y)
    (rest : ∀ a b, x = .ok a → related a b → related' (f a) (g b)) : Agree place related' (x.map f) (y.map g) := by
  cases first with
  | ok same => exact .ok (rest _ _ rfl same)
  | error here => exact .error here

theorem map_left {f : α → γ} {related' : γ → β → Prop} (first : Agree place related x y)
    (rest : ∀ a b, x = .ok a → related a b → related' (f a) b) : Agree place related' (x.map f) y := by
  cases first with
  | ok same => exact .ok (rest _ _ rfl same)
  | error here => exact .error here

end Agree

/-! ## Steps -/

/-- The places that a step puts into the program. -/
def Step.PlacedIn (place : Position → Prop) : Step → Prop
  | .item i => place i.pos
  | .newSection _ pos => place pos
  | .unfolded .. => True

/-- Both runs end with the same steps, or both fail. -/
def Run.Agree (place : Position → Prop) (r s : Run Step) : Prop :=
  Bisc.Agree place (fun steps steps' => steps = steps' ∧ ∀ step ∈ steps, step.PlacedIn place) r.result s.result

namespace Run

theorem result_append (r s : Run α) : (r ++ s).result = r.result >>= fun as => s.result.map (as ++ ·) := by
  cases failure : r.failure with
  | some e => simp [append_of_failure failure, result, failure, bind, Except.bind]
  | none =>
    cases later : s.failure <;> simp [append_of_done failure, result, failure, later, bind,
      Except.bind, Except.map]

theorem result_cons (a : α) (r : Run α) : (cons a r).result = r.result.map (a :: ·) := by
  cases failure : r.failure <;> simp [cons, result, failure, Except.map]

variable {place : Position → Prop} {r s r' s' : Run Step}

theorem agree_done : Agree place done done := .ok (a := []) ⟨rfl, by simp⟩

theorem agree_fail {e e' : Error} (here : place e.pos) : Agree place (fail e) (fail e') := .error here

theorem Agree.cons {step : Step} (here : step.PlacedIn place) (rest : Agree place r s) :
    Agree place (Run.cons step r) (Run.cons step s) := by
  unfold Agree
  rw [result_cons, result_cons]
  refine Bisc.Agree.map rest ?_
  rintro steps _ - ⟨rfl, later⟩
  exact ⟨rfl, List.forall_mem_cons.mpr ⟨here, later⟩⟩

theorem Agree.append (first : Agree place r s) (second : Agree place r' s') : Agree place (r ++ r') (s ++ s') := by
  unfold Agree
  rw [result_append, result_append]
  refine Bisc.Agree.bind first ?_
  rintro steps _ - - ⟨rfl, earlier⟩
  refine second.map ?_
  rintro steps' _ - ⟨rfl, later⟩
  exact ⟨rfl, List.forall_mem_append.mpr ⟨earlier, later⟩⟩

end Run

/-! ## Comparisons -/

/-- Comments and separators, which no reader of operands takes. -/
def TokenKind.isMark : TokenKind → Bool
  | .comment | .lineSeparator => true
  | _ => false

theorem Token.isWord_of_isMark {t : Token} (mark : t.kind.isMark) : t.isWord = false := by
  unfold Token.isWord
  cases kind : t.kind <;> simp_all [TokenKind.isMark, TokenKind.isWord]

theorem Token.line_append_afterLine (ts : List Token) : line ts ++ afterLine ts = ts :=
  List.takeWhile_append_dropWhile

/-- A relation between the cursors of two runs, and the places where the first may fail. -/
structure Comparison where
  cursor : Cursor → Cursor → Prop
  place : Position → Prop

/-- Where a pseudo-instruction that has none of its forms is read on as a real one: its line without comments, and the
    separator. -/
def Cursor.withoutComments (c : Cursor) : Cursor :=
  let stop := (Token.afterLine c.rest).take 1
  ⟨Token.uncommented (Token.line c.rest) ++ stop, ((Token.line c.rest ++ stop).getLast?.map Token.pos).getD c.last⟩

namespace Comparison

/-- A cursor before a comment, a separator or the end. -/
def AtMark (c : Cursor) : Prop := ∀ t, c.rest.head? = some t → t.kind.isMark

/-- What two cursors are before. -/
inductive Front (k : Comparison) (c d : Cursor) : Prop
  | ended (left : c.rest = []) (right : d.rest = [])
  | stopped {t : Token} (left : c.rest = [t]) (kind : t.kind = .lineSeparator) (right : d.rest = [])
  | comment {t : Token} {ts : List Token} (left : c.rest = t :: ts) (kind : t.kind = .comment) (mark : AtMark d)
      (later : k.cursor ⟨ts, t.pos⟩ d)
  | shared {t : Token} {ts us : List Token} (left : c.rest = t :: ts) (right : d.rest = t :: us)
      (later : k.cursor ⟨ts, t.pos⟩ ⟨us, t.pos⟩)

/-- The reader keeps the relation, and both runs give the same good value. -/
def Respects (k : Comparison) (good : α → Prop) (r : Reader α) : Prop :=
  ∀ c d, k.cursor c d → Agree k.place (fun x y => x.1 = y.1 ∧ good x.1 ∧ k.cursor x.2 y.2) (r c) (r d)

/-- The relation is kept by the ways in which readers look at tokens. -/
structure Lawful (k : Comparison) : Prop where
  last {c d} : k.cursor c d → k.place c.last
  tokens {c d} : k.cursor c d → ∀ t ∈ c.rest, k.place t.pos
  front {c d} : k.cursor c d → k.Front c d
  restOfLine : k.Respects (fun _ => True) (do return Token.uncommented (← Reader.restOfLine))
  withoutComments {c d} : k.cursor c d → k.cursor c.withoutComments d.withoutComments
  endOfLine {c d} : k.cursor c d → Agree k.place (fun _ _ => True) (Reader.endOfLine c) (Reader.endOfLine d)

variable {k : Comparison} {good : α → Prop} {better : β → Prop}

theorem Respects.bind {r : Reader α} {f : α → Reader β} (first : k.Respects good r)
    (rest : ∀ a, good a → k.Respects better (f a)) : k.Respects better (r >>= f) := by
  intro c d related
  refine Agree.bind (first c d related) ?_
  rintro ⟨a, c'⟩ ⟨_, d'⟩ - - ⟨rfl, fine, related'⟩
  exact rest a fine c' d' related'

theorem respects_pure {a : α} (fine : good a) : k.Respects good (pure a : Reader α) :=
  fun _ _ related => .ok ⟨rfl, fine, related⟩

theorem respects_throw {e : Error} (here : k.place e.pos) : k.Respects good (throw e : Reader α) :=
  fun _ _ _ => .error here

/-! ## Single tokens -/

theorem refused_pos (t : Token) (what : Expected) : (t.refused what).pos = t.pos := by
  unfold Token.refused
  split <;> rfl

theorem next_run {what : Expected} (f : Token → Reader α) {c : Cursor} {t : Token} {ts : List Token}
    (whole : c.rest = t :: ts) :
    (Reader.next what >>= f) c = f t ⟨ts, t.pos⟩ := by
  obtain ⟨rest, last⟩ := c
  cases whole
  rfl

/-- A mark passes no test that marks do not pass. -/
theorem AtMark.head_any {c : Cursor} (mark : AtMark c) {test : Token → Bool}
    (unmarked : ∀ t, t.kind.isMark → test t = false) :
    c.rest.head?.any test = false := by
  cases head : c.rest.head? with
  | none => rfl
  | some t => exact unmarked t (mark t head)

theorem AtMark.next_is {c : Cursor} (mark : AtMark c) {kind : TokenKind} (unmarked : kind.isMark = false) :
    (c.rest.head?.any fun t => t.kind = kind) = false := by
  refine mark.head_any fun t own => ?_
  have differs : t.kind ≠ kind := fun same => by simp [← same, own] at unmarked
  simpa using differs

theorem respects_halfSelector {t : Token} (here : k.place t.pos) :
    k.Respects (fun _ => True) (Reader.halfSelector t : Reader Selector) := by
  unfold Reader.halfSelector
  split
  · exact respects_pure trivial
  · split
    · exact respects_pure trivial
    · exact respects_throw (by exact here)

section Readers

variable (lawful : k.Lawful)
include lawful

/-- Both cursors are at a mark, or before the same token. -/
theorem Lawful.next {c d : Cursor} (related : k.cursor c d) : AtMark c ∧ AtMark d ∨ ∃ t ts us, c.rest = t :: ts ∧
    d.rest = t :: us ∧ t.kind.isMark = false ∧ k.cursor ⟨ts, t.pos⟩ ⟨us, t.pos⟩ := by
  cases lawful.front related with
  | ended left right => exact .inl ⟨by simp [AtMark, left], by simp [AtMark, right]⟩
  | stopped left kind right => exact .inl ⟨by simp [AtMark, left, kind, TokenKind.isMark], by simp [AtMark, right]⟩
  | comment left kind mark => exact .inl ⟨by simp [AtMark, left, kind, TokenKind.isMark], mark⟩
  | @shared t ts us left right later =>
    by_cases mark : t.kind.isMark
    · exact .inl ⟨by simpa [AtMark, left] using mark, by simpa [AtMark, right] using mark⟩
    · exact .inr ⟨t, ts, us, left, right, by simpa using mark, later⟩

/-- Readers that take a token and fail at a mark. -/
theorem Lawful.next_bind {what : Expected} {f : Token → Reader α}
    (refuses : ∀ t, t.kind.isMark → ∀ c, ∃ cause, f t c = .error ⟨cause, t.pos⟩)
    (accepts : ∀ t, t.kind.isMark = false → k.place t.pos → k.Respects good (f t)) :
    k.Respects good (Reader.next what >>= f) := by
  have fails {c : Cursor} (mark : AtMark c) : ∃ e, (Reader.next what >>= f) c = .error e ∧
      (e.pos = c.last ∨ ∃ t ∈ c.rest, e.pos = t.pos) := by
    obtain ⟨rest, last⟩ := c
    cases rest with
    | nil => exact ⟨_, rfl, .inl rfl⟩
    | cons t ts =>
      obtain ⟨cause, refused⟩ := refuses t (mark t rfl) ⟨ts, t.pos⟩
      exact ⟨_, refused, .inr ⟨t, List.mem_cons_self, rfl⟩⟩
  intro c d related
  rcases lawful.next related with ⟨left, right⟩ | ⟨t, ts, us, left, right, unmarked, later⟩
  · obtain ⟨e, failed, place⟩ := fails left
    obtain ⟨e', failed', -⟩ := fails right
    rw [failed, failed']
    refine .error ?_
    rcases place with last | ⟨t, member, here⟩
    · rw [last]
      exact lawful.last related
    · rw [here]
      exact lawful.tokens related t member
  · have here := lawful.tokens related t (by rw [left]; exact List.mem_cons_self)
    rw [next_run f left, next_run f right]
    exact accepts t unmarked here _ _ later

/-- A token of a kind is passed over if it comes next. -/
theorem Lawful.skip {kind : TokenKind} (unmarked : kind.isMark = false) {what : Expected} {r s : Reader α}
    (passed : k.Respects good r) (absent : k.Respects good s) :
    k.Respects good (do if ← Reader.nextIs kind then let _ ← Reader.next what; r else s) := by
  have run (e : Cursor) : (do if ← Reader.nextIs kind then let _ ← Reader.next what; r else s : Reader α) e =
      if e.rest.head?.any fun t => t.kind = kind then (Reader.next what >>= fun _ => r) e else s e := by
    change (if _ then _ else _ : Reader α) e = _
    split <;> rfl
  intro c d related
  rw [run, run]
  rcases lawful.next related with ⟨left, right⟩ | ⟨t, ts, us, left, right, -, later⟩
  · rw [left.next_is unmarked, right.next_is unmarked]
    exact absent c d related
  · rw [next_run _ left, next_run _ right, left, right, List.head?_cons, List.head?_cons, Option.any_some]
    by_cases same : t.kind = kind
    · simp only [same, decide_true, if_true]
      exact passed _ _ later
    · simp only [same, decide_false, Bool.false_eq_true, if_false]
      exact absent c d related

theorem Lawful.nextIs {kind : TokenKind} (unmarked : kind.isMark = false) :
    k.Respects (fun _ => True) (Reader.nextIs kind) := by
  intro c d related
  refine .ok ⟨?_, trivial, related⟩
  rcases lawful.next related with ⟨left, right⟩ | ⟨t, ts, us, left, right, -, -⟩
  · rw [left.next_is unmarked, right.next_is unmarked]
  · rw [left, right]
    rfl

/-- A token is taken that passes a test, which no mark does. -/
theorem Lawful.passing {what : Expected} {test : Token → Prop} [DecidablePred test]
    (unmarked : ∀ t, t.kind.isMark → ¬test t) :
    k.Respects (fun t => test t ∧ k.place t.pos)
      (do let t ← Reader.next what; if test t then return t else throw (t.refused what)) := by
  refine lawful.next_bind (fun t mark c => ?_) (fun t _ here => ?_)
  · exact ⟨(t.refused what).cause, by rw [if_neg (unmarked t mark), ← refused_pos t what]; rfl⟩
  · by_cases passes : test t
    · rw [if_pos passes]
      exact respects_pure ⟨passes, here⟩
    · rw [if_neg passes]
      exact respects_throw (by rwa [refused_pos])

theorem Lawful.expect {kind : TokenKind} (unmarked : kind.isMark = false) :
    k.Respects (fun t => t.kind = kind ∧ k.place t.pos) (Reader.expect kind) :=
  lawful.passing fun t mark same => by simp [← same, mark] at unmarked

theorem Lawful.word (what : Expected) : k.Respects (fun t => t.isWord ∧ k.place t.pos) (Reader.word what) :=
  lawful.passing fun t mark word => by simp [Token.isWord_of_isMark mark] at word

theorem Lawful.register : k.Respects (fun _ => True) Reader.register :=
  (lawful.expect rfl).bind fun _ _ => respects_pure trivial

/-! ## Constants -/

theorem Lawful.slice {symbol : Token} (here : k.place symbol.pos) :
    k.Respects (fun _ => True) (Reader.slice symbol) := by
  refine (lawful.expect rfl).bind fun _ _ => ?_
  refine (lawful.expect rfl).bind fun first _ => ?_
  refine (lawful.expect rfl).bind fun _ _ => ?_
  refine (lawful.expect rfl).bind fun last _ => ?_
  refine (lawful.expect rfl).bind fun _ _ => ?_
  dsimp only
  split
  · have refused : k.Respects (fun _ => True)
        (throw ⟨.outOfRange (.slice symbol.raw first.number last.number), symbol.pos⟩ :
        Reader PUnit) := respects_throw here
    exact refused.bind fun _ _ => respects_pure trivial
  · exact respects_pure trivial

theorem Lawful.plainConstant {what : Expected} {t : Token} (here : k.place t.pos) :
    k.Respects (fun _ => True) (Reader.plainConstant what t) := by
  unfold Reader.plainConstant
  split
  · exact respects_pure trivial
  · refine (lawful.nextIs rfl).bind fun sliced _ => ?_
    split
    · exact lawful.slice here
    · exact respects_pure trivial
  · exact respects_throw (by rwa [refused_pos])

theorem Lawful.constant : k.Respects (fun _ => True) Reader.constant := by
  have refused {what : Expected} {t : Token} (mark : t.kind.isMark) (c : Cursor) :
      Reader.plainConstant what t c = .error (t.refused what) := by
    unfold Reader.plainConstant
    cases kind : t.kind <;> simp_all [TokenKind.isMark] <;> rfl
  refine lawful.next_bind (fun t mark c => ?_) (fun t _ here => ?_)
  · have plain : t.kind ≠ .directive := fun same => by simp [same, TokenKind.isMark] at mark
    exact ⟨(t.refused .constant).cause, by rw [if_neg plain, refused mark, ← refused_pos t .constant]⟩
  · split
    · refine (lawful.word _).bind fun name named => ?_
      refine (respects_halfSelector named.2).bind fun selector _ => ?_
      refine lawful.next_bind (fun t mark c => ?_) (fun t _ here => ?_)
      · refine ⟨(t.refused .plainConstant).cause, ?_⟩
        rw [← refused_pos t .plainConstant]
        change (Reader.plainConstant .plainConstant t c).bind _ = _
        rw [refused mark]
        rfl
      · exact (lawful.plainConstant here).bind fun _ _ => respects_pure trivial
    · exact lawful.plainConstant here

end Readers

/-! ## A single run -/

/-- A cursor and itself, as long as it has a property. -/
def diagonal (keeps : Cursor → Prop) (place : Position → Prop) : Comparison := ⟨fun c d => c = d ∧ keeps c, place⟩

/-- The cursor is behind another in the same tokens. -/
structure Behind (c' c : Cursor) : Prop where
  rest : c'.rest.Sublist c.rest
  last : c'.last = c.last ∨ ∃ t ∈ c.rest, c'.last = t.pos

theorem last_of_getLast? (ts us : List Token) (inside : ts ⊆ us) (last : Position) :
    ((ts.getLast?.map Token.pos).getD last = last) ∨ ∃ t ∈ us, (ts.getLast?.map Token.pos).getD last = t.pos := by
  cases found : ts.getLast? with
  | none => exact .inl rfl
  | some t => exact .inr ⟨t, inside (List.mem_of_getLast? found), rfl⟩

theorem endOfLine_uncommented {t : Token} (plain : t.isComment = false) (ts : List Token) (last : Position) :
    Reader.endOfLine ⟨t :: ts, last⟩ =
      if t.isSeparator then .ok ((), ⟨ts, t.pos⟩) else .error (t.refused (.token .lineSeparator)) := by
  simp [Reader.endOfLine, plain]

theorem endOfLine_commented {t : Token} (comment : t.isComment) (u : Token) (us : List Token) (last : Position) :
    Reader.endOfLine ⟨t :: u :: us, last⟩ =
      if u.isSeparator then .ok ((), ⟨us, u.pos⟩) else .error (u.refused (.token .lineSeparator)) := by
  simp [Reader.endOfLine, comment]

theorem endOfLine_error {c : Cursor} {e : Error} (failed : Reader.endOfLine c = .error e) :
    ∃ t ∈ c.rest, e.pos = t.pos := by
  obtain ⟨rest, last⟩ := c
  cases rest with
  | nil => cases failed
  | cons t ts =>
    by_cases comment : t.isComment
    · cases ts with
      | nil => simp [Reader.endOfLine, comment] at failed
      | cons u us =>
        rw [endOfLine_commented comment] at failed
        split at failed
        · cases failed
        · cases failed
          exact ⟨u, by simp, refused_pos u _⟩
    · rw [endOfLine_uncommented (by simpa using comment)] at failed
      split at failed
      · cases failed
      · cases failed
        exact ⟨t, by simp, refused_pos t _⟩

theorem diagonal_lawful {keeps : Cursor → Prop} {place : Position → Prop}
    (behind : ∀ {c c'}, keeps c → Behind c' c → keeps c')
    (last : ∀ {c}, keeps c → place c.last) (tokens : ∀ {c}, keeps c → ∀ t ∈ c.rest, place t.pos) :
    (diagonal keeps place).Lawful where
  last := by
    rintro c _ ⟨rfl, kept⟩
    exact last kept
  tokens := by
    rintro c _ ⟨rfl, kept⟩
    exact tokens kept
  front := by
    rintro c _ ⟨rfl, kept⟩
    cases whole : c.rest with
    | nil => exact .ended whole whole
    | cons t ts =>
      refine .shared whole whole ⟨rfl, behind kept ⟨?_, .inr ⟨t, ?_, rfl⟩⟩⟩
      · rw [whole]
        exact List.sublist_cons_self t ts
      · rw [whole]
        exact List.mem_cons_self
  restOfLine := by
    rintro c _ ⟨rfl, kept⟩
    refine .ok ⟨rfl, trivial, rfl, behind kept ⟨List.dropWhile_sublist _, ?_⟩⟩
    exact last_of_getLast? _ _ (List.takeWhile_sublist _).subset _
  withoutComments := by
    rintro c _ ⟨rfl, kept⟩
    have line : (Token.line c.rest ++ (Token.afterLine c.rest).take 1).Sublist c.rest := by
      conv => rhs; rw [← Token.line_append_afterLine c.rest]
      exact (List.Sublist.refl _).append (List.take_sublist _ _)
    refine ⟨rfl, behind kept ⟨?_, last_of_getLast? _ _ line.subset _⟩⟩
    exact (List.filter_sublist.append (List.Sublist.refl _)).trans line
  endOfLine := by
    rintro c _ ⟨rfl, kept⟩
    cases run : Reader.endOfLine c with
    | ok _ => exact .ok trivial
    | error e =>
      obtain ⟨t, member, here⟩ := endOfLine_error run
      exact .error (by rw [here]; exact tokens kept t member)

/-! ## Lists -/

/-- The reader leaves no more tokens than it found. -/
def Shortens (r : Reader α) : Prop := ∀ c a c', r c = .ok (a, c') → c'.rest.length ≤ c.rest.length

/-- A cursor and itself, with at most `n` tokens. -/
def bounded (n : Nat) : Comparison := diagonal (fun c => c.rest.length ≤ n) fun _ => True

theorem bounded_lawful (n : Nat) : (bounded n).Lawful :=
  diagonal_lawful (fun kept behind => behind.rest.length_le.trans kept) (fun _ => trivial) (fun _ _ _ => trivial)

theorem shortens_of_respects {r : Reader α} (respects : ∀ n, (bounded n).Respects good r) : Shortens r := by
  intro c a c' read
  have kept := respects c.rest.length c c ⟨rfl, le_rfl⟩
  rw [read] at kept
  obtain ⟨_, -, -, -, -, shorter⟩ := kept.ok_left
  exact shorter

theorem constant_shortens : Shortens Reader.constant := shortens_of_respects fun n => (bounded_lawful n).constant

theorem Lawful.wordText (lawful : k.Lawful) (what : Expected) :
    k.Respects (fun _ => True) (return (← Reader.word what).raw : Reader String) :=
  (lawful.word what).bind fun _ _ => respects_pure trivial

theorem word_shortens (what : Expected) : Shortens (return (← Reader.word what).raw) :=
  shortens_of_respects fun n => (bounded_lawful n).wordText what

theorem moreItems_stop {item : Reader α} {n : Nat} {c : Cursor}
    (other : (c.rest.head?.any fun t => t.kind = .comma) = false) :
    Reader.moreItems item n c = .ok ([], c) := by
  cases n with
  | zero => rfl
  | succ n =>
    change (if _ then _ else _ : Reader (List α)) c = _
    rw [other]
    rfl

theorem moreItems_comma {item : Reader α} {n : Nat} {c : Cursor} {t : Token} {ts : List Token}
    (whole : c.rest = t :: ts)
    (comma : t.kind = .comma) : Reader.moreItems item (n + 1) c =
      item ⟨ts, t.pos⟩ >>= fun x => Reader.moreItems item n x.2 >>= fun y => pure (x.1 :: y.1, y.2) := by
  obtain ⟨rest, last⟩ := c
  cases whole
  change (if _ then _ else _ : Reader (List α)) _ = _
  rw [if_pos (by simp [comma])]
  change ((if _ then _ else _ : Reader Token) _).bind _ = _
  rw [if_pos comma]
  rfl

section Readers

variable (lawful : k.Lawful)
include lawful

/-- Any bounds will do that are not below the number of tokens. -/
theorem Lawful.moreItems {item : Reader α} (short : Shortens item) (reads : k.Respects good item)
    {n m : Nat} {c d : Cursor}
    (related : k.cursor c d) (left : c.rest.length ≤ n) (right : d.rest.length ≤ m) :
    Agree k.place (fun x y => x.1 = y.1 ∧ k.cursor x.2 y.2) (Reader.moreItems item n c)
      (Reader.moreItems item m d) := by
  induction n generalizing m c d with
  | zero =>
    have none : c.rest = [] := List.eq_nil_of_length_eq_zero (by omega)
    rcases lawful.next related with ⟨_, mark⟩ | ⟨t, ts, us, whole, -⟩
    · rw [moreItems_stop (by simp [none]), moreItems_stop (mark.next_is rfl)]
      exact .ok ⟨rfl, related⟩
    · simp [none] at whole
  | succ n ih =>
    rcases lawful.next related with ⟨mark, mark'⟩ | ⟨t, ts, us, whole, whole', -, later⟩
    · rw [moreItems_stop (mark.next_is rfl), moreItems_stop (mark'.next_is rfl)]
      exact .ok ⟨rfl, related⟩
    · by_cases comma : t.kind = .comma
      · rw [whole, List.length_cons] at left
        rw [whole', List.length_cons] at right
        obtain ⟨m, rfl⟩ : ∃ m', m = m' + 1 := ⟨m - 1, by omega⟩
        rw [moreItems_comma whole comma, moreItems_comma whole' comma]
        refine Agree.bind (reads _ _ later) ?_
        rintro ⟨a, c'⟩ ⟨_, d'⟩ read read' ⟨rfl, -, later'⟩
        have shorter : c'.rest.length ≤ n := (short _ _ _ read).trans (by dsimp only; omega)
        have shorter' : d'.rest.length ≤ m := (short _ _ _ read').trans (by dsimp only; omega)
        refine Agree.bind (ih later' shorter shorter') ?_
        rintro ⟨as, c''⟩ ⟨_, d''⟩ - - ⟨rfl, last⟩
        exact .ok ⟨rfl, last⟩
      · rw [moreItems_stop (by simp [whole, comma]), moreItems_stop (by simp [whole', comma])]
        exact .ok ⟨rfl, related⟩

theorem Lawful.commaSeparated {item : Reader α} (short : Shortens item) (reads : k.Respects good item) :
    k.Respects (fun _ => True) (Reader.commaSeparated item) := by
  intro c d related
  refine Agree.bind (reads c d related) ?_
  rintro ⟨a, c'⟩ ⟨_, d'⟩ - - ⟨rfl, -, related'⟩
  refine Agree.bind (lawful.moreItems short reads related' le_rfl le_rfl) ?_
  rintro ⟨as, c''⟩ ⟨_, d''⟩ - - ⟨rfl, related''⟩
  exact .ok ⟨rfl, trivial, related''⟩

/-! ## Statements -/

theorem Lawful.operands (format : Format) : k.Respects (fun _ => True) (Reader.operands format) := by
  have comma : k.Respects _ (Reader.expect .comma) := lawful.expect rfl
  cases format with
  | bare => exact respects_pure trivial
  | reg => exact lawful.register.bind fun _ _ => respects_pure trivial
  | regImm =>
    refine lawful.register.bind fun _ _ => comma.bind fun _ _ => ?_
    exact lawful.constant.bind fun _ _ => respects_pure trivial
  | regMem =>
    refine lawful.register.bind fun _ _ => comma.bind fun _ _ => lawful.register.bind fun _ _ => ?_
    refine (lawful.expect rfl).bind fun _ _ => lawful.constant.bind fun _ _ => ?_
    exact (lawful.expect rfl).bind fun _ _ => respects_pure trivial
  | regReg =>
    refine lawful.register.bind fun _ _ => comma.bind fun _ _ => ?_
    exact lawful.register.bind fun _ _ => respects_pure trivial
  | regRegReg =>
    refine lawful.register.bind fun _ _ => comma.bind fun _ _ => lawful.register.bind fun _ _ =>
      comma.bind fun _ _ => ?_
    exact lawful.register.bind fun _ _ => respects_pure trivial

/-- The steps stand at places that have the property. -/
def Placed (k : Comparison) (steps : List Step) : Prop := ∀ step ∈ steps, step.PlacedIn k.place

omit lawful in
theorem respects_step {step : Step} (here : step.PlacedIn k.place) : k.Respects k.Placed
    (pure [step] : Reader (List Step)) :=
  respects_pure (by simpa [Placed] using here)

theorem Lawful.instructionStep (isa : InstructionSet) {t : Token} (here : k.place t.pos) :
    k.Respects k.Placed (instructionStep isa t) := by
  have instruction : k.Respects (fun _ => True) (Reader.instruction isa t) := by
    unfold Reader.instruction
    split
    · exact respects_throw (by exact here)
    · exact (lawful.operands _).bind fun _ _ => respects_pure trivial
  exact instruction.bind fun _ _ => respects_step here

theorem Lawful.sectionName : k.Respects (fun _ => True) Reader.sectionName :=
  lawful.skip rfl ((lawful.word _).bind fun _ _ => respects_pure trivial)
    ((lawful.word _).bind fun _ _ => respects_pure trivial)

theorem Lawful.parameters : k.Respects (fun _ => True) Reader.parameters := by
  have names := lawful.commaSeparated (word_shortens .parameterName)
    (lawful.wordText .parameterName)
  have plain {c : Cursor} (mark : AtMark c) : c.rest.head?.any Token.isWord = false :=
    mark.head_any fun _ => Token.isWord_of_isMark
  intro c d related
  unfold Reader.parameters
  rcases lawful.next related with ⟨left, right⟩ | ⟨t, ts, us, left, right, -, later⟩
  · rw [if_neg (by simp [plain left]), if_neg (by simp [plain right])]
    exact .ok ⟨rfl, trivial, related⟩
  · rw [left, right, List.head?_cons, List.head?_cons, Option.any_some]
    split
    · exact names c d related
    · exact .ok ⟨rfl, trivial, related⟩

theorem Lawful.stringBytes : k.Respects (fun _ => True) Reader.stringBytes := by
  refine (lawful.expect rfl).bind fun literal here => ?_
  split
  · exact respects_throw here.2
  · split
    · exact respects_pure trivial
    · exact respects_throw here.2

theorem Lawful.directiveOperands {pos : Position} (here : k.place pos) (d : Directive) :
    k.Respects k.Placed (Reader.directiveOperands pos d) := by
  cases d with
  | standardSection name => exact respects_step here
  | namedSection => exact lawful.sectionName.bind fun _ _ => respects_step here
  | constantDefinition =>
    refine (lawful.word _).bind fun name _ => ?_
    have record (line : List Token) : k.Respects k.Placed
        (pure [.item { node := .constantRecord name.raw (Token.render line), pos }] : Reader (List Step)) :=
          respects_step here
    have value := lawful.restOfLine.bind fun line _ => record line
    rwa [bind_assoc] at value
  | macroHeader => exact (lawful.word _).bind fun _ _ => lawful.parameters.bind fun _ _ => respects_step here
  | macroEnd => exact respects_pure (by simp [Placed])
  | values width => exact (lawful.commaSeparated constant_shortens lawful.constant).bind fun _ _ => respects_step here
  | zeros => exact (lawful.expect rfl).bind fun _ _ => respects_step here
  | text terminated => exact lawful.stringBytes.bind fun _ _ => respects_step here

theorem Lawful.directive {dot : Token} (here : k.place dot.pos) : k.Respects k.Placed (Reader.directive dot) := by
  refine (lawful.word _).bind fun name named => ?_
  split
  · exact lawful.directiveOperands here _
  · exact respects_throw named.2

omit lawful in
theorem result_statement (r : Reader (List Step)) (c : Cursor) :
    (Reader.statement r c).result = r c >>= fun x => Reader.endOfLine x.2 >>= fun _ => pure x.1 := by
  unfold Reader.statement
  cases r c with
  | error e => rfl
  | ok x =>
    simp only [bind, Except.bind]
    cases Reader.endOfLine x.2 <;> rfl

theorem Lawful.statement {r : Reader (List Step)} (reads : k.Respects k.Placed r) {c d : Cursor}
    (related : k.cursor c d) :
    Run.Agree k.place (Reader.statement r c) (Reader.statement r d) := by
  unfold Run.Agree
  rw [result_statement, result_statement]
  refine Agree.bind (reads c d related) ?_
  rintro ⟨steps, c'⟩ ⟨_, d'⟩ - - ⟨rfl, placed, later⟩
  exact Agree.bind (lawful.endOfLine later) fun _ _ _ _ _ => .ok ⟨rfl, placed⟩

/-! ## Lines -/

variable {isa : InstructionSet} {readLines readLines' : List Token → Run Step}

/-- Pseudo-instructions are read alike if the lines are that they stand for. -/
theorem Lawful.readPseudo {t : Token} (here : k.place t.pos)
    (unfolds : ∀ form operands, Run.Agree k.place (readLines (PseudoForm.unfold isa form operands t))
      (readLines' (PseudoForm.unfold isa form operands t)))
    {rest rest' : List Token} (related : k.cursor ⟨rest, t.pos⟩ ⟨rest', t.pos⟩) :
    Run.Agree k.place (readPseudo isa readLines t rest) (readPseudo isa readLines' t rest') := by
  have arguments : Token.uncommented (Token.line rest) = Token.uncommented (Token.line rest') := by
    cases lawful.restOfLine _ _ related with
    | ok same => exact same.1
  have line : ∀ u ∈ Token.uncommented (Token.line rest), k.place u.pos := fun u member =>
    lawful.tokens related u ((List.takeWhile_sublist _).subset (List.mem_filter.mp member).1)
  unfold Bisc.readPseudo
  dsimp only
  rw [← arguments]
  split
  · rename_i form operands _
    split
    · exact Run.agree_fail here
    · exact (unfolds form operands).cons trivial
  · split
    · have fallback := lawful.statement (lawful.instructionStep isa here) (lawful.withoutComments related)
      simpa only [Cursor.withoutComments, ← arguments] using fallback
    · refine Run.agree_fail ?_
      unfold noFormError
      split
      · rename_i bad found
        exact line bad (List.mem_of_find?_eq_some found)
      · exact here

omit lawful in
/-- A label without a colon fails at itself or at what stands in place of the colon. -/
theorem readLine_unmarked_label (readLines : List Token → Run Step) {t : Token} {ts : List Token}
    (kind : t.kind = .identifier)
    (other : ∀ u, ts.head? = some u → u.kind ≠ .colon) :
    ∃ e, readLine isa readLines (t :: ts) = .fail e ∧ (e.pos = t.pos ∨ ∃ u ∈ ts, e.pos = u.pos) := by
  rw [readLine.eq_def]
  simp only [kind]
  cases ts with
  | nil => exact ⟨_, rfl, .inl rfl⟩
  | cons u us => exact ⟨_, if_neg (other u rfl), .inr ⟨u, List.mem_cons_self, refused_pos u _⟩⟩

/-- Lines are read alike if the lines are that their pseudo-instructions stand for. -/
theorem Lawful.readLine (unfolds : ∀ t, k.place t.pos → ∀ form operands,
      Run.Agree k.place (readLines (PseudoForm.unfold isa form operands t))
        (readLines' (PseudoForm.unfold isa form operands t)))
    {c d : Cursor} (related : k.cursor c d) :
    Run.Agree k.place (readLine isa readLines c.rest) (readLine isa readLines' d.rest) := by
  induction length : c.rest.length using Nat.strong_induction_on generalizing c d with
  | _ n ih =>
  cases lawful.front related with
  | ended left right =>
    rw [left, right]
    exact Run.agree_done
  | stopped left kind right =>
    rw [left, right, readLine_separator _ kind]
    exact Run.agree_done
  | comment left kind mark later =>
    rw [left, readLine_comment _ kind]
    exact ih _ (by simp [← length, left]) later rfl
  | @shared t ts us left right later =>
    have here := lawful.tokens related t (by rw [left]; exact List.mem_cons_self)
    have inside : ∀ u ∈ ts, k.place u.pos := lawful.tokens later
    have rest := ih _ (by simp [← length, left]) later rfl
    rw [left, right]
    by_cases identifier : t.kind = .identifier
    · have label : (∀ u, ts.head? = some u → u.kind ≠ .colon) ∧ (∀ u, us.head? = some u → u.kind ≠ .colon) ∨
          ∃ u ts' us', ts = u :: ts' ∧ us = u :: us' ∧ u.kind = .colon ∧ k.cursor ⟨ts', u.pos⟩ ⟨us', u.pos⟩ := by
        rcases lawful.next later with ⟨mark, mark'⟩ | ⟨u, ts', us', whole, whole', -, last⟩
        · refine .inl ⟨fun u head colon => ?_, fun u head colon => ?_⟩
          · simpa [colon, TokenKind.isMark] using mark u head
          · simpa [colon, TokenKind.isMark] using mark' u head
        · dsimp only at whole whole'
          by_cases colon : u.kind = .colon
          · exact .inr ⟨u, ts', us', whole, whole', colon, last⟩
          · exact .inl ⟨by simpa [whole] using colon, by simpa [whole'] using colon⟩
      rcases label with ⟨other, other'⟩ | ⟨u, ts', us', rfl, rfl, colon, last⟩
      · obtain ⟨e, failed, place⟩ := readLine_unmarked_label readLines identifier other
        obtain ⟨e', failed', -⟩ := readLine_unmarked_label readLines' identifier other'
        rw [failed, failed']
        refine Run.agree_fail ?_
        rcases place with own | ⟨u, member, own⟩
        · rwa [own]
        · rw [own]
          exact inside u member
      · rw [readLine_label _ identifier colon, readLine_label _ identifier colon]
        exact (ih _ (by simp [← length, left]) last rfl).cons here
    · rw [readLine.eq_def, readLine.eq_def]
      dsimp only
      cases kind : t.kind with
      | comment | lineSeparator => exact rest
      | identifier => exact absurd kind identifier
      | opcode => exact lawful.statement (lawful.instructionStep isa here) later
      | pseudoOp => exact lawful.readPseudo here (unfolds t here) later
      | directive => exact lawful.statement (lawful.directive here) later
      | _ => exact Run.agree_fail ((refused_pos t .statement).symm ▸ here)

end Readers
end Comparison
end Bisc
