import Bisc.Proofs.Comments

/-!
Readers on a whole queue. The queue goes on behind the line that a reader is in, and nothing tells
where that line ends but its separator. No reader of a statement takes the separator or looks behind
it: on the queue it gives what it gives on its line alone, and leaves the rest of the line with the
rest of the queue. So statements are read off the queue one after the other, each from where the one
before it has left the queue.
-/
namespace Bisc

variable {α β : Type}

/-! ## First lines -/

namespace Token

/-- The tokens of the first line, with its separator if it has one. -/
def firstLine (ts : List Token) : List Token := line ts ++ (afterLine ts).take 1

/-- The tokens behind the first line. -/
def behindLine (ts : List Token) : List Token := (afterLine ts).drop 1

section Inline

variable {ts : List Token} (inline : ∀ t ∈ ts, t.isSeparator = false)
include inline

theorem line_of_inline : line ts = ts := List.takeWhile_eq_self_iff.mpr fun t member => by simp [inline t member]
theorem afterLine_of_inline : afterLine ts = [] :=
  List.dropWhile_eq_nil_iff.mpr fun t member => by simp [inline t member]

theorem line_append_stop {stop : Token} (ends : stop.isSeparator) (us : List Token) :
    line (ts ++ stop :: us) = ts := by
  rw [line, List.takeWhile_append_of_pos fun t member => by simp [inline t member]]
  simp [ends]
theorem afterLine_append_stop {stop : Token} (ends : stop.isSeparator) (us : List Token) :
    afterLine (ts ++ stop :: us) = stop :: us := by
  rw [afterLine, List.dropWhile_append_of_pos fun t member => by simp [inline t member]]
  simp [ends]

end Inline

theorem inline_of_line (ts : List Token) : ∀ u ∈ line ts, u.isSeparator = false := by
  intro u member
  simpa using List.mem_takeWhile_imp member

end Token

/-! ## Cursors in a line -/

/-- What a line ends with, before what is behind it: a separator, or nothing where the queue ends. -/
inductive EndsLine : List Token → List Token → Prop
  | separator {stop : Token} (ends : stop.isSeparator) (behind : List Token) : EndsLine [stop] behind
  | last : EndsLine [] []

/-- The cursor is in a line with this end. -/
def Cursor.InLine (ending : List Token) (c : Cursor) : Prop :=
  ∃ body, (∀ t ∈ body, t.isSeparator = false) ∧ c.rest = body ++ ending

/-- The cursor in a queue that goes on. -/
def Cursor.before (c : Cursor) (behind : List Token) : Cursor := ⟨c.rest ++ behind, c.last⟩

/-- The reader stays in its line: it does the same where the queue goes on, and leaves a cursor in
    the line. -/
def Stays (ending behind : List Token) (r : Reader α) : Prop :=
  ∀ c : Cursor, c.InLine ending →
    r (c.before behind) = (r c).map (fun x => (x.1, x.2.before behind)) ∧
      ∀ a d, r c = .ok (a, d) → d.InLine ending

namespace EndsLine

variable {ending behind : List Token} (ends : EndsLine ending behind) {body : List Token}
  (inline : ∀ t ∈ body, t.isSeparator = false)
include ends

/-- The line ends as well where the queue does. -/
theorem alone : EndsLine ending [] := by
  cases ends with
  | separator stops behind => exact .separator stops []
  | last => exact .last

theorem drop_one : (ending ++ behind).drop 1 = behind := by
  cases ends <;> rfl

include inline

theorem line_append : Token.line (body ++ (ending ++ behind)) = body := by
  cases ends with
  | separator stops behind => exact Token.line_append_stop inline stops behind
  | last => rw [List.append_nil, List.append_nil, Token.line_of_inline inline]

theorem afterLine_append : Token.afterLine (body ++ (ending ++ behind)) = ending ++ behind := by
  cases ends with
  | separator stops behind => exact Token.afterLine_append_stop inline stops behind
  | last => rw [List.append_nil, List.append_nil, Token.afterLine_of_inline inline]

end EndsLine

/-- The first line of a queue ends before what is behind it. -/
theorem endsLine_firstLine (ts : List Token) : EndsLine ((Token.afterLine ts).take 1) (Token.behindLine ts) := by
  unfold Token.behindLine
  cases found : Token.afterLine ts with
  | nil => exact .last
  | cons stop us =>
    exact .separator (Token.afterLine_head found) us

theorem inLine_firstLine (ts : List Token) (last : Position) :
    Cursor.InLine ((Token.afterLine ts).take 1) ⟨Token.firstLine ts, last⟩ :=
  ⟨Token.line ts, Token.inline_of_line ts, rfl⟩

theorem firstLine_before (ts : List Token) (last : Position) :
    Cursor.before ⟨Token.firstLine ts, last⟩ (Token.behindLine ts) = ⟨ts, last⟩ := by
  rw [Cursor.before, Token.firstLine, Token.behindLine, List.append_assoc, List.take_append_drop,
    Token.line_append_afterLine]

/-! ## Readers of a line -/

section Stays

variable {ending behind : List Token}

theorem Stays.bind {r : Reader α} {f : α → Reader β} (first : Stays ending behind r)
    (rest : ∀ a, Stays ending behind (f a)) : Stays ending behind (r >>= f) := by
  intro c inside
  have run (d : Cursor) : (r >>= f) d = r d >>= fun x => f x.1 x.2 := rfl
  obtain ⟨same, within⟩ := first c inside
  rw [run, run, same]
  cases read : r c with
  | error e => exact ⟨rfl, fun _ _ impossible => by cases impossible⟩
  | ok x => exact rest x.1 x.2 (within x.1 x.2 read)

theorem stays_pure (a : α) : Stays ending behind (pure a : Reader α) := by
  intro c inside
  refine ⟨rfl, fun a' d read => ?_⟩
  cases read
  exact inside

theorem stays_throw (e : Error) : Stays ending behind (throw e : Reader α) :=
  fun _ _ => ⟨rfl, fun _ _ impossible => by cases impossible⟩

variable (ends : EndsLine ending behind)
include ends

/-- The first token is the same with more of the queue behind. -/
theorem head?_before {c : Cursor} (inside : c.InLine ending) : (c.before behind).rest.head? = c.rest.head? := by
  obtain ⟨rest, last⟩ := c
  obtain ⟨body, -, rfl⟩ := inside
  cases body with
  | nil => cases ends <;> rfl
  | cons t body => rfl

theorem stays_nextIs (kind : TokenKind) : Stays ending behind (Reader.nextIs kind) := by
  intro c inside
  refine ⟨?_, fun a d read => ?_⟩
  · simp only [Reader.nextIs, head?_before ends inside]
    rfl
  · cases read
    exact inside

/-- A reader that takes the next token stays in the line if it refuses a separator. -/
theorem stays_next_bind {what : Expected} {f : Token → Reader α}
    (refuses : ∀ t, t.isSeparator → ∃ e, ∀ c, f t c = .error e)
    (accepts : ∀ t, t.isSeparator = false → Stays ending behind (f t)) :
    Stays ending behind (Reader.next what >>= f) := by
  rintro ⟨_, last⟩ ⟨body, inline, rfl⟩
  cases body with
  | nil =>
    cases ends with
    | @separator stop stops behind =>
      obtain ⟨e, refused⟩ := refuses stop stops
      have failed (us : List Token) : (Reader.next what >>= f) ⟨stop :: us, last⟩ = .error e := refused ⟨us, stop.pos⟩
      refine ⟨(failed behind).trans ?_, fun a d read => ?_⟩
      · rw [List.nil_append, failed]
        rfl
      · rw [List.nil_append, failed] at read
        cases read
    | last => exact ⟨rfl, fun _ _ impossible => by cases impossible⟩
  | cons t body =>
    obtain ⟨first, others⟩ := List.forall_mem_cons.mp inline
    exact accepts t first ⟨body ++ ending, t.pos⟩ ⟨body, others, rfl⟩

theorem stays_passing {what : Expected} {test : Token → Prop} [DecidablePred test]
    (inside : ∀ t, t.isSeparator → ¬test t) :
    Stays ending behind (do let t ← Reader.next what; if test t then return t else throw (t.refused what)) := by
  refine stays_next_bind ends (fun t stops => ⟨t.refused what, fun c => ?_⟩) fun t _ => ?_
  · rw [if_neg (inside t stops)]
    rfl
  · split
    · exact stays_pure t
    · exact stays_throw _

theorem stays_expect {kind : TokenKind} (other : kind ≠ .lineSeparator) :
    Stays ending behind (Reader.expect kind) :=
  stays_passing ends fun t stops same => other (by simpa [Token.isSeparator, same] using stops)

theorem stays_word (what : Expected) : Stays ending behind (Reader.word what) :=
  stays_passing ends fun t stops word => by simp_all [Token.isSeparator, Token.isWord, TokenKind.isWord]

theorem stays_register : Stays ending behind Reader.register :=
  (stays_expect ends (by decide)).bind fun _ => stays_pure _

/-- A token of a kind is passed over if it comes next. -/
theorem stays_skip {kind : TokenKind} (other : kind ≠ .lineSeparator) {what : Expected} {r s : Reader α}
    (passed : Stays ending behind r) (absent : Stays ending behind s) :
    Stays ending behind (do if ← Reader.nextIs kind then let _ ← Reader.next what; r else s) := by
  have run (e : Cursor) : (do if ← Reader.nextIs kind then let _ ← Reader.next what; r else s : Reader α) e =
      if e.rest.head?.any fun t => t.kind = kind then (Reader.next what >>= fun _ => r) e else s e := by
    change (if _ then _ else _ : Reader α) e = _
    split <;> rfl
  rintro ⟨_, last⟩ ⟨body, inline, rfl⟩
  have inside : Cursor.InLine ending ⟨body ++ ending, last⟩ := ⟨body, inline, rfl⟩
  rw [run, run, head?_before ends inside]
  split
  · rename_i found
    cases body with
    | nil =>
      -- What comes next ends the line, and so is not of the kind.
      cases ends with
      | separator stops behind =>
        have same := by simpa using found
        exact absurd (same.symm.trans (Token.isSeparator_iff.mp stops)) other
      | last => cases found
    | cons t body =>
      obtain ⟨-, others⟩ := List.forall_mem_cons.mp inline
      exact passed ⟨body ++ ending, t.pos⟩ ⟨body, others, rfl⟩
  · exact absent _ inside

/-! ## Constants -/

theorem stays_slice (symbol : Token) : Stays ending behind (Reader.slice symbol) := by
  refine (stays_expect ends (by decide)).bind fun _ => (stays_expect ends (by decide)).bind fun first => ?_
  refine (stays_expect ends (by decide)).bind fun _ => (stays_expect ends (by decide)).bind fun last => ?_
  refine (stays_expect ends (by decide)).bind fun _ => ?_
  dsimp only
  split
  · have refused : Stays ending behind (throw
        ⟨.outOfRange (.slice symbol.raw first.number last.number), symbol.pos⟩ : Reader PUnit) := stays_throw _
    exact refused.bind fun _ => stays_pure _
  · exact stays_pure _

theorem stays_plainConstant (what : Expected) (t : Token) : Stays ending behind (Reader.plainConstant what t) := by
  unfold Reader.plainConstant
  split
  · exact stays_pure _
  · refine (stays_nextIs ends _).bind fun sliced => ?_
    split
    · exact stays_slice ends t
    · exact stays_pure _
  · exact stays_throw _

omit ends in
theorem plainConstant_separator {t : Token} (stops : t.isSeparator) (what : Expected) (c : Cursor) :
    Reader.plainConstant what t c = .error (t.refused what) := by
  simp only [Reader.plainConstant, Token.isSeparator_iff.mp stops]
  rfl

omit ends in
theorem stays_halfSelector (t : Token) : Stays ending behind (Reader.halfSelector t : Reader Selector) := by
  unfold Reader.halfSelector
  split
  · exact stays_pure _
  · split
    · exact stays_pure _
    · exact stays_throw _

theorem stays_constant : Stays ending behind Reader.constant := by
  refine stays_next_bind ends (fun t stops => ⟨t.refused .constant, fun c => ?_⟩) fun t _ => ?_
  · have plain : t.kind ≠ .directive := fun same => by simp [Token.isSeparator, same] at stops
    rw [if_neg plain, plainConstant_separator stops]
  · split
    · refine (stays_word ends _).bind fun name => (stays_halfSelector name).bind fun selector => ?_
      refine stays_next_bind ends (fun u stops => ⟨u.refused .plainConstant, fun c => ?_⟩) fun u _ => ?_
      · change (Reader.plainConstant .plainConstant u c).bind _ = _
        rw [plainConstant_separator stops]
        rfl
      · exact (stays_plainConstant ends _ u).bind fun _ => stays_pure _
    · exact stays_plainConstant ends _ t

/-! ## Lists -/

/-- The number of tokens is bound enough for the items that follow, in the line and in the queue. -/
theorem stays_moreItems {item : Reader α} (short : Comparison.Shortens item) (stays : Stays ending behind item)
    {n m : Nat} {c : Cursor} (inside : c.InLine ending) (within : c.rest.length ≤ n)
    (bounded : (c.before behind).rest.length ≤ m) :
    Reader.moreItems item m (c.before behind) =
        (Reader.moreItems item n c).map (fun x => (x.1, x.2.before behind)) ∧
      ∀ as d, Reader.moreItems item n c = .ok (as, d) → d.InLine ending := by
  have stopped {n m : Nat} {c : Cursor} (inside : c.InLine ending)
      (other : (c.rest.head?.any fun t => t.kind = .comma) = false) :
      Reader.moreItems item m (c.before behind) =
          (Reader.moreItems item n c).map (fun x => (x.1, x.2.before behind)) ∧
        ∀ as d, Reader.moreItems item n c = .ok (as, d) → d.InLine ending := by
    have other' : ((c.before behind).rest.head?.any fun t => t.kind = .comma) = false := by
      rw [head?_before ends inside, other]
    rw [Comparison.moreItems_stop other', Comparison.moreItems_stop other]
    refine ⟨rfl, fun as d read => ?_⟩
    cases read
    exact inside
  induction n generalizing m c with
  | zero =>
    have none : c.rest = [] := List.eq_nil_of_length_eq_zero (by omega)
    exact stopped inside (by rw [none]; rfl)
  | succ n ih =>
    obtain ⟨rest, last⟩ := c
    cases comma : rest.head?.any fun t => t.kind = .comma with
    | false => exact stopped inside comma
    | true =>
      obtain ⟨body, inline, rfl⟩ := inside
      cases body with
      | nil =>
        cases ends with
        | separator stops behind => simp_all [Token.isSeparator]
        | last => cases comma
      | cons t body =>
        have kind : t.kind = .comma := by simpa using comma
        obtain ⟨-, others⟩ := List.forall_mem_cons.mp inline
        simp only [Cursor.before, List.cons_append, List.length_cons] at within bounded
        obtain ⟨m, rfl⟩ : ∃ m', m = m' + 1 := ⟨m - 1, by omega⟩
        obtain ⟨same, left⟩ := stays ⟨body ++ ending, t.pos⟩ ⟨body, others, rfl⟩
        simp only [Cursor.before, List.cons_append] at same ⊢
        rw [Comparison.moreItems_comma rfl kind, Comparison.moreItems_comma rfl kind, same]
        cases read : item ⟨body ++ ending, t.pos⟩ with
        | error e => exact ⟨rfl, fun _ _ impossible => by cases impossible⟩
        | ok x =>
          obtain ⟨a, d⟩ := x
          have shorter := short _ _ _ read
          simp only [List.length_append] at within bounded shorter
          obtain ⟨more, last'⟩ := @ih m d (left a d read) (by omega)
            (by simp only [Cursor.before, List.length_append]; omega)
          simp only [Cursor.before, Except.map, bind, Except.bind] at more ⊢
          rw [more]
          cases rest : Reader.moreItems item n d with
          | error e => exact ⟨rfl, fun _ _ impossible => by cases impossible⟩
          | ok y =>
            refine ⟨rfl, fun as e given => ?_⟩
            cases given
            exact last' y.1 y.2 rest

theorem stays_commaSeparated {item : Reader α} (short : Comparison.Shortens item) (stays : Stays ending behind item) :
    Stays ending behind (Reader.commaSeparated item) := by
  refine stays.bind fun a c inside => ?_
  have run (d : Cursor) : (do return a :: (← Reader.moreItems item (← get).rest.length) : Reader (List α)) d =
      (Reader.moreItems item d.rest.length d).map fun x => (a :: x.1, x.2) := by
    change (Reader.moreItems item d.rest.length d).bind _ = _
    cases Reader.moreItems item d.rest.length d <;> rfl
  obtain ⟨same, within⟩ := stays_moreItems ends short stays inside le_rfl le_rfl
  rw [run, run, same]
  cases read : Reader.moreItems item c.rest.length c with
  | error e => exact ⟨rfl, fun _ _ impossible => by cases impossible⟩
  | ok x =>
    refine ⟨rfl, fun as d given => ?_⟩
    cases given
    exact within x.1 x.2 read

/-! ## Statements -/

theorem stays_operands (format : Format) : Stays ending behind (Reader.operands format) := by
  have register := stays_register ends
  have comma : Stays ending behind (Reader.expect .comma) := stays_expect ends (by decide)
  cases format with
  | bare => exact stays_pure _
  | reg => exact register.bind fun _ => stays_pure _
  | regImm => exact register.bind fun _ => comma.bind fun _ => (stays_constant ends).bind fun _ => stays_pure _
  | regMem =>
    refine register.bind fun _ => comma.bind fun _ => register.bind fun _ => ?_
    refine (stays_expect ends (by decide)).bind fun _ => (stays_constant ends).bind fun _ => ?_
    exact (stays_expect ends (by decide)).bind fun _ => stays_pure _
  | regReg => exact register.bind fun _ => comma.bind fun _ => register.bind fun _ => stays_pure _
  | regRegReg =>
    refine register.bind fun _ => comma.bind fun _ => register.bind fun _ => comma.bind fun _ => ?_
    exact register.bind fun _ => stays_pure _

theorem stays_instructionStep (isa : InstructionSet) (t : Token) : Stays ending behind (instructionStep isa t) := by
  have instruction : Stays ending behind (Reader.instruction isa t) := by
    unfold Reader.instruction
    split
    · exact stays_throw _
    · exact (stays_operands ends _).bind fun _ => stays_pure _
  exact instruction.bind fun _ => stays_pure _

theorem stays_wordText (what : Expected) : Stays ending behind (return (← Reader.word what).raw : Reader String) :=
  (stays_word ends what).bind fun _ => stays_pure _

theorem stays_sectionName : Stays ending behind Reader.sectionName :=
  stays_skip ends (by decide) ((stays_word ends _).bind fun _ => stays_pure _) (stays_wordText ends _)

theorem stays_parameters : Stays ending behind Reader.parameters := by
  intro c inside
  unfold Reader.parameters
  rw [head?_before ends inside]
  split
  · exact stays_commaSeparated ends (Comparison.word_shortens _) (stays_wordText ends _) c inside
  · exact stays_pure _ c inside

theorem stays_stringBytes : Stays ending behind Reader.stringBytes := by
  refine (stays_expect ends (by decide)).bind fun literal => ?_
  split
  · exact stays_throw _
  · split
    · exact stays_pure _
    · exact stays_throw _

/-- The operands of any directive but a definition, which takes the rest of its line as it is. -/
theorem stays_directiveOperands (pos : Position) {d : Directive} (other : d ≠ .constantDefinition) :
    Stays ending behind (Reader.directiveOperands pos d) := by
  cases d with
  | standardSection | macroEnd => exact stays_pure _
  | namedSection => exact (stays_sectionName ends).bind fun _ => stays_pure _
  | constantDefinition => exact absurd rfl other
  | macroHeader => exact (stays_word ends _).bind fun _ => (stays_parameters ends).bind fun _ => stays_pure _
  | values =>
    exact (stays_commaSeparated ends Comparison.constant_shortens (stays_constant ends)).bind fun _ => stays_pure _
  | zeros => exact (stays_expect ends (by decide)).bind fun _ => stays_pure _
  | text => exact (stays_stringBytes ends).bind fun _ => stays_pure _

/-- The end of a line leaves the queue behind the line. -/
theorem endOfLine_before {c : Cursor} (inside : c.InLine ending) : Reader.endOfLine (c.before behind) =
    (Reader.endOfLine c).map fun x => ((), ⟨behind, x.2.last⟩) := by
  obtain ⟨rest, last⟩ := c
  obtain ⟨body, inline, rfl⟩ := inside
  have refused {t : Token} (inside : t.isSeparator = false) : ¬t.isSeparator = true := by simp [inside]
  match body with
  | [] =>
    cases ends with
    | @separator stop stops behind =>
      have plain := Token.isComment_of_isSeparator stops
      simp only [Cursor.before, List.nil_append, List.singleton_append]
      rw [Comparison.endOfLine_uncommented plain, Comparison.endOfLine_uncommented plain, if_pos stops, if_pos stops]
      rfl
    | last => rfl
  | [t] =>
    have other := refused (inline t List.mem_cons_self)
    by_cases comment : t.isComment
    · cases ends with
      | @separator stop stops behind =>
        simp only [Cursor.before, List.cons_append, List.nil_append]
        rw [Comparison.endOfLine_commented comment, Comparison.endOfLine_commented comment, if_pos stops, if_pos stops]
        rfl
      | last => simp [Cursor.before, Reader.endOfLine, comment, Except.map]
    · have plain : t.isComment = false := by simpa using comment
      simp only [Cursor.before, List.cons_append]
      rw [Comparison.endOfLine_uncommented plain, Comparison.endOfLine_uncommented plain, if_neg other, if_neg other]
      rfl
  | t :: u :: body =>
    have other := refused (inline t List.mem_cons_self)
    have other' := refused (inline u (by simp))
    simp only [Cursor.before, List.cons_append]
    by_cases comment : t.isComment
    · rw [Comparison.endOfLine_commented comment, Comparison.endOfLine_commented comment, if_neg other', if_neg other']
      rfl
    · have plain : t.isComment = false := by simpa using comment
      rw [Comparison.endOfLine_uncommented plain, Comparison.endOfLine_uncommented plain, if_neg other, if_neg other]
      rfl

end Stays

/-! ## Statements on the queue -/

/-- The steps of a statement that is read off the queue, and where the queue is then. -/
def Reader.statementOn (r : Reader (List Step)) (c : Cursor) : Run Step × Cursor :=
  match r c with
  | .error e => (.fail e, c)
  | .ok (steps, d) =>
    match endOfLine d with
    | .error e => (⟨steps, some e⟩, d)
    | .ok (_, d) => (⟨steps, none⟩, d)

/-- Tokens that were taken up to a separator: those that are no comments, the separator if there was
    one, and where the queue is then. -/
structure TakenLine where
  arguments : List Token
  stop : Option Token
  cursor : Cursor

/-- Takes tokens one by one up to the next separator, and takes it too. -/
def takeLine (last : Position) : List Token → TakenLine
  | [] => ⟨[], none, ⟨[], last⟩⟩
  | t :: ts =>
    if t.isSeparator then ⟨[], some t, ⟨ts, t.pos⟩⟩
    else
      let more := takeLine t.pos ts
      if t.isComment then more else { more with arguments := t :: more.arguments }

/-- A definition of a constant on the queue, after its name of a directive. -/
def Reader.definitionOn (pos : Position) (c : Cursor) : Run Step × Cursor :=
  match word .constantName c with
  | .error e => (.fail e, c)
  | .ok (name, d) =>
    let taken := takeLine d.last d.rest
    (⟨[.item { node := .constantRecord name.raw (Token.render taken.arguments), pos }], none⟩, taken.cursor)

/-- A directive on the queue, after its dot. -/
def Reader.directiveOn (dot : Token) (c : Cursor) : Run Step × Cursor :=
  match word .directiveName c with
  | .error e => (.fail e, c)
  | .ok (name, d) =>
    match directiveTable.lookup name.name with
    | some .constantDefinition => definitionOn dot.pos d
    | some other => statementOn (directiveOperands dot.pos other) d
    | none => (.fail ⟨.unexpected (.token .directive) (.spelled ("." ++ name.raw)), name.pos⟩, d)

/-- The queue gives what the line gives, and is behind the line then unless the line failed. -/
structure ReadsLine (behind : List Token) (line : Run Step) (queue : Run Step × Cursor) : Prop where
  run : queue.1 = line
  rest : line.failure = none → queue.2.rest = behind

theorem takeLine_eq (last : Position) (ts : List Token) : takeLine last ts =
    ⟨Token.uncommented (Token.line ts), (Token.afterLine ts).head?, ⟨Token.behindLine ts,
      ((Token.firstLine ts).getLast?.map Token.pos).getD last⟩⟩ := by
  induction ts generalizing last with
  | nil => rfl
  | cons t ts ih =>
    rw [takeLine, ih]
    by_cases stops : t.isSeparator
    · simp [stops, Token.line, Token.afterLine, Token.behindLine, Token.firstLine, Token.uncommented]
    · have last' : ((Token.firstLine (t :: ts)).getLast?.map Token.pos).getD last =
          ((Token.firstLine ts).getLast?.map Token.pos).getD t.pos := by
        have first : Token.firstLine (t :: ts) = t :: Token.firstLine ts := by
          simp [Token.firstLine, Token.line, Token.afterLine, stops]
        rw [first, List.getLast?_cons]
        cases (Token.firstLine ts).getLast? <;> rfl
      rw [last']
      cases comment : t.isComment <;>
        simp [stops, comment, Token.line, Token.afterLine, Token.behindLine, Token.uncommented]

section Lines

variable {ending behind : List Token}

theorem statement_bind_ok {r : Reader α} {f : α → Reader (List Step)} {c d : Cursor} {a : α} (read : r c = .ok (a, d)) :
    Reader.statement (r >>= f) c = Reader.statement (f a) d := by
  have run : (r >>= f) c = f a d := by
    change (r c).bind _ = _
    rw [read]
    rfl
  rw [Reader.statement, run, Reader.statement]

theorem statement_bind_error {r : Reader α} {f : α → Reader (List Step)} {c : Cursor} {e : Error}
    (failed : r c = .error e) : Reader.statement (r >>= f) c = .fail e := by
  have run : (r >>= f) c = .error e := by
    change (r c).bind _ = _
    rw [failed]
    rfl
  rw [Reader.statement, run]

variable (ends : EndsLine ending behind)
include ends

/-- A statement that stays in its line is read off the queue as it is read off the line. -/
theorem readsLine_statement {r : Reader (List Step)} (stays : Stays ending behind r) {c : Cursor}
    (inside : c.InLine ending) :
    ReadsLine behind (Reader.statement r c) (Reader.statementOn r (c.before behind)) := by
  obtain ⟨same, within⟩ := stays c inside
  unfold Reader.statement Reader.statementOn
  rw [same]
  cases read : r c with
  | error e => exact ⟨rfl, fun impossible => by cases impossible⟩
  | ok x =>
    obtain ⟨steps, d⟩ := x
    simp only [Except.map, endOfLine_before ends (within steps d read)]
    cases Reader.endOfLine d with
    | error e => exact ⟨rfl, fun impossible => by cases impossible⟩
    | ok y => exact ⟨rfl, fun _ => rfl⟩

theorem readsLine_definition (pos : Position) {c : Cursor} (inside : c.InLine ending) :
    ReadsLine behind (Reader.statement (Reader.directiveOperands pos .constantDefinition) c)
      (Reader.definitionOn pos (c.before behind)) := by
  obtain ⟨same, within⟩ := stays_word ends .constantName c inside
  unfold Reader.definitionOn
  rw [same]
  cases read : Reader.word .constantName c with
  | error e =>
    rw [Reader.directiveOperands, statement_bind_error read]
    exact ⟨rfl, fun impossible => by cases impossible⟩
  | ok x =>
    obtain ⟨name, d⟩ := x
    obtain ⟨body, inline, whole⟩ := within name d read
    have line : Token.line d.rest = body := by
      have front := ends.alone.line_append inline
      rwa [List.append_nil, ← whole] at front
    have after : Token.afterLine d.rest = ending := by
      have back := ends.alone.afterLine_append inline
      rwa [List.append_nil, ← whole] at back
    have ended (last : Position) : ∃ e, Reader.endOfLine ⟨ending, last⟩ = .ok ((), e) := by
      cases ends with
      | @separator stop stops behind =>
        rw [Comparison.endOfLine_uncommented (Token.isComment_of_isSeparator stops), if_pos stops]
        exact ⟨_, rfl⟩
      | last => exact ⟨_, rfl⟩
    have alone : Reader.statement (Reader.directiveOperands pos .constantDefinition) c =
        ⟨[.item { node := .constantRecord name.raw (Token.render (Token.uncommented body)), pos }], none⟩ := by
      rw [Reader.directiveOperands, statement_bind_ok read]
      simp only [Reader.statement, Reader.restOfLine, bind, StateT.bind, Except.bind, pure, StateT.pure, Except.pure,
        line, after]
      obtain ⟨e, run⟩ := ended ((body.getLast?.map Token.pos).getD d.last)
      rw [run]
    have queue : (d.before behind).rest = body ++ (ending ++ behind) := by
      rw [Cursor.before, whole, List.append_assoc]
    simp only [Except.map, takeLine_eq, queue, ends.line_append inline, Token.behindLine, ends.afterLine_append inline,
      ends.drop_one]
    exact ⟨alone.symm, fun _ => rfl⟩

theorem readsLine_directive (dot : Token) {c : Cursor} (inside : c.InLine ending) :
    ReadsLine behind (Reader.statement (Reader.directive dot) c) (Reader.directiveOn dot (c.before behind)) := by
  obtain ⟨same, within⟩ := stays_word ends .directiveName c inside
  unfold Reader.directiveOn Reader.directive
  rw [same]
  cases read : Reader.word .directiveName c with
  | error e =>
    rw [statement_bind_error read]
    exact ⟨rfl, fun impossible => by cases impossible⟩
  | ok x =>
    obtain ⟨name, d⟩ := x
    have later := within name d read
    rw [statement_bind_ok read]
    simp only [Except.map]
    cases directiveTable.lookup name.name with
    | none => exact ⟨rfl, fun impossible => by cases impossible⟩
    | some directive =>
      by_cases definition : directive = .constantDefinition
      · subst definition
        exact readsLine_definition ends dot.pos later
      · cases directive with
        | constantDefinition => exact absurd rfl definition
        | _ => exact readsLine_statement ends (stays_directiveOperands ends dot.pos definition) later

end Lines

/-- A statement is read off a queue as it is read off the first line. -/
theorem readsLine_firstLine {r : Reader (List Step)}
    (stays : ∀ ending behind, EndsLine ending behind → Stays ending behind r) (ts : List Token) (last : Position) :
    ReadsLine (Token.behindLine ts) (Reader.statement r ⟨Token.firstLine ts, last⟩)
      (Reader.statementOn r ⟨ts, last⟩) := by
  have ends := endsLine_firstLine ts
  have read := readsLine_statement ends (stays _ _ ends) (inLine_firstLine ts last)
  rwa [firstLine_before] at read

theorem readsLine_firstLine_directive (dot : Token) (ts : List Token) (last : Position) :
    ReadsLine (Token.behindLine ts) (Reader.statement (Reader.directive dot) ⟨Token.firstLine ts, last⟩)
      (Reader.directiveOn dot ⟨ts, last⟩) := by
  have read := readsLine_directive (endsLine_firstLine ts) dot (inLine_firstLine ts last)
  rwa [firstLine_before] at read

end Bisc
