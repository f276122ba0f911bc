import Bisc.Proofs.Comments
import Bisc.Proofs.OperandGrammar

/-!
The grammar of statements. A directive has a name and operands of its own kind, an instruction the
operands of its signature, and behind either there is the end of the line, maybe after a comment. A
statement is accepted exactly if its line is one of these, and gives the steps that the grammar
says.
-/
namespace Bisc

variable {α : Type}

/-! ## Lists with commas -/

/-- Items with exactly one comma between neighbours. -/
inductive CommaList (item : List Token → α → Prop) : List Token → List α → Prop
  | last {ts : List Token} {a : α} (shape : item ts a) : CommaList item ts [a]
  | cons {ts us : List Token} {comma : Token} {a : α} {as : List α} (shape : item ts a) (parted : comma.kind = .comma)
      (rest : CommaList item us as) : CommaList item (ts ++ comma :: us) (a :: as)

section CommaList

variable {item : List Token → α → Prop} {reader : Reader α}

theorem CommaList.length_le {ts : List Token} {as : List α} (listed : CommaList item ts as) :
    as.length ≤ ts.length + 1 := by
  induction listed with
  | last => simp
  | cons _ _ _ ih =>
    simp only [List.length_cons, List.length_append]
    omega

/-- What all items have, the list has that has commas besides. -/
theorem CommaList.forall {P : Token → Prop} (comma : ∀ t : Token, t.kind = .comma → P t)
    (each : ∀ ts a, item ts a → ∀ t ∈ ts, P t) {ts : List Token} {as : List α}
    (listed : CommaList item ts as) : ∀ t ∈ ts, P t := by
  induction listed with
  | last shape => exact each _ _ shape
  | cons shape parted _ ih =>
    exact List.forall_mem_append.mpr ⟨each _ _ shape, List.forall_mem_cons.mpr ⟨comma _ parted, ih⟩⟩

section Accepted

variable (accepts : ∀ {c c' a}, reader c = .ok (a, c') → ∃ ts, c.rest = ts ++ c'.rest ∧ item ts a)
include accepts

theorem moreItems_eq_ok {n : Nat} {c c' : Cursor} {as : List α} (read : Reader.moreItems reader n c = .ok (as, c')) :
    as = [] ∧ c' = c ∨ ∃ comma ts, c.rest = comma :: ts ++ c'.rest ∧ comma.kind = .comma ∧ CommaList item ts as := by
  induction n generalizing c as with
  | zero =>
    cases read
    exact .inl ⟨rfl, rfl⟩
  | succ n ih =>
    cases other : c.rest.head?.any fun t => t.kind = .comma with
    | false =>
      rw [Comparison.moreItems_stop other] at read
      cases read
      exact .inl ⟨rfl, rfl⟩
    | true =>
      obtain ⟨comma, us, whole⟩ : ∃ comma us, c.rest = comma :: us := by
        cases rest : c.rest with
        | nil => simp [rest] at other
        | cons comma us => exact ⟨comma, us, rfl⟩
      have parted : comma.kind = .comma := by simpa [whole] using other
      rw [Comparison.moreItems_comma whole parted] at read
      obtain ⟨⟨a, d⟩, first, read⟩ := bind_eq_ok.mp read
      obtain ⟨⟨as', d'⟩, others, same⟩ := bind_eq_ok.mp read
      cases same
      obtain ⟨ts, front, shape⟩ := accepts first
      dsimp only at front
      refine .inr ?_
      rcases ih others with ⟨rfl, rfl⟩ | ⟨comma', us', front', parted', listed⟩
      · refine ⟨comma, ts, ?_, parted, .last shape⟩
        rw [whole, front]
        rfl
      · refine ⟨comma, ts ++ comma' :: us', ?_, parted, .cons shape parted' listed⟩
        rw [whole, front, front']
        simp

/-- What is read as items with commas is such a list. -/
theorem commaSeparated_eq_ok {c c' : Cursor} {as : List α} (read : Reader.commaSeparated reader c = .ok (as, c')) :
    ∃ ts, c.rest = ts ++ c'.rest ∧ CommaList item ts as := by
  obtain ⟨a, d, first, read⟩ := reader_bind_eq_ok.mp read
  obtain ⟨e, d', here, read⟩ := reader_bind_eq_ok.mp read
  cases here
  obtain ⟨as', d'', others, same⟩ := reader_bind_eq_ok.mp read
  cases same
  obtain ⟨ts, front, shape⟩ := accepts first
  rcases moreItems_eq_ok accepts others with ⟨rfl, rfl⟩ | ⟨comma, us, front', parted, listed⟩
  · exact ⟨ts, front, .last shape⟩
  · refine ⟨ts ++ comma :: us, ?_, .cons shape parted listed⟩
    rw [front, front']
    simp

end Accepted

theorem follows_of_marked {rest : List Token} (marked : Marked rest) : Follows rest := by
  intro t head opened
  have mark := marked t head
  simp [opened, TokenKind.isMark] at mark

section Taken

variable (takes : ∀ {ts a}, item ts a → Takes reader ts a) {rest : List Token} (marked : Marked rest)
include takes marked

theorem moreItems_taken {ts : List Token} {as : List α} (listed : CommaList item ts as) {comma : Token}
    (parted : comma.kind = .comma)
    {n : Nat} (enough : as.length ≤ n) (last : Position) :
    ∃ last', Reader.moreItems reader n ⟨comma :: ts ++ rest, last⟩ = .ok (as, ⟨rest, last'⟩) := by
  induction listed generalizing comma n last with
  | last shape =>
    obtain ⟨m, rfl⟩ : ∃ m, n = m + 1 := ⟨n - 1, by rw [List.length_singleton] at enough; omega⟩
    obtain ⟨last', read⟩ := takes shape rest comma.pos (follows_of_marked marked)
    have stop : (rest.head?.any fun t => t.kind = .comma) = false :=
      Comparison.AtMark.next_is (c := ⟨rest, last'⟩) marked rfl
    refine ⟨last', ?_⟩
    rw [List.cons_append, Comparison.moreItems_comma rfl parted]
    exact bind_eq_ok.mpr ⟨_, read, bind_eq_ok.mpr ⟨_, Comparison.moreItems_stop stop, rfl⟩⟩
  | @cons ts us comma' a as shape parted' _ ih =>
    obtain ⟨m, rfl⟩ : ∃ m, n = m + 1 := ⟨n - 1, by rw [List.length_cons] at enough; omega⟩
    obtain ⟨last', read⟩ := takes shape (comma' :: us ++ rest) comma.pos (follows_cons (by simp [parted']) _)
    obtain ⟨last'', read'⟩ := ih parted' (n := m) (by rw [List.length_cons] at enough; omega) last'
    refine ⟨last'', ?_⟩
    rw [List.cons_append, List.append_assoc, Comparison.moreItems_comma rfl parted]
    exact bind_eq_ok.mpr ⟨_, read, bind_eq_ok.mpr ⟨_, read', rfl⟩⟩

/-- A list of items with commas is taken before the end of a line. -/
theorem commaSeparated_taken {ts : List Token} {as : List α} (listed : CommaList item ts as) (last : Position) :
    ∃ last', Reader.commaSeparated reader ⟨ts ++ rest, last⟩ = .ok (as, ⟨rest, last'⟩) := by
  cases listed with
  | last shape =>
    obtain ⟨last', read⟩ := takes shape rest last (follows_of_marked marked)
    have stop : (rest.head?.any fun t => t.kind = .comma) = false :=
      Comparison.AtMark.next_is (c := ⟨rest, last'⟩) marked rfl
    exact ⟨last', bind_eq_ok.mpr ⟨_, read, bind_eq_ok.mpr ⟨_, Comparison.moreItems_stop stop, rfl⟩⟩⟩
  | @cons ts us comma a as shape parted more =>
    have enough : as.length ≤ (comma :: us ++ rest).length := by
      have bound := more.length_le
      simp only [List.cons_append, List.length_cons, List.length_append]
      omega
    obtain ⟨last', read⟩ := takes shape (comma :: us ++ rest) last (follows_cons (by simp [parted]) _)
    obtain ⟨last'', read'⟩ := moreItems_taken takes marked more parted enough last'
    refine ⟨last'', ?_⟩
    rw [List.append_assoc]
    exact bind_eq_ok.mpr ⟨_, read, bind_eq_ok.mpr ⟨_, read', rfl⟩⟩

end Taken
end CommaList

/-! ## Directives -/

/-- A word and its spelling. -/
def IsWordText (ts : List Token) (raw : String) : Prop := ∃ t : Token, ts = [t] ∧ t.isWord ∧ raw = t.raw

/-- The operands of a directive whose dot is at `pos`, with the steps that it gives. -/
inductive DirectiveOperands (pos : Position) : Directive → List Token → List Step → Prop
  | standardSection {name : String} : DirectiveOperands pos (.standardSection name) [] [.newSection name pos]
  | plainSection {name : Token}
      (word : name.isWord) : DirectiveOperands pos .namedSection [name] [.newSection name.raw pos]
  | dottedSection {dot name : Token} (dotted : dot.kind = .directive) (word : name.isWord) :
      DirectiveOperands pos .namedSection [dot, name] [.newSection ("." ++ name.raw) pos]
  | constantDefinition {name : Token} {value : List Token} (word : name.isWord)
      (inline : ∀ t ∈ value, t.isSeparator = false) :
      DirectiveOperands pos .constantDefinition (name :: value)
        [.item { node := .constantRecord name.raw (Token.render (Token.uncommented value)), pos }]
  | macroHeader {name : Token} (word : name.isWord) :
      DirectiveOperands pos .macroHeader [name] [.item { node := .macroRecord name.raw [], pos }]
  | macroParameters {name : Token} {ts : List Token} {params : List String} (word : name.isWord)
      (listed : CommaList IsWordText ts params) :
      DirectiveOperands pos .macroHeader (name :: ts) [.item { node := .macroRecord name.raw params, pos }]
  | macroEnd : DirectiveOperands pos .macroEnd [] []
  | values {width : Width} {ts : List Token} {cs : List Constant}
      (listed : CommaList (fun ts c => IsConstant ts (.ok c)) ts cs) :
      DirectiveOperands pos (.values width) ts [.item { node := .data (.values width cs), pos }]
  | zeros {t : Token} (kind : t.kind = .immediate) :
      DirectiveOperands pos .zeros [t] [.item { node := .data (.zeros t.number), pos }]
  | text {t : Token} {terminated : Bool} {body : List Char} {bytes : List UInt8} (kind : t.kind = .stringLiteral)
      (quoted : t.literalBody? = some body) (unescaped : Text.unescape body = .ok bytes) :
      DirectiveOperands pos (.text terminated) [t]
        [.item { node := .data (.bytes (if terminated then bytes ++ [0] else bytes)), pos }]

theorem wordText_eq_ok {what : Expected} {c c' : Cursor} {raw : String}
    (read : (do return (← Reader.word what).raw : Reader String) c = .ok (raw, c')) :
    ∃ ts, c.rest = ts ++ c'.rest ∧ IsWordText ts raw := by
  obtain ⟨t, d, taken, same⟩ := reader_bind_eq_ok.mp read
  cases same
  obtain ⟨front, word⟩ := word_eq_ok taken
  exact ⟨[t], front, t, rfl, word, rfl⟩

theorem takes_wordText (what : Expected) {ts : List Token} {raw : String} (text : IsWordText ts raw) :
    Takes (do return (← Reader.word what).raw : Reader String) ts raw := by
  obtain ⟨t, rfl, word, rfl⟩ := text
  exact fun rest last _ => ⟨t.pos, reader_bind_eq_ok.mpr ⟨t, _, word_found word what rest last, rfl⟩⟩

/-- What is read as the operands of a directive are operands of it. -/
theorem directiveOperands_eq_ok {pos : Position} {d : Directive} {c c' : Cursor} {ss : List Step}
    (read : Reader.directiveOperands pos d c = .ok (ss, c')) :
    ∃ ts, c.rest = ts ++ c'.rest ∧ DirectiveOperands pos d ts ss := by
  cases d with
  | standardSection name =>
    cases read
    exact ⟨[], rfl, .standardSection⟩
  | namedSection =>
    obtain ⟨name, d, named, same⟩ := reader_bind_eq_ok.mp read
    cases same
    obtain ⟨dotted, d', here, named⟩ := reader_bind_eq_ok.mp named
    cases here
    split at named
    · rename_i dotted
      obtain ⟨dot, d₁, next, named⟩ := reader_bind_eq_ok.mp named
      obtain ⟨t, d₂, taken, same⟩ := reader_bind_eq_ok.mp named
      cases same
      obtain ⟨front, word⟩ := word_eq_ok taken
      have whole := next_eq_ok next
      refine ⟨[dot, t], by rw [whole, front]; rfl, .dottedSection ?_ word⟩
      simpa [whole] using dotted
    · obtain ⟨ts, front, t, rfl, word, rfl⟩ := wordText_eq_ok named
      exact ⟨[t], front, .plainSection word⟩
  | constantDefinition =>
    obtain ⟨name, d, taken, read⟩ := reader_bind_eq_ok.mp read
    obtain ⟨value, d', rest, same⟩ := reader_bind_eq_ok.mp read
    cases same
    cases rest
    obtain ⟨front, word⟩ := word_eq_ok taken
    refine ⟨name :: Token.line d.rest, ?_, .constantDefinition word fun t member =>
      by simpa using List.mem_takeWhile_imp member⟩
    rw [front, List.cons_append, Token.line_append_afterLine]
  | macroHeader =>
    obtain ⟨name, d, taken, read⟩ := reader_bind_eq_ok.mp read
    obtain ⟨params, d', listed, same⟩ := reader_bind_eq_ok.mp read
    cases same
    obtain ⟨front, word⟩ := word_eq_ok taken
    unfold Reader.parameters at listed
    split at listed
    · obtain ⟨ts, front', listed⟩ := commaSeparated_eq_ok wordText_eq_ok listed
      refine ⟨name :: ts, ?_, .macroParameters word listed⟩
      rw [front, front', List.cons_append]
    · cases listed
      exact ⟨[name], front, .macroHeader word⟩
  | macroEnd =>
    cases read
    exact ⟨[], rfl, .macroEnd⟩
  | values width =>
    obtain ⟨cs, d, listed, same⟩ := reader_bind_eq_ok.mp read
    cases same
    obtain ⟨ts, front, listed⟩ := commaSeparated_eq_ok constant_eq_ok listed
    exact ⟨ts, front, .values listed⟩
  | zeros =>
    obtain ⟨t, d, taken, same⟩ := reader_bind_eq_ok.mp read
    cases same
    obtain ⟨front, kind⟩ := expect_eq_ok taken
    exact ⟨[t], front, .zeros kind⟩
  | text terminated =>
    obtain ⟨bytes, d, taken, same⟩ := reader_bind_eq_ok.mp read
    cases same
    obtain ⟨t, d', literal, unescaped⟩ := reader_bind_eq_ok.mp taken
    obtain ⟨front, kind⟩ := expect_eq_ok literal
    cases quoted : t.literalBody? with
    | none =>
      rw [quoted] at unescaped
      cases unescaped
    | some body =>
      rw [quoted] at unescaped
      cases decoded : Text.unescape body with
      | ok bytes' =>
        simp only [decoded] at unescaped
        cases unescaped
        exact ⟨[t], front, .text kind quoted decoded⟩
      | error escape =>
        simp only [decoded] at unescaped
        cases unescaped

theorem Token.kind_ne_of_isWord {t : Token} (word : t.isWord) {kind : TokenKind}
    (other : kind.isWord = false) : t.kind ≠ kind := by
  intro same
  rw [Token.isWord, same, other] at word
  cases word

/-- The parameters of a macro are taken before the end of the line. -/
theorem parameters_taken {ts : List Token} {params : List String}
    (listed : CommaList IsWordText ts params) {rest : List Token}
    (marked : Marked rest) (last : Position) :
    ∃ last', Reader.parameters ⟨ts ++ rest, last⟩ = .ok (params, ⟨rest, last'⟩) := by
  have begins : (ts ++ rest).head?.any Token.isWord := by
    cases listed with
    | last shape =>
      obtain ⟨t, rfl, word, -⟩ := shape
      simpa using word
    | cons shape =>
      obtain ⟨t, rfl, word, -⟩ := shape
      simpa using word
  rw [Reader.parameters, if_pos begins]
  exact commaSeparated_taken (takes_wordText _) marked listed last

theorem parameters_none {rest : List Token} (marked : Marked rest) (last : Position) :
    Reader.parameters ⟨rest, last⟩ = .ok ([], ⟨rest, last⟩) := by
  have none : (rest.head?.any Token.isWord) = false :=
    Comparison.AtMark.head_any (c := ⟨rest, last⟩) marked fun t mark => Token.isWord_of_isMark mark
  rw [Reader.parameters, if_neg (by simp [none])]

theorem unmarked_uncommented {ts : List Token} (inline : ∀ t ∈ ts, t.isSeparator = false) :
    ∀ t ∈ Token.uncommented ts, t.kind.isMark = false := by
  intro t member
  obtain ⟨inside, plain⟩ := List.mem_filter.mp member
  by_contra mark
  rcases isMark_iff.mp (by simpa using mark) with comment | separator
  · simp [comment] at plain
  · simp [inline t inside] at separator

theorem lineStop_afterLine (ts : List Token) : ∃ behind, LineStop (Token.afterLine ts) behind := by
  cases after : Token.afterLine ts with
  | nil => exact ⟨[], .ended⟩
  | cons stop us => exact ⟨us, .separator (Token.afterLine_head after)⟩

theorem LineStop.take {rest behind : List Token} (stop : LineStop rest behind) : LineStop (rest.take 1) [] := by
  cases stop with
  | ended => exact .ended
  | separator ends => exact .separator ends

theorem line_of_stop {ts rest behind : List Token} (inline : ∀ t ∈ ts, t.isSeparator = false)
    (stop : LineStop rest behind) :
    Token.line (ts ++ rest) = ts ∧ Token.afterLine (ts ++ rest) = rest := by
  have inline' : ∀ t ∈ ts, (!t.isSeparator) = true := fun t member => by simp [inline t member]
  rw [Token.line, Token.afterLine, List.takeWhile_append_of_pos inline', List.dropWhile_append_of_pos inline']
  cases stop with
  | ended => simp
  | separator ends => simp [ends]

/-- Of the end of a line, what is before the separator is a comment at most. -/
theorem LineEnd.afterLine {rest behind : List Token} (ends : LineEnd rest behind) :
    Token.uncommented (Token.line rest) = [] ∧ LineEnd (Token.afterLine rest) behind := by
  have stopped {rest : List Token} (stop : LineStop rest behind) :
      Token.line rest = [] ∧ Token.afterLine rest = rest := by
    cases stop with
    | ended => exact ⟨rfl, rfl⟩
    | separator ends => simp [Token.line, Token.afterLine, ends]
  cases ends with
  | plain stop =>
    obtain ⟨line, after⟩ := stopped stop
    rw [line, after]
    exact ⟨rfl, .plain stop⟩
  | @commented t rest _ comment stop =>
    obtain ⟨line, after⟩ := stopped stop
    have inside : t.isSeparator = false := Token.isSeparator_of_isComment comment
    have line' : Token.line (t :: rest) = [t] := by
      rw [Token.line, List.takeWhile_cons_of_pos (by simp [inside])]
      exact congrArg (t :: ·) line
    have after' : Token.afterLine (t :: rest) = rest := by
      rw [Token.afterLine, List.dropWhile_cons_of_pos (by simp [inside])]
      exact after
    rw [line', after']
    exact ⟨Token.uncommented_comment comment [], .plain stop⟩

/-- The operands of a directive are read before the end of the line; a definition takes a comment
    there with its value. -/
theorem directiveOperands_taken {pos : Position} {d : Directive} {ts : List Token} {ss : List Step}
    (operands : DirectiveOperands pos d ts ss) {rest behind : List Token}
    (ends : LineEnd rest behind) (last : Position) :
    ∃ rest' last', Reader.directiveOperands pos d ⟨ts ++ rest, last⟩ = .ok (ss, ⟨rest', last'⟩) ∧
    LineEnd rest' behind := by
  have marked := marked_of_lineEnd ends
  cases operands with
  | standardSection => exact ⟨rest, last, rfl, ends⟩
  | @plainSection name word =>
    have other : decide (name.kind = .directive) = false := decide_eq_false (Token.kind_ne_of_isWord word rfl)
    have next : Reader.nextIs .directive ⟨name :: rest, last⟩ = .ok (false, ⟨name :: rest, last⟩) := by
      simp [Reader.nextIs, other]
    have read : Reader.sectionName ⟨name :: rest, last⟩ = .ok (name.raw, ⟨rest, name.pos⟩) :=
      reader_bind_eq_ok.mpr ⟨_, _, next, reader_bind_eq_ok.mpr ⟨name, _, word_found word _ rest last, rfl⟩⟩
    exact ⟨rest, name.pos, reader_bind_eq_ok.mpr ⟨_, _, read, rfl⟩, ends⟩
  | @dottedSection dot name dotted word =>
    have next : Reader.nextIs .directive ⟨dot :: name :: rest, last⟩ = .ok (true, ⟨dot :: name :: rest, last⟩) := by
      simp [Reader.nextIs, dotted]
    have named := word_found word .sectionName rest dot.pos
    have read : Reader.sectionName ⟨dot :: name :: rest, last⟩ = .ok ("." ++ name.raw, ⟨rest, name.pos⟩) :=
      reader_bind_eq_ok.mpr ⟨_, _, next,
        reader_bind_eq_ok.mpr ⟨dot, _, rfl, reader_bind_eq_ok.mpr ⟨name, _, named, rfl⟩⟩⟩
    exact ⟨rest, name.pos, reader_bind_eq_ok.mpr ⟨_, _, read, rfl⟩, ends⟩
  | @constantDefinition name value word inline =>
    obtain ⟨bare, ends'⟩ := ends.afterLine
    have inline' : ∀ t ∈ value, (!t.isSeparator) = true := fun t member => by simp [inline t member]
    have line : Token.line (value ++ rest) = value ++ Token.line rest := List.takeWhile_append_of_pos inline'
    have after : Token.afterLine (value ++ rest) = Token.afterLine rest := List.dropWhile_append_of_pos inline'
    have whole : Token.uncommented (Token.line (value ++ rest)) = Token.uncommented value := by
      rw [line, Token.uncommented_append, bare, List.append_nil]
    rw [← after] at ends'
    rw [← whole]
    exact ⟨_, _, reader_bind_eq_ok.mpr ⟨name, _, word_found word _ _ last,
      reader_bind_eq_ok.mpr ⟨_, _, rfl, rfl⟩⟩, ends'⟩
  | @macroHeader name word =>
    have read := word_found word .macroName rest last
    exact ⟨rest, name.pos, reader_bind_eq_ok.mpr ⟨_, _, read,
      reader_bind_eq_ok.mpr ⟨_, _, parameters_none marked _, rfl⟩⟩, ends⟩
  | @macroParameters name ts params word listed =>
    obtain ⟨last', read⟩ := parameters_taken listed marked name.pos
    have named := word_found word .macroName (ts ++ rest) last
    exact ⟨rest, last', reader_bind_eq_ok.mpr ⟨name, _, named, reader_bind_eq_ok.mpr ⟨_, _, read, rfl⟩⟩, ends⟩
  | macroEnd => exact ⟨rest, last, rfl, ends⟩
  | values listed =>
    obtain ⟨last', read⟩ := commaSeparated_taken takes_constant marked listed last
    exact ⟨rest, last', reader_bind_eq_ok.mpr ⟨_, _, read, rfl⟩, ends⟩
  | @zeros t kind => exact ⟨rest, t.pos, reader_bind_eq_ok.mpr ⟨_, _, expect_found kind rest last, rfl⟩, ends⟩
  | @text t terminated body bytes kind quoted unescaped =>
    have literal : Reader.stringBytes ⟨t :: rest, last⟩ = .ok (bytes, ⟨rest, t.pos⟩) := by
      refine reader_bind_eq_ok.mpr ⟨t, _, expect_found kind rest last, ?_⟩
      simp only [quoted, unescaped]
      rfl
    exact ⟨rest, t.pos, reader_bind_eq_ok.mpr ⟨_, _, literal, rfl⟩, ends⟩

/-! ## Statements -/

theorem lineEnd_of_endOfLine {c c' : Cursor} (read : Reader.endOfLine c = .ok ((), c')) : LineEnd c.rest c'.rest := by
  obtain ⟨rest, last⟩ := c
  have stopped {t : Token} {ts : List Token}
      (read : (if t.isSeparator then .ok ((), ⟨ts, t.pos⟩) else .error (t.refused (.token .lineSeparator))) =
        (.ok ((), c') : Except Error (Unit × Cursor))) : LineStop (t :: ts) c'.rest := by
    split at read
    · rename_i ends
      cases read
      exact .separator ends
    · cases read
  cases rest with
  | nil =>
    cases read
    exact .plain .ended
  | cons t ts =>
    by_cases comment : t.isComment
    · refine .commented comment ?_
      cases ts with
      | nil =>
        simp only [Reader.endOfLine, comment, if_true] at read
        cases read
        exact .ended
      | cons u us => exact stopped (by rwa [Comparison.endOfLine_commented comment] at read)
    · exact .plain (stopped (by rwa [Comparison.endOfLine_uncommented (by simpa using comment)] at read))

/-- A statement succeeds with what its reader gives, where the end of the line is next. -/
theorem statement_eq_done {r : Reader (List Step)} {c : Cursor} {ss : List Step} :
    Reader.statement r c = ⟨ss, none⟩ ↔ ∃ c' behind, r c = .ok (ss, c') ∧ LineEnd c'.rest behind := by
  unfold Reader.statement
  constructor
  · intro done
    split at done
    · cases done
    · rename_i steps c' read
      split at done
      · cases done
      · rename_i c'' stopped
        cases done
        exact ⟨c', _, read, lineEnd_of_endOfLine stopped⟩
  · rintro ⟨⟨rest, last⟩, behind, read, ends⟩
    obtain ⟨last', stopped⟩ := endOfLine_taken ends last
    rw [read]
    dsimp only
    rw [stopped]

theorem readLine_directive {isa : InstructionSet} {readLines : List Token → Run Step} {dot : Token}
    (dotted : dot.kind = .directive)
    (rest : List Token) : readLine isa readLines (dot :: rest) = Reader.statement (Reader.directive dot)
      ⟨rest, dot.pos⟩ := by
  rw [readLine.eq_def]
  simp only [dotted]

/-- Directives are read by their grammar. -/
theorem statement_directive_iff {dot : Token} {c : Cursor} {ss : List Step} :
    Reader.statement (Reader.directive dot) c = ⟨ss, none⟩ ↔
    ∃ name d ts rest behind, c.rest = name :: (ts ++ rest) ∧ name.isWord ∧
      directiveTable.lookup name.name = some d ∧ DirectiveOperands dot.pos d ts ss ∧ LineEnd rest behind := by
  rw [statement_eq_done]
  constructor
  · rintro ⟨c', behind, read, ends⟩
    obtain ⟨name, c₁, taken, read⟩ := reader_bind_eq_ok.mp read
    obtain ⟨front, word⟩ := word_eq_ok taken
    cases known : directiveTable.lookup name.name with
    | none =>
      rw [known] at read
      cases read
    | some d =>
      rw [known] at read
      obtain ⟨ts, front', operands⟩ := directiveOperands_eq_ok read
      exact ⟨name, d, ts, c'.rest, behind, by rw [front, front'], word, known, operands, ends⟩
  · rintro ⟨name, d, ts, rest, behind, whole, word, known, operands, ends⟩
    obtain ⟨rest', last, read, ends'⟩ := directiveOperands_taken operands ends name.pos
    obtain ⟨_, last'⟩ := c
    cases whole
    refine ⟨⟨rest', last⟩, behind, reader_bind_eq_ok.mpr ⟨name, _, word_found word _ _ last', ?_⟩, ends'⟩
    rw [known]
    exact read

/-- Operands are known by their format and their values. -/
theorem Operands.eq_of_values {o o' : Operands} (format : o.format = o'.format)
    (values : o.values = o'.values) : o = o' := by
  cases o <;> cases o' <;> simp_all [Operands.format, Operands.values]

/-- Instructions are read by the grammar of their operands. -/
theorem statement_instruction_iff {isa : InstructionSet} {t : Token} {c : Cursor} {ss : List Step} :
    Reader.statement (instructionStep isa t) c = ⟨ss, none⟩ ↔ ∃ op o ts parts rest behind, c.rest = ts ++ rest ∧
      isa.opcode? t.name = some op ∧ o.format = op.format ∧
      Listed IsConstant op.format.signature ts parts (o.values.map .ok) ∧
      LineEnd rest behind ∧ ss = [.item { node := .instruction ⟨op.code, o⟩, pos := t.pos }] := by
  rw [statement_eq_done]
  constructor
  · rintro ⟨c', behind, read, ends⟩
    obtain ⟨i, c₁, instruction, same⟩ := reader_bind_eq_ok.mp read
    cases same
    unfold Reader.instruction at instruction
    cases known : isa.opcode? t.name with
    | none =>
      rw [known] at instruction
      cases instruction
    | some op =>
      rw [known] at instruction
      obtain ⟨o, c₂, operands, same⟩ := reader_bind_eq_ok.mp instruction
      cases same
      obtain ⟨format, signature⟩ := signature_of_operands operands
      obtain ⟨ts, parts, front, listed⟩ := signatureReader_eq_ok signature
      exact ⟨op, o, ts, parts, _, behind, front, rfl, format, listed, ends, rfl⟩
  · rintro ⟨op, o, ts, parts, rest, behind, whole, known, format, listed, ends, rfl⟩
    obtain ⟨_, last⟩ := c
    cases whole
    obtain ⟨last', read⟩ := takes_signature listed rest last (follows_of_marked (marked_of_lineEnd ends))
    obtain ⟨o', operands, valued⟩ := operands_of_signature read
    have same : o' = o := Operands.eq_of_values ((signature_of_operands operands).1.trans format.symm) valued
    rw [same] at operands
    have instruction : Reader.instruction isa t ⟨ts ++ rest, last⟩ = .ok (⟨op.code, o⟩, ⟨rest, last'⟩) := by
      unfold Reader.instruction
      rw [known]
      exact reader_bind_eq_ok.mpr ⟨o, _, operands, rfl⟩
    exact ⟨_, behind, reader_bind_eq_ok.mpr ⟨_, _, instruction, rfl⟩, ends⟩

end Bisc
