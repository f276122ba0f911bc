import Bisc.Proofs.Operands
import Bisc.Proofs.Readers

/-!
The grammar of operands. A signature is a list of kinds, and the operands of a signature stand one
after the other with a comma between neighbours. The grammar says which token lists these are and
what each operand is, for any language of immediates; the readers of the formats, which know nothing
of signatures, take exactly the operands of the signature of their format.
-/
namespace Bisc

variable {α β : Type}

/-! ## The grammar -/

/-- The token lists of constants: immediates, and halves of them. The name of a half may be spelled in any case. -/
inductive IsConstant : List Token → Except RangeFault Constant → Prop
  | plain {ts : List Token} {value : Except RangeFault Constant} (shape : IsImmediate ts value) : IsConstant ts value
  | lo {dot half : Token} {ts : List Token} {value : Except RangeFault Constant} (dotted : dot.kind = .directive)
      (word : half.isWord) (named : half.name = "lo") (shape : IsImmediate ts value) :
      IsConstant (dot :: half :: ts) (value.map (.part · .lo))
  | hi {dot half : Token} {ts : List Token} {value : Except RangeFault Constant} (dotted : dot.kind = .directive)
      (word : half.isWord) (named : half.name = "hi") (shape : IsImmediate ts value) :
      IsConstant (dot :: half :: ts) (value.map (.part · .hi))

section Grammar

variable (immediate : List Token → Except RangeFault Constant → Prop)

/-- The token lists of an operand of a kind, with what the operand is or what is wrong with its slice. -/
inductive IsOperand : OperandKind → List Token → Except RangeFault Operand → Prop
  | register {t : Token} (kind : t.kind = .register) : IsOperand .register [t] (.ok (.register t.number.toUInt8))
  | immediate {ts : List Token} {value : Except RangeFault Constant} (shape : immediate ts value) :
      IsOperand .immediate ts (value.map .constant)
  | memory {base left right : Token} {ts : List Token} {value : Except RangeFault Constant}
      (register : base.kind = .register)
      (opened : left.kind = .leftBracket) (shape : immediate ts value) (closed : right.kind = .rightBracket) :
      IsOperand .memory (base :: left :: (ts ++ [right])) (value.map (.memory base.number.toUInt8))

/-- Operands of kinds with exactly one comma between neighbours: the tokens of all, the tokens of
    each, and what each is. -/
inductive Listed : List OperandKind → List Token → List (List Token) → List (Except RangeFault Operand) → Prop
  | nil : Listed [] [] [] []
  | last {kind : OperandKind} {ts : List Token} {value : Except RangeFault Operand}
      (operand : IsOperand immediate kind ts value) : Listed [kind] ts [ts] [value]
  | cons {kind next : OperandKind} {kinds : List OperandKind} {ts us : List Token} {comma : Token} {parts : List
      (List Token)}
      {value : Except RangeFault Operand} {values : List (Except RangeFault Operand)}
      (operand : IsOperand immediate kind ts value) (parted : comma.kind = .comma)
      (rest : Listed (next :: kinds) us parts values) :
      Listed (kind :: next :: kinds) (ts ++ comma :: us) (ts :: parts) (value :: values)

end Grammar

/-- The values of operands, in the order of the source. -/
def Operands.values : Operands → List Operand
  | bare => []
  | reg r => [.register r]
  | regImm r imm => [.register r, .constant imm]
  | regMem dst base offset => [.register dst, .memory base offset]
  | regReg dst src => [.register dst, .register src]
  | regRegReg dst src₁ src₂ => [.register dst, .register src₁, .register src₂]

/-! ## What readers accept -/

theorem reader_bind_eq_ok {r : Reader α} {f : α → Reader β} {c c' : Cursor} {b : β} :
    (r >>= f) c = .ok (b, c') ↔ ∃ a d, r c = .ok (a, d) ∧ f a d = .ok (b, c') := by
  have run : (r >>= f) c = r c >>= fun x => f x.1 x.2 := rfl
  rw [run, bind_eq_ok]
  exact Prod.exists

theorem next_eq_ok {what : Expected} {c c' : Cursor} {t : Token} (read : Reader.next what c = .ok (t, c')) :
    c.rest = t :: c'.rest := by
  obtain ⟨rest, last⟩ := c
  cases rest with
  | nil => cases read
  | cons u us =>
    cases read
    rfl

/-- A token that passed a test was next. -/
theorem passing_eq_ok {what : Expected} {test : Token → Prop} [DecidablePred test] {c c' : Cursor} {t : Token}
    (read : (do
      let t ← Reader.next what
      if test t then return t else throw (t.refused what) : Reader Token) c = .ok (t, c')) :
    c.rest = t :: c'.rest ∧ test t := by
  obtain ⟨u, d, next, read⟩ := reader_bind_eq_ok.mp read
  by_cases passes : test u
  · rw [if_pos passes] at read
    cases read
    exact ⟨next_eq_ok next, passes⟩
  · rw [if_neg passes] at read
    cases read

theorem expect_eq_ok {kind : TokenKind} {c c' : Cursor} {t : Token} (read : Reader.expect kind c = .ok (t, c')) :
    c.rest = t :: c'.rest ∧ t.kind = kind := passing_eq_ok read

theorem word_eq_ok {what : Expected} {c c' : Cursor} {t : Token} (read : Reader.word what c = .ok (t, c')) :
    c.rest = t :: c'.rest ∧ t.isWord := passing_eq_ok read

theorem register_eq_ok {c c' : Cursor} {index : UInt8} (read : Reader.register c = .ok (index, c')) :
    ∃ t, c.rest = t :: c'.rest ∧ t.kind = .register ∧ index = t.number.toUInt8 := by
  obtain ⟨t, d, taken, same⟩ := reader_bind_eq_ok.mp read
  cases same
  obtain ⟨front, kind⟩ := expect_eq_ok taken
  exact ⟨t, front, kind, rfl⟩

theorem slice_eq_ok {symbol : Token} (kind : symbol.kind = .identifier) {c c' : Cursor} {value : Constant}
    (read : Reader.slice symbol c = .ok (value, c')) :
    ∃ ts, c.rest = ts ++ c'.rest ∧ IsImmediate (symbol :: ts) (.ok value) := by
  obtain ⟨left, d₁, opened, read⟩ := reader_bind_eq_ok.mp read
  obtain ⟨first, d₂, low, read⟩ := reader_bind_eq_ok.mp read
  obtain ⟨colon, d₃, parted, read⟩ := reader_bind_eq_ok.mp read
  obtain ⟨last, d₄, high, read⟩ := reader_bind_eq_ok.mp read
  obtain ⟨right, d₅, closed, read⟩ := reader_bind_eq_ok.mp read
  obtain ⟨front₁, opened⟩ := expect_eq_ok opened
  obtain ⟨front₂, low⟩ := expect_eq_ok low
  obtain ⟨front₃, parted⟩ := expect_eq_ok parted
  obtain ⟨front₄, high⟩ := expect_eq_ok high
  obtain ⟨front₅, closed⟩ := expect_eq_ok closed
  have shape := IsImmediate.slice kind opened low parted high closed
  by_cases wide : first.number > last.number ∨ last.number > 3 ∨ last.number.toNat - first.number.toNat > 1
  · simp only [if_pos wide] at read
    cases read
  · simp only [if_neg wide] at read
    cases read
    rw [sliceOf, if_neg wide] at shape
    refine ⟨[left, first, colon, last, right], ?_, shape⟩
    rw [front₁, front₂, front₃, front₄, front₅]
    rfl

theorem plainConstant_eq_ok {what : Expected} {t : Token} {c c' : Cursor} {value : Constant}
    (read : Reader.plainConstant what t c = .ok (value, c')) :
    ∃ ts, c.rest = ts ++ c'.rest ∧ IsImmediate (t :: ts) (.ok value) := by
  unfold Reader.plainConstant at read
  cases kind : t.kind with
  | immediate =>
    rw [kind] at read
    cases read
    exact ⟨[], rfl, .number kind⟩
  | identifier =>
    rw [kind] at read
    obtain ⟨sliced, d, next, read⟩ := reader_bind_eq_ok.mp read
    cases next
    split at read
    · exact slice_eq_ok kind read
    · cases read
      exact ⟨[], rfl, .symbol kind⟩
  | _ =>
    rw [kind] at read
    cases read

theorem halfSelector_eq_ok {t : Token} {c c' : Cursor} {selector : Selector}
    (read : (Reader.halfSelector t : Reader Selector) c = .ok (selector, c')) :
    c' = c ∧ (t.name = "lo" ∧ selector = .lo ∨ t.name = "hi" ∧ selector = .hi) := by
  unfold Reader.halfSelector at read
  by_cases lower : t.name = "lo"
  · rw [if_pos lower] at read
    cases read
    exact ⟨rfl, .inl ⟨lower, rfl⟩⟩
  · by_cases upper : t.name = "hi"
    · rw [if_neg lower, if_pos upper] at read
      cases read
      exact ⟨rfl, .inr ⟨upper, rfl⟩⟩
    · rw [if_neg lower, if_neg upper] at read
      cases read

/-- What is read as a constant is one. -/
theorem constant_eq_ok {c c' : Cursor} {value : Constant} (read : Reader.constant c = .ok (value, c')) :
    ∃ ts, c.rest = ts ++ c'.rest ∧ IsConstant ts (.ok value) := by
  obtain ⟨t, d, next, read⟩ := reader_bind_eq_ok.mp read
  have front := next_eq_ok next
  by_cases dotted : t.kind = .directive
  · rw [if_pos dotted] at read
    obtain ⟨half, d₁, named, read⟩ := reader_bind_eq_ok.mp read
    obtain ⟨selector, d₂, selected, read⟩ := reader_bind_eq_ok.mp read
    obtain ⟨u, d₃, next, read⟩ := reader_bind_eq_ok.mp read
    obtain ⟨inner, d₄, plain, same⟩ := reader_bind_eq_ok.mp read
    cases same
    obtain ⟨front₁, word⟩ := word_eq_ok named
    obtain ⟨rfl, half_or⟩ := halfSelector_eq_ok selected
    obtain ⟨ts, front₂, shape⟩ := plainConstant_eq_ok plain
    refine ⟨t :: half :: u :: ts, ?_, ?_⟩
    · rw [front, front₁, next_eq_ok next, front₂]
      rfl
    · rcases half_or with ⟨lower, rfl⟩ | ⟨upper, rfl⟩
      · exact .lo dotted word lower shape
      · exact .hi dotted word upper shape
  · rw [if_neg dotted] at read
    obtain ⟨ts, front₁, shape⟩ := plainConstant_eq_ok read
    refine ⟨t :: ts, ?_, .plain shape⟩
    rw [front, front₁]
    rfl

/-! ## What readers take -/

theorem takes_register {t : Token} (kind : t.kind = .register) : Takes Reader.register [t] t.number.toUInt8 := by
  intro rest last _
  exact ⟨t.pos, register_found kind rest last⟩

theorem takes_pure (a : α) : Takes (pure a : Reader α) [] a := by
  intro rest last _
  exact ⟨last, rfl⟩

theorem Takes.map {r : Reader α} {ts : List Token} {a : α} (takes : Takes r ts a) (f : α → β) :
    Takes (do return f (← r)) ts (f a) := by
  have all : Takes (r >>= fun x => pure (f x)) (ts ++ []) (f a) := takes.bind (takes_pure (f a)) follows_nil
  rwa [List.append_nil] at all

/-- A constant is read as what it is. -/
theorem takes_constant {ts : List Token} {value : Constant} (shape : IsConstant ts (.ok value)) :
    Takes Reader.constant ts value := by
  intro rest last follows
  generalize result : Except.ok value = found at shape
  cases shape with
  | plain shape =>
    obtain ⟨t, -, u, -, read⟩ := constant_immediate shape follows last
    refine ⟨u.pos, ?_⟩
    rw [read, ← result]
    rfl
  | lo dotted word named shape =>
    obtain ⟨t, -, u, -, read⟩ := constant_half dotted word (if_pos named) shape follows last
    refine ⟨u.pos, ?_⟩
    rw [read, ← result]
    rfl
  | hi dotted word named shape =>
    have selects : Reader.halfSelector _ = .ok .hi := (if_neg (by rw [named]; decide)).trans (if_pos named)
    obtain ⟨t, -, u, -, read⟩ := constant_half dotted word selects shape follows last
    refine ⟨u.pos, ?_⟩
    rw [read, ← result]
    rfl

/-! ## Operands -/

/-- What is read as an operand of a kind is one. -/
theorem operandReader_eq_ok {kind : OperandKind} {c c' : Cursor} {operand : Operand}
    (read : kind.reader c = .ok (operand, c')) :
    ∃ ts, c.rest = ts ++ c'.rest ∧ IsOperand IsConstant kind ts (.ok operand) := by
  cases kind with
  | register =>
    obtain ⟨index, d, taken, same⟩ := reader_bind_eq_ok.mp read
    cases same
    obtain ⟨t, front, kind, rfl⟩ := register_eq_ok taken
    exact ⟨[t], front, .register kind⟩
  | immediate =>
    obtain ⟨value, d, taken, same⟩ := reader_bind_eq_ok.mp read
    cases same
    obtain ⟨ts, front, shape⟩ := constant_eq_ok taken
    exact ⟨ts, front, .immediate shape⟩
  | memory =>
    obtain ⟨index, d₁, taken, read⟩ := reader_bind_eq_ok.mp read
    obtain ⟨left, d₂, opened, read⟩ := reader_bind_eq_ok.mp read
    obtain ⟨value, d₃, offset, read⟩ := reader_bind_eq_ok.mp read
    obtain ⟨right, d₄, closed, same⟩ := reader_bind_eq_ok.mp read
    cases same
    obtain ⟨base, front₁, kind, rfl⟩ := register_eq_ok taken
    obtain ⟨front₂, opened⟩ := expect_eq_ok opened
    obtain ⟨ts, front₃, shape⟩ := constant_eq_ok offset
    obtain ⟨front₄, closed⟩ := expect_eq_ok closed
    refine ⟨base :: left :: (ts ++ [right]), ?_, .memory kind opened shape closed⟩
    rw [front₁, front₂, front₃, front₄]
    simp

/-- An operand of a kind is read as what it is. -/
theorem takes_operand {kind : OperandKind} {ts : List Token} {operand : Operand}
    (shape : IsOperand IsConstant kind ts (.ok operand)) : Takes kind.reader ts operand := by
  generalize result : Except.ok operand = found at shape
  cases shape with
  | register kind =>
    cases result
    exact (takes_register kind).map Operand.register
  | @immediate ts value shape =>
    cases value with
    | error fault => cases result
    | ok value =>
      cases result
      exact (takes_constant shape).map Operand.constant
  | @memory base left right ts value kind opened shape closed =>
    cases value with
    | error fault => cases result
    | ok value =>
      cases result
      have bracket (index : UInt8) : Takes (do let _ ← Reader.expect .rightBracket; return Operand.memory index value)
          [right] (.memory index value) := takes_expect closed (takes_pure _)
      have offset (index : UInt8) : Takes
          (do let value ← Reader.constant; let _ ← Reader.expect .rightBracket; return Operand.memory index value)
          (ts ++ [right]) (.memory index value) :=
            (takes_constant shape).bind (bracket index) (follows_cons (by simp [closed]) _)
      exact (takes_register kind).bind (takes_expect opened (offset _)) (follows_cons (by simp [opened]) _)

/-- Takes operands of kinds, with a comma between neighbours. -/
def signatureReader : List OperandKind → Reader (List Operand)
  | [] => return []
  | [kind] => return [← kind.reader]
  | kind :: next :: kinds => do
    let operand ← kind.reader
    let _ ← Reader.expect .comma
    return operand :: (← signatureReader (next :: kinds))

/-- The reader of a format takes what its signature asks for, in the order of the signature. -/
theorem operands_by_signature (format : Format) :
    (do let o ← Reader.operands format; return (o.format, o.values) : Reader (Format × List Operand)) =
      (do return (format, ← signatureReader format.signature)) := by
  cases format <;>
    simp [Reader.operands, signatureReader, Format.signature, OperandKind.reader, Operands.format, Operands.values]

theorem signature_of_operands {format : Format} {c c' : Cursor} {o : Operands}
    (read : Reader.operands format c = .ok (o, c')) :
    o.format = format ∧ signatureReader format.signature c = .ok (o.values, c') := by
  have given : (do let o ← Reader.operands format; return (o.format, o.values) : Reader (Format × List Operand)) c =
      .ok ((o.format, o.values), c') := reader_bind_eq_ok.mpr ⟨o, c', read, rfl⟩
  rw [operands_by_signature] at given
  obtain ⟨values, d, taken, same⟩ := reader_bind_eq_ok.mp given
  simp only [pure, StateT.pure, Except.pure, Except.ok.injEq, Prod.mk.injEq] at same
  obtain ⟨⟨named, rfl⟩, rfl⟩ := same
  exact ⟨named.symm, taken⟩

theorem operands_of_signature {format : Format} {c c' : Cursor} {values : List Operand}
    (read : signatureReader format.signature c = .ok (values, c')) :
    ∃ o, Reader.operands format c = .ok (o, c') ∧ o.values = values := by
  have given : (do return (format, ← signatureReader format.signature) : Reader (Format × List Operand)) c =
      .ok ((format, values), c') := reader_bind_eq_ok.mpr ⟨values, c', read, rfl⟩
  rw [← operands_by_signature] at given
  obtain ⟨o, d, taken, same⟩ := reader_bind_eq_ok.mp given
  simp only [pure, StateT.pure, Except.pure, Except.ok.injEq, Prod.mk.injEq] at same
  obtain ⟨⟨-, valued⟩, rfl⟩ := same
  exact ⟨o, taken, valued⟩

/-- What is read by a signature is a list of operands of the signature. -/
theorem signatureReader_eq_ok {kinds : List OperandKind} {c c' : Cursor} {values : List Operand}
    (read : signatureReader kinds c = .ok (values, c')) :
    ∃ ts parts, c.rest = ts ++ c'.rest ∧ Listed IsConstant kinds ts parts (values.map .ok) := by
  induction kinds generalizing c values with
  | nil =>
    cases read
    exact ⟨[], [], rfl, .nil⟩
  | cons kind kinds ih =>
    cases kinds with
    | nil =>
      obtain ⟨operand, d, taken, same⟩ := reader_bind_eq_ok.mp read
      cases same
      obtain ⟨ts, front, shape⟩ := operandReader_eq_ok taken
      exact ⟨ts, [ts], front, .last shape⟩
    | cons next kinds =>
      obtain ⟨operand, d₁, taken, read⟩ := reader_bind_eq_ok.mp read
      obtain ⟨comma, d₂, parted, read⟩ := reader_bind_eq_ok.mp read
      obtain ⟨others, d₃, later, same⟩ := reader_bind_eq_ok.mp read
      cases same
      obtain ⟨ts, front₁, shape⟩ := operandReader_eq_ok taken
      obtain ⟨front₂, parted⟩ := expect_eq_ok parted
      obtain ⟨us, parts, front₃, rest⟩ := ih later
      refine ⟨ts ++ comma :: us, ts :: parts, ?_, .cons shape parted rest⟩
      rw [front₁, front₂, front₃, List.append_assoc]
      rfl

/-- A list of operands of a signature is read by the signature. -/
theorem takes_signature {kinds : List OperandKind} {ts : List Token} {parts : List (List Token)}
    {values : List Operand}
    (listed : Listed IsConstant kinds ts parts (values.map .ok)) : Takes (signatureReader kinds) ts values := by
  generalize given : values.map Except.ok = found at listed
  induction listed generalizing values with
  | nil =>
    rw [List.map_eq_nil_iff] at given
    subst given
    exact takes_pure []
  | last operand =>
    obtain ⟨value, rest, rfl, rfl, none⟩ := List.map_eq_cons_iff.mp given
    rw [List.map_eq_nil_iff] at none
    subst none
    exact (takes_operand operand).map fun operand => [operand]
  | @cons kind next kinds ts us comma parts _ others operand parted rest ih =>
    obtain ⟨value, rest, rfl, rfl, later⟩ := List.map_eq_cons_iff.mp given
    have tail : Takes (do let _ ← Reader.expect .comma; return value :: (← signatureReader (next :: kinds)))
        (comma :: us) (value :: rest) := takes_expect parted ((ih later).map (value :: ·))
    exact (takes_operand operand).bind tail (follows_cons (by simp [parted]) _)

/-! ## Lines of instructions -/

/-- A separator with what is behind it, or the end of the list. -/
inductive LineStop : List Token → List Token → Prop
  | ended : LineStop [] []
  | separator {stop : Token} {behind : List Token} (ends : stop.isSeparator) : LineStop (stop :: behind) behind

/-- The end of a line with what is behind it: there may be a comment first. -/
inductive LineEnd : List Token → List Token → Prop
  | plain {rest behind : List Token} (stop : LineStop rest behind) : LineEnd rest behind
  | commented {t : Token} {rest behind : List Token} (comment : t.isComment) (stop : LineStop rest behind) :
      LineEnd (t :: rest) behind

/-- Takes the instruction whose mnemonic is `t`, with its line to the end. -/
def Reader.instructionLine (isa : InstructionSet) (t : Token) : Reader Instruction := do
  let i ← instruction isa t
  endOfLine
  return i

theorem isMark_iff {t : Token} : t.kind.isMark ↔ t.isComment ∨ t.isSeparator := by
  unfold Token.isComment Token.isSeparator
  cases t.kind <;> simp [TokenKind.isMark]

/-- The end of a line is taken with its comment and its separator, and nothing behind them. -/
theorem endOfLine_taken {rest behind : List Token} (ends : LineEnd rest behind) (last : Position) :
    ∃ last', Reader.endOfLine ⟨rest, last⟩ = .ok ((), ⟨behind, last'⟩) := by
  cases ends with
  | plain stop =>
    cases stop with
    | ended => exact ⟨last, rfl⟩
    | @separator stop behind ends =>
      have plain : stop.isComment = false := by simp_all [Token.isSeparator, Token.isComment]
      exact ⟨stop.pos, by rw [Comparison.endOfLine_uncommented plain, if_pos ends]⟩
  | commented comment stop =>
    cases stop with
    | ended => exact ⟨last, by simp [Reader.endOfLine, comment]⟩
    | @separator stop behind ends => exact ⟨stop.pos, by rw [Comparison.endOfLine_commented comment, if_pos ends]⟩

/-- The list is empty or begins with a comment or a separator. -/
def Marked (ts : List Token) : Prop := ∀ t, ts.head? = some t → t.kind.isMark

theorem marked_of_lineEnd {rest behind : List Token} (ends : LineEnd rest behind) : Marked rest := by
  intro t head
  rw [isMark_iff]
  cases ends with
  | plain stop =>
    cases stop with
    | ended => cases head
    | separator ends =>
      cases head
      exact .inr ends
  | commented comment stop =>
    cases head
    exact .inl comment

theorem marked_of_endOfLine {c c' : Cursor} (read : Reader.endOfLine c = .ok ((), c')) : Marked c.rest := by
  obtain ⟨rest, last⟩ := c
  intro t head
  cases rest with
  | nil => cases head
  | cons u us =>
    cases head
    rw [isMark_iff]
    by_cases comment : t.isComment
    · exact .inl comment
    · rw [Comparison.endOfLine_uncommented (by simpa using comment)] at read
      by_cases ends : t.isSeparator
      · exact .inr ends
      · rw [if_neg ends] at read
        cases read

/-- A list is cut before its first mark in one way only. -/
theorem cut_at_mark {ts us rest rest' : List Token} (same : ts ++ rest = us ++ rest')
    (inside : ∀ t ∈ ts, t.kind.isMark = false)
    (inside' : ∀ t ∈ us, t.kind.isMark = false) (marked : Marked rest) (marked' : Marked rest') :
    ts = us ∧ rest = rest' := by
  induction ts generalizing us with
  | nil =>
    cases us with
    | nil => exact ⟨rfl, same⟩
    | cons u us =>
      -- The token that goes on the second list would be the mark behind the first.
      have mark := marked u (by rw [List.nil_append] at same; rw [same]; rfl)
      simp [inside' u List.mem_cons_self] at mark
  | cons t ts ih =>
    cases us with
    | nil =>
      have mark := marked' t (by rw [List.nil_append] at same; rw [← same]; rfl)
      simp [inside t List.mem_cons_self] at mark
    | cons u us =>
      simp only [List.cons_append, List.cons.injEq] at same
      obtain ⟨rfl, same⟩ := same
      obtain ⟨rfl, rest⟩ := ih same (fun v member => inside v (List.mem_cons_of_mem _ member))
        fun v member => inside' v (List.mem_cons_of_mem _ member)
      exact ⟨rfl, rest⟩

theorem Token.isCode_of_isWord {t : Token} (word : t.isWord) : t.kind.isCode := by
  unfold isWord at word
  cases kind : t.kind <;> simp_all [TokenKind.isWord, TokenKind.isCode]

theorem code_of_isConstant {ts : List Token} {value : Except RangeFault Constant} (shape : IsConstant ts value) :
    ∀ t ∈ ts, t.kind.isCode := by
  have half {dot half : Token} {us : List Token} (dotted : dot.kind = .directive) (word : half.isWord)
      (plain : ∀ u ∈ us, u.kind.isCode) : ∀ t ∈ dot :: half :: us, t.kind.isCode := by
    simp only [List.forall_mem_cons]
    exact ⟨by simp [dotted, TokenKind.isCode], Token.isCode_of_isWord word, plain⟩
  cases shape with
  | plain shape => exact code_of_isImmediate shape
  | lo dotted word _ shape => exact half dotted word (code_of_isImmediate shape)
  | hi dotted word _ shape => exact half dotted word (code_of_isImmediate shape)

theorem code_of_isOperand {kind : OperandKind} {ts : List Token} {value : Except RangeFault Operand}
    (shape : IsOperand IsConstant kind ts value) : ∀ t ∈ ts, t.kind.isCode := by
  cases shape with
  | register kind => simp [kind, TokenKind.isCode]
  | immediate shape => exact code_of_isConstant shape
  | memory register opened shape closed =>
    have inside := code_of_isConstant shape
    simp only [List.forall_mem_cons, List.forall_mem_append]
    exact ⟨by simp [register, TokenKind.isCode], by simp [opened, TokenKind.isCode], inside,
      by simp [closed, TokenKind.isCode]⟩

/-- Every token of a list of operands means something. -/
theorem code_of_listed {kinds : List OperandKind} {ts : List Token} {parts : List (List Token)}
    {values : List (Except RangeFault Operand)} (listed : Listed IsConstant kinds ts parts values) :
    ∀ t ∈ ts, t.kind.isCode := by
  induction listed with
  | nil => simp
  | last shape => exact code_of_isOperand shape
  | cons shape parted _ ih =>
    simp only [List.forall_mem_append, List.forall_mem_cons]
    exact ⟨code_of_isOperand shape, by simp [parted, TokenKind.isCode], ih⟩

theorem TokenKind.isMark_of_isCode {kind : TokenKind} (code : kind.isCode) : kind.isMark = false := by
  cases kind <;> first | rfl | cases code

/-- No token of a list of operands is a comment or a separator. -/
theorem unmarked_of_listed {kinds : List OperandKind} {ts : List Token} {parts : List (List Token)}
    {values : List (Except RangeFault Operand)} (listed : Listed IsConstant kinds ts parts values) :
    ∀ t ∈ ts, t.kind.isMark = false := fun t member => TokenKind.isMark_of_isCode (code_of_listed listed t member)

/-- The step of an instruction is that of the instruction that its line is read as. -/
theorem statement_instructionStep (isa : InstructionSet) (t : Token) (c : Cursor) :
    (Reader.statement (instructionStep isa t) c).result =
      (Reader.instructionLine isa t c).map fun x => [.item { node := .instruction x.1, pos := t.pos }] := by
  rw [Comparison.result_statement]
  unfold instructionStep Reader.instructionLine
  simp only [bind, StateT.bind, Except.bind, pure, StateT.pure, Except.pure]
  cases Reader.instruction isa t c with
  | error e => rfl
  | ok x =>
    dsimp only
    cases Reader.endOfLine x.2 <;> rfl

section Line

variable {isa : InstructionSet} {mnemonic : Token} {op : Opcode} (known : isa.opcode? mnemonic.name = some op)
  {arguments rest behind : List Token} (ends : LineEnd rest behind) (last : Position)
include known ends

/-- An accepted line has the operands of the signature, and is taken to its end. -/
theorem listed_of_instructionLine (inside : ∀ t ∈ arguments, t.kind.isMark = false) {i : Instruction} {c : Cursor}
    (read : Reader.instructionLine isa mnemonic ⟨arguments ++ rest, last⟩ = .ok (i, c)) :
    c.rest = behind ∧ i.code = op.code ∧ i.operands.format = op.format ∧
      ∃ parts, Listed IsConstant op.format.signature arguments parts (i.operands.values.map .ok) := by
  obtain ⟨j, d, instruction, read⟩ := reader_bind_eq_ok.mp read
  obtain ⟨_, c', stopped, same⟩ := reader_bind_eq_ok.mp read
  cases same
  unfold Reader.instruction at instruction
  rw [known] at instruction
  obtain ⟨o, d', operands, same⟩ := reader_bind_eq_ok.mp instruction
  cases same
  obtain ⟨format, signature⟩ := signature_of_operands operands
  obtain ⟨ts, parts, front, listed⟩ := signatureReader_eq_ok signature
  obtain ⟨rfl, same⟩ := cut_at_mark front inside (unmarked_of_listed listed) (marked_of_lineEnd ends)
    (marked_of_endOfLine stopped)
  obtain ⟨last', taken⟩ := endOfLine_taken ends d.last
  rw [same] at taken
  rw [taken] at stopped
  cases stopped
  exact ⟨rfl, rfl, format, parts, listed⟩

/-- A line with operands of the signature is accepted. -/
theorem instructionLine_of_listed {parts : List (List Token)} {values : List Operand}
    (listed : Listed IsConstant op.format.signature arguments parts (values.map .ok)) :
    ∃ i c, Reader.instructionLine isa mnemonic ⟨arguments ++ rest, last⟩ = .ok (i, c) ∧
    i.operands.values = values := by
  have follows : Follows rest := by
    intro t head opened
    have mark := marked_of_lineEnd ends t head
    simp [opened, TokenKind.isMark] at mark
  obtain ⟨last', read⟩ := takes_signature listed rest last follows
  obtain ⟨o, operands, valued⟩ := operands_of_signature read
  obtain ⟨last'', stopped⟩ := endOfLine_taken ends last'
  have instruction : Reader.instruction isa mnemonic ⟨arguments ++ rest, last⟩ =
      .ok (⟨op.code, o⟩, ⟨rest, last'⟩) := by
    unfold Reader.instruction
    rw [known]
    exact reader_bind_eq_ok.mpr ⟨o, _, operands, rfl⟩
  refine ⟨⟨op.code, o⟩, ⟨behind, last''⟩, ?_, valued⟩
  exact reader_bind_eq_ok.mpr ⟨_, _, instruction, reader_bind_eq_ok.mpr ⟨(), _, stopped, rfl⟩⟩

end Line

/-- Lines of instructions are read by the grammar of the opcode table: the tokens after a mnemonic
    are accepted exactly if they are the operands of its signature, each with a comma after it but
    the last. They are taken with the end of the line and nothing behind it, and the instruction has
    the code of the opcode and operands of its format with the values of the source, in order. -/
theorem instruction_by_grammar {op : Opcode} (listed : op ∈ bisc.opcodes) {mnemonic : Token}
    (named : mnemonic.name = op.mnemonic)
    {arguments rest behind : List Token} (inline : ∀ t ∈ arguments, t.isComment = false ∧ t.isSeparator = false)
    (ends : LineEnd rest behind) (last : Position) :
    let line := Reader.instructionLine bisc mnemonic ⟨arguments ++ rest, last⟩
    ((∃ i c, line = .ok (i, c)) ↔
      ∃ parts, ∃ values : List Operand, Listed IsConstant op.format.signature arguments parts (values.map .ok)) ∧
    (∀ i c, line = .ok (i, c) → c.rest = behind ∧ i.code = op.code ∧ i.operands.format = op.format ∧
      ∃ parts, Listed IsConstant op.format.signature arguments parts (i.operands.values.map .ok)) ∧
    (Reader.statement (instructionStep bisc mnemonic) ⟨arguments ++ rest, last⟩).result =
      line.map fun x => [.item { node := .instruction x.1, pos := mnemonic.pos }] := by
  have table : ∀ op ∈ opcodeTable, bisc.opcode? op.mnemonic = some op := by decide
  have known : bisc.opcode? mnemonic.name = some op := named ▸ table op listed
  have inside : ∀ t ∈ arguments, t.kind.isMark = false := by
    intro t member
    obtain ⟨plain, inner⟩ := inline t member
    by_contra mark
    rcases isMark_iff.mp (by simpa using mark) with comment | separator
    · simp [plain] at comment
    · simp [inner] at separator
  refine ⟨⟨?_, ?_⟩, ?_, statement_instructionStep bisc mnemonic _⟩
  · rintro ⟨i, c, read⟩
    obtain ⟨-, -, -, parts, operands⟩ := listed_of_instructionLine known ends last inside read
    exact ⟨parts, i.operands.values, operands⟩
  · rintro ⟨parts, values, operands⟩
    obtain ⟨i, c, read, -⟩ := instructionLine_of_listed known ends last operands
    exact ⟨i, c, read⟩
  · intro i c read
    exact listed_of_instructionLine known ends last inside read

/-- A load whose offset is the lower half of two bytes of a symbol: the tokens after `ld`. -/
private def halvedOffset : List Token := [⟨.register, "r1", some 1, ⟨1, 4⟩, 0⟩, ⟨.comma, ",", none, ⟨1, 6⟩, 0⟩,
  ⟨.register, "sp", some 14, ⟨1, 8⟩, 0⟩, ⟨.leftBracket, "[", none, ⟨1, 10⟩, 0⟩, ⟨.directive, ".", none, ⟨1, 11⟩, 0⟩,
  ⟨.identifier, "LO", none, ⟨1, 12⟩, 0⟩, ⟨.identifier, "x", none, ⟨1, 15⟩, 0⟩, ⟨.leftParen, "(", none, ⟨1, 16⟩, 0⟩,
  ⟨.immediate, "1", some 1, ⟨1, 17⟩, 0⟩, ⟨.colon, ":", none, ⟨1, 18⟩, 0⟩, ⟨.immediate, "2", some 2, ⟨1, 19⟩, 0⟩,
  ⟨.rightParen, ")", none, ⟨1, 20⟩, 0⟩, ⟨.rightBracket, "]", none, ⟨1, 21⟩, 0⟩]

/-- The load is accepted with its comment and its separator, and the next line is left. -/
theorem instruction_by_grammar_halvedOffset :
    ∃ i c, Reader.instructionLine bisc ⟨.pseudoOp, "ld", none, ⟨1, 1⟩,
      0⟩ ⟨halvedOffset ++ [⟨.comment, ";", none, ⟨1, 23⟩, 0⟩,
        Token.separator ⟨1, 24⟩ 0, ⟨.opcode, "halt", some 1, ⟨2, 1⟩, 0⟩], ⟨1, 1⟩⟩ = .ok (i, c) ∧
      c.rest = [⟨.opcode, "halt", some 1, ⟨2, 1⟩, 0⟩] ∧ i.code = 0x20 ∧ i.operands.format = .regMem ∧
      ∃ parts, Listed IsConstant [.register, .memory] halvedOffset parts (i.operands.values.map .ok) := by
  have ends : LineEnd [⟨.comment, ";", none, ⟨1, 23⟩, 0⟩, Token.separator ⟨1, 24⟩ 0,
    ⟨.opcode, "halt", some 1, ⟨2, 1⟩, 0⟩]
      [⟨.opcode, "halt", some 1, ⟨2, 1⟩, 0⟩] := .commented rfl (.separator rfl)
  have inline : ∀ t ∈ halvedOffset, t.isComment = false ∧ t.isSeparator = false := by decide
  obtain ⟨accepts, result, -⟩ :=
    @instruction_by_grammar ⟨0x20, "ld", .regMem⟩ (by decide) ⟨.pseudoOp, "ld", none, ⟨1, 1⟩, 0⟩
    (by decide) halvedOffset _ _ inline ends ⟨1, 1⟩
  have slice : IsConstant (halvedOffset.drop 4).dropLast (.ok (.part (.part (.symbol "x") (.bytes 1 2)) .lo)) :=
    .lo rfl rfl (by decide) (.slice rfl rfl rfl rfl rfl rfl)
  have operands : Listed IsConstant [.register, .memory] halvedOffset _
      ([Operand.register 1, .memory 14 (.part (.part (.symbol "x") (.bytes 1 2)) .lo)].map .ok) :=
    .cons (.register rfl) rfl (.last (.memory rfl rfl slice rfl))
  obtain ⟨i, c, read⟩ := accepts.mpr ⟨_, _, operands⟩
  exact ⟨i, c, read, result i c read⟩

end Bisc
