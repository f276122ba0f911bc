import Bisc.Proofs.Outcome
import Bisc.Proofs.Template
import Bisc.Statement

/-!
Operands of pseudo-instructions: what the token lists that a signature takes look like, and what is
read from each of them, wherever it stands.
-/
namespace Bisc

/-- The bytes `first` to `last` of a symbol, which have to be one or two bytes of a 32-bit value. -/
def sliceOf (symbol : String) (first last : UInt32) : Except RangeFault Constant :=
  if first > last ∨ last > 3 ∨ last.toNat - first.toNat > 1 then .error (.slice symbol first last)
  else .ok (.part (.symbol symbol) (.bytes first.toUInt8 last.toUInt8))

/-- The token lists of immediates, with the constant that each stands for or what is wrong with its
    slice. -/
inductive IsImmediate : List Token → Except RangeFault Constant → Prop
  | number {t : Token} (kind : t.kind = .immediate) : IsImmediate [t] (.ok (.number t.number))
  | symbol {t : Token} (kind : t.kind = .identifier) : IsImmediate [t] (.ok (.symbol t.raw))
  | slice {symbol left first colon last right : Token} (kind : symbol.kind = .identifier)
      (opened : left.kind = .leftParen) (low : first.kind = .immediate) (parted : colon.kind = .colon)
      (high : last.kind = .immediate) (closed : right.kind = .rightParen) :
      IsImmediate [symbol, left, first, colon, last, right] (sliceOf symbol.raw first.number last.number)

/-- The token lists of operands of kinds; a memory operand is none of a pseudo-instruction. -/
inductive AreOperands : List OperandKind → List (List Token) → Prop
  | nil : AreOperands [] []
  | register {t : Token} {kinds : List OperandKind} {more : List (List Token)} (kind : t.kind = .register)
      (rest : AreOperands kinds more) : AreOperands (.register :: kinds) ([t] :: more)
  | immediate {ts : List Token} {value : Except RangeFault Constant} {kinds : List OperandKind}
      {more : List (List Token)} (shape : IsImmediate ts value) (rest : AreOperands kinds more) :
      AreOperands (.immediate :: kinds) (ts :: more)

/-- What follows an immediate; a slice would go on with a parenthesis. -/
def Follows (rest : List Token) : Prop := ∀ t, rest.head? = some t → t.kind ≠ .leftParen

theorem Follows.append {ts us : List Token} (first : Follows ts) (second : Follows us) : Follows (ts ++ us) := by
  cases ts with
  | nil => exact second
  | cons t ts => exact first

theorem follows_nil : Follows [] := by
  intro t head
  cases head

theorem follows_cons {t : Token} (other : t.kind ≠ .leftParen) (ts : List Token) : Follows (t :: ts) := by
  intro u head
  cases head
  exact other

/-! ## Splitting -/

theorem isImmediate_of_length {ts : List Token} {n : Nat} (length : immediateLength? ts = some n) :
    ∃ value, IsImmediate (ts.take n) value := by
  match ts, length with
  | t :: ts, length =>
    simp only [immediateLength?] at length
    split at length
    · rename_i kind
      cases length
      exact ⟨_, .number kind⟩
    · rename_i kind
      split at length
      · rename_i shape
        cases length
        rcases ts with _ | ⟨left,
          _ | ⟨first, _ | ⟨colon, _ | ⟨last, _ | ⟨right, ts⟩⟩⟩⟩⟩ <;> simp [sliceKinds] at shape
        obtain ⟨opened, low, parted, high, closed⟩ := shape
        exact ⟨_, .slice kind opened low parted high closed⟩
      · cases length
        exact ⟨_, .symbol kind⟩
    · cases length

/-- An immediate has the length that is found at its front, unless a slice could go on with what follows. -/
theorem immediateLength_append {ts : List Token} {value : Except RangeFault Constant} (shape : IsImmediate ts value)
    {rest : List Token} (follows : Follows rest) : immediateLength? (ts ++ rest) = some ts.length := by
  cases shape with
  | number kind => simp [immediateLength?, kind]
  | symbol kind =>
    have single : (rest.take 5).map Token.kind ≠ sliceKinds := by
      intro sliced
      cases rest with
      | nil => cases sliced
      | cons t rest => exact follows t rfl (List.cons.inj sliced).1
    simpa [immediateLength?, kind] using single
  | slice kind opened low parted high closed =>
    simp [immediateLength?, kind, opened, low, parted, high, closed, sliceKinds]

theorem length_of_isImmediate {ts : List Token} {value : Except RangeFault Constant} (shape : IsImmediate ts value) :
    immediateLength? ts = some ts.length := by
  have found := immediateLength_append shape follows_nil
  rwa [List.append_nil] at found

theorem code_of_isImmediate {ts : List Token} {value : Except RangeFault Constant} (shape : IsImmediate ts value) :
    ∀ t ∈ ts, t.kind.isCode := by
  cases shape <;> simp_all [TokenKind.isCode]

private theorem exists_cons_of_isImmediate {ts : List Token} {value : Except RangeFault Constant}
    (shape : IsImmediate ts value) : ∃ t us, ts = t :: us := by
  cases shape <;> exact ⟨_, _, rfl⟩

theorem split_immediate {ts : List Token} {value : Except RangeFault Constant} (shape : IsImmediate ts value) :
    splitOperands [.immediate] ts = some [ts] := by
  simp [splitOperands, OperandKind.length?, length_of_isImmediate shape]

theorem split_register_immediate {r comma : Token} (register : r.kind = .register) (parted : comma.kind = .comma)
    {ts : List Token} {value : Except RangeFault Constant} (shape : IsImmediate ts value) :
    splitOperands [.register, .immediate] (r :: comma :: ts) = some [[r], ts] := by
  simp [splitOperands, OperandKind.length?, register, parted, length_of_isImmediate shape]

theorem length_of_areOperands {kinds : List OperandKind} {arguments : List (List Token)}
    (operands : AreOperands kinds arguments) : arguments.length = kinds.length := by
  induction operands with
  | nil => rfl
  | register _ _ ih => simp [ih]
  | immediate _ _ ih => simp [ih]

/-- Operands of which only the last may be an immediate come back from a template. -/
theorem fillable_of_areOperands {kinds : List OperandKind} {arguments : List (List Token)}
    (operands : AreOperands kinds arguments) (registers : OperandKind.immediate ∉ kinds.dropLast)
    (spelled : ∀ a ∈ arguments, ∀ t ∈ a, t.WellSpelled bisc) : Fillable arguments := by
  have code : ∀ a ∈ arguments, ∀ t ∈ a, t.kind.isCode := by
    clear registers spelled
    induction operands with
    | nil => simp
    | register kind rest ih => simpa [kind, TokenKind.isCode] using ih
    | immediate shape rest ih =>
      intro a member
      rcases List.mem_cons.mp member with rfl | member
      · exact code_of_isImmediate shape
      · exact ih a member
  refine ⟨code, fun a member t inside => spelled a member t inside (code a member t inside), ?_⟩
  induction operands with
  | nil => simp
  | @register t kinds more kind rest ih =>
    have plain : '\x7b' ∉ (Token.render [t]).toList := by
      have own := spelled [t] List.mem_cons_self t List.mem_cons_self (by simp [kind, TokenKind.isCode])
      intro member
      have inline : t.isSeparator = false := by simp [Token.isSeparator, kind]
      have word := Token.isWordChar_of_register own kind '\x7b'
        (by simpa [Token.render, Token.renderFrom, inline] using member)
      exact absurd word (by decide)
    cases more with
    | nil => simp
    | cons next more =>
      have tail : kinds ≠ [] := by
        rintro rfl
        cases rest
      rw [List.dropLast_cons_of_ne_nil tail] at registers
      have later := ih (fun member => registers (List.mem_cons_of_mem _ member))
        (fun a member => spelled a (List.mem_cons_of_mem _ member))
          (fun a member => code a (List.mem_cons_of_mem _ member))
      simpa [List.dropLast_cons_of_ne_nil, plain] using later
  | @immediate ts value kinds more shape rest ih =>
    -- The text may be a character literal of a brace, but no operand is put in after it.
    cases rest with
    | nil => simp
    | register => simp at registers
    | immediate => simp at registers

/-! ## Reading -/

/-- What is read before `rest`, given the place of an error and that of the last token taken. -/
def Reader.found {α : Type} (first last : Position) (rest : List Token) :
    Except RangeFault α → Except Error (α × Cursor)
  | .ok a => .ok (a, ⟨rest, last⟩)
  | .error fault => .error ⟨.outOfRange fault, first⟩

theorem word_found {t : Token} (word : t.isWord) (what : Expected) (rest : List Token) (last : Position) :
    Reader.word what ⟨t :: rest, last⟩ = .ok (t, ⟨rest, t.pos⟩) := by
  simp [Reader.word, Reader.next, word, bind, StateT.bind, Except.bind, pure, StateT.pure, Except.pure]

theorem expect_found {t : Token} {kind : TokenKind} (expected : t.kind = kind) (rest : List Token) (last : Position) :
    Reader.expect kind ⟨t :: rest, last⟩ = .ok (t, ⟨rest, t.pos⟩) := by
  simp [Reader.expect, Reader.next, expected, bind, StateT.bind, Except.bind, pure, StateT.pure, Except.pure]

/-- The reader takes the tokens, unless a slice could go on with what follows, and gives the value. -/
def Takes {α : Type} (r : Reader α) (ts : List Token) (a : α) : Prop :=
  ∀ rest last, Follows rest → ∃ last', r ⟨ts ++ rest, last⟩ = .ok (a, ⟨rest, last'⟩)

theorem Takes.bind {α β : Type} {r : Reader α} {f : α → Reader β} {ts us : List Token} {a : α} {b : β}
    (first : Takes r ts a)
    (second : Takes (f a) us b) (parted : Follows us) : Takes (r >>= f) (ts ++ us) b := by
  intro rest last follows
  obtain ⟨last', read⟩ := first (us ++ rest) last (parted.append follows)
  obtain ⟨last'', read'⟩ := second rest last' follows
  refine ⟨last'', ?_⟩
  rw [List.append_assoc]
  exact bind_eq_ok.mpr ⟨_, read, read'⟩

/-- A token of a kind is taken, and other tokens after it. -/
theorem takes_expect {β : Type} {kind : TokenKind} {t : Token} (same : t.kind = kind)
    {f : Token → Reader β} {us : List Token} {b : β}
    (later : Takes (f t) us b) : Takes (Reader.expect kind >>= f) (t :: us) b := by
  intro rest last follows
  obtain ⟨last', read⟩ := later rest t.pos follows
  exact ⟨last', bind_eq_ok.mpr ⟨_, expect_found same (us ++ rest) last, read⟩⟩

section Immediate

variable {ts rest : List Token} {value : Except RangeFault Constant}

private theorem plainConstant_immediate (shape : IsImmediate ts value) (follows : Follows rest) (what : Expected)
    (last : Position) : ∃ t ∈ ts, ∃ u ∈ ts,
      (Reader.next .constant >>= Reader.plainConstant what : Reader Constant) ⟨ts ++ rest, last⟩ =
        Reader.found t.pos u.pos rest value := by
  cases shape with
  | @number t kind =>
    refine ⟨t, List.mem_cons_self, t, List.mem_cons_self, ?_⟩
    simp [Reader.plainConstant, Reader.next, Reader.found, kind, bind, StateT.bind, Except.bind, pure, StateT.pure,
      Except.pure]
  | @symbol t kind =>
    have single : (rest.head?.any fun t => t.kind = .leftParen) = false := by
      cases rest with
      | nil => rfl
      | cons u us => simpa using follows u rfl
    refine ⟨t, List.mem_cons_self, t, List.mem_cons_self, ?_⟩
    simp [Reader.plainConstant, Reader.next, Reader.nextIs, Reader.found, kind, single, bind,
      StateT.bind, Except.bind,
      pure, StateT.pure, Except.pure]
  | @slice symbol left first colon last right kind opened low parted high closed =>
    refine ⟨symbol, by simp, right, by simp, ?_⟩
    simp only [Reader.plainConstant, Reader.next, Reader.nextIs, Reader.slice, Reader.expect,
      kind, opened, low, parted,
      high, closed, bind, StateT.bind, Except.bind, pure, StateT.pure, Except.pure, List.cons_append, List.nil_append,
      List.head?_cons, Option.any_some, decide_true, if_true, sliceOf]
    split <;> rfl

/-- An immediate is read to its end, and its slice is the only thing that can be wrong. -/
theorem constant_immediate (shape : IsImmediate ts value) (follows : Follows rest) (last : Position) :
    ∃ t ∈ ts, ∃ u ∈ ts, Reader.constant ⟨ts ++ rest, last⟩ = Reader.found t.pos u.pos rest value := by
  obtain ⟨t, first, u, final, plain⟩ := plainConstant_immediate shape follows .constant last
  have direct : ∃ t us, ts = t :: us ∧ t.kind ≠ .directive := by
    cases shape with
    | number kind => exact ⟨_, _, rfl, by simp [kind]⟩
    | symbol kind => exact ⟨_, _, rfl, by simp [kind]⟩
    | slice kind => exact ⟨_, _, rfl, by simp [kind]⟩
  refine ⟨t, first, u, final, ?_⟩
  obtain ⟨t, us, rfl, other⟩ := direct
  rw [← plain]
  simp [Reader.constant, Reader.next, bind, StateT.bind, Except.bind, other]

theorem constant_half {dot half : Token} (selects : dot.kind = .directive) (word : half.isWord) {selector : Selector}
    (named : Reader.halfSelector half = .ok selector) (shape : IsImmediate ts value)
    (follows : Follows rest) (last : Position) :
    ∃ t ∈ ts, ∃ u ∈ ts, Reader.constant ⟨dot :: half :: ts ++ rest, last⟩ =
      Reader.found t.pos u.pos rest (value.map (.part · selector)) := by
  obtain ⟨t, first, u, final, plain⟩ := plainConstant_immediate shape follows .plainConstant half.pos
  refine ⟨t, first, u, final, ?_⟩
  have skip : Reader.constant ⟨dot :: half :: ts ++ rest, last⟩ =
      ((Reader.next .constant >>= Reader.plainConstant .plainConstant) ⟨ts ++ rest, half.pos⟩).map
        fun (c, cursor) => (.part c selector, cursor) := by
    obtain ⟨t, us, rfl⟩ := exists_cons_of_isImmediate shape
    simp only [Reader.constant, Reader.next, Reader.word, named, bind, StateT.bind, Except.bind, selects,
      word, pure, StateT.pure,
      Except.pure, liftM, monadLift, MonadLift.monadLift, StateT.lift, List.cons_append, if_true]
    cases Reader.plainConstant .plainConstant t ⟨us ++ rest, t.pos⟩ <;> rfl
  rw [skip, plain]
  cases value <;> rfl

theorem constant_lo {dot half : Token} (selects : dot.kind = .directive) (word : half.isWord)
    (lower : half.name = "lo")
    (shape : IsImmediate ts value) (follows : Follows rest) (last : Position) :
    ∃ t ∈ ts, ∃ u ∈ ts, Reader.constant ⟨dot :: half :: ts ++ rest, last⟩ =
      Reader.found t.pos u.pos rest (value.map (.part · .lo)) :=
  constant_half selects word (if_pos lower) shape follows last

theorem isImmediate_retag (pos : Position) (depth : Nat) (shape : IsImmediate ts value) :
    IsImmediate (ts.map (Token.retag pos depth)) value := by
  cases shape with
  | number kind => exact .number kind
  | symbol kind => exact .symbol kind
  | slice kind opened low parted high closed => exact .slice kind opened low parted high closed

/-- At one place, an immediate is read with that place. -/
theorem constant_placed {pos : Position} {depth : Nat} (shape : IsImmediate ts value) (follows : Follows rest)
    (last : Position) :
    Reader.constant ⟨ts.map (Token.retag pos depth) ++ rest, last⟩ = Reader.found pos pos rest value := by
  obtain ⟨t, first, u, final, read⟩ := constant_immediate (isImmediate_retag pos depth shape) follows last
  obtain ⟨t, -, rfl⟩ := List.mem_map.mp first
  obtain ⟨u, -, rfl⟩ := List.mem_map.mp final
  exact read
theorem constant_lo_placed {pos : Position} {depth : Nat} {dot half : Token} (selects : dot.kind = .directive)
    (word : half.isWord) (lower : half.name = "lo") (shape : IsImmediate ts value) (follows : Follows rest)
    (last : Position) :
    Reader.constant ⟨dot :: half :: ts.map (Token.retag pos depth) ++ rest, last⟩ =
      Reader.found pos pos rest (value.map (.part · .lo)) := by
  obtain ⟨t, first, u, final, read⟩ := constant_lo selects word lower (isImmediate_retag pos depth shape) follows last
  obtain ⟨t, -, rfl⟩ := List.mem_map.mp first
  obtain ⟨u, -, rfl⟩ := List.mem_map.mp final
  exact read

end Immediate

section Formats

variable {r comma : Token} (register : r.kind = .register) (parted : comma.kind = .comma)
  (rest : List Token) (last : Position)
include register

theorem register_found : Reader.register ⟨r :: rest, last⟩ = .ok (r.number.toUInt8, ⟨rest, r.pos⟩) := by
  simp [Reader.register, Reader.expect, Reader.next, register, bind, StateT.bind, Except.bind, pure,
    StateT.pure, Except.pure]

theorem operands_reg : Reader.operands .reg ⟨r :: rest, last⟩ = .ok (.reg r.number.toUInt8, ⟨rest, r.pos⟩) := by
  simp only [Reader.operands, bind, StateT.bind, Except.bind, register_found register]
  rfl

include parted

private theorem register_comma {α : Type} (next : UInt8 → Reader α) :
    (do let index ← Reader.register; let _ ← Reader.expect .comma; next index : Reader α) ⟨r :: comma :: rest, last⟩ =
      next r.number.toUInt8 ⟨rest, comma.pos⟩ := by
  simp [Reader.register, Reader.expect, Reader.next, register, parted, bind, StateT.bind,
    Except.bind, pure, StateT.pure,
    Except.pure]

theorem operands_regImm : Reader.operands .regImm ⟨r :: comma :: rest, last⟩ =
    (Reader.constant ⟨rest, comma.pos⟩).map fun (c, cursor) => (.regImm r.number.toUInt8 c, cursor) := by
  rw [Reader.operands, register_comma register parted]
  simp only [bind, StateT.bind, Except.bind]
  cases Reader.constant ⟨rest, comma.pos⟩ <;> rfl

theorem operands_regRegReg {r₁ r₂ comma' : Token} (second : r₁.kind = .register) (parted' : comma'.kind = .comma)
    (third : r₂.kind = .register) : Reader.operands .regRegReg ⟨r :: comma :: r₁ :: comma' :: r₂ :: rest, last⟩ =
      .ok (.regRegReg r.number.toUInt8 r₁.number.toUInt8 r₂.number.toUInt8, ⟨rest, r₂.pos⟩) := by
  rw [Reader.operands, register_comma register parted]
  rw [register_comma second parted']
  simp only [bind, StateT.bind, Except.bind, register_found third]
  rfl

theorem operands_regMem {base bracket number bracket' : Token} (second : base.kind = .register)
    (opened : bracket.kind = .leftBracket) (literal : number.kind = .immediate)
    (closed : bracket'.kind = .rightBracket) :
    Reader.operands .regMem ⟨r :: comma :: base :: bracket :: number :: bracket' :: rest, last⟩ =
      .ok (.regMem r.number.toUInt8 base.number.toUInt8 (.number number.number), ⟨rest, bracket'.pos⟩) := by
  rw [Reader.operands, register_comma register parted]
  simp [Reader.register, Reader.expect, Reader.constant, Reader.plainConstant, Reader.next, second,
    opened, literal, closed,
    bind, StateT.bind, Except.bind, pure, StateT.pure, Except.pure]

end Formats

inductive Operand
  | register (index : UInt8)
  | constant (value : Constant)
  | memory (base : UInt8) (offset : Constant)
deriving DecidableEq

/-- Takes an operand of a kind. -/
def OperandKind.reader : OperandKind → Reader Operand
  | register => return .register (← Reader.register)
  | immediate => return .constant (← Reader.constant)
  | memory => do
    let base ← Reader.register
    let _ ← Reader.expect .leftBracket
    let offset ← Reader.constant
    let _ ← Reader.expect .rightBracket
    return .memory base offset

/-- The values of operands of kinds, each read from its own tokens after a mnemonic at `pos`. -/
def readOperands (pos : Position) : List OperandKind → List (List Token) → Except Error (List Operand)
  | kind :: kinds, ts :: more => do
    let (operand, _) ← kind.reader ⟨ts, pos⟩
    return operand :: (← readOperands pos kinds more)
  | _, _ => return []

@[simp] theorem readOperands_nil (pos : Position) : readOperands pos [] [] = .ok [] := rfl
theorem readOperands_register {t : Token} (register : t.kind = .register) (pos : Position) (kinds : List OperandKind)
    (more : List (List Token)) :
    readOperands pos (.register :: kinds) ([t] :: more) = (readOperands pos kinds more).map
      (.register t.number.toUInt8 :: ·) := by
  simp only [readOperands, OperandKind.reader, Reader.register, Reader.expect, Reader.next,
    register, bind, StateT.bind,
    Except.bind, pure, StateT.pure, Except.pure, if_true]
  cases readOperands pos kinds more <;> rfl

theorem readOperands_constant {ts : List Token} {value : Except RangeFault Constant} (shape : IsImmediate ts value)
    (pos : Position) :
    ∃ t ∈ ts, readOperands pos [.immediate] [ts] =
      (value.map fun c => [.constant c]).mapError fun fault => ⟨.outOfRange fault, t.pos⟩ := by
  have follows : Follows [] := by simp [Follows]
  obtain ⟨t, first, u, -, read⟩ := constant_immediate shape follows pos
  rw [List.append_nil] at read
  refine ⟨t, first, ?_⟩
  simp only [readOperands, OperandKind.reader, bind, StateT.bind, Except.bind, read]
  cases value <;> rfl

end Bisc
