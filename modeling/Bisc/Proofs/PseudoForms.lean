import Bisc.Proofs.Unfolding

/-!
The forms of the pseudo-instructions: the templates of all of them as pieces, and the real
instructions that each is short for.
-/
namespace Bisc

variable {pos : Position} {depth : Nat} {body : List Token} {readLines : List Token → Run Step}

/-! ## Templates -/

namespace Token

-- The fixed tokens of the templates.
def comma : Token := fixed .comma "," none
def real (raw : String) (code : UInt8) : Token := fixed .opcode raw (some code.toUInt32)
def pseudo (raw : String) : Token := fixed .pseudoOp raw none
def register (raw : String) (index : UInt8) : Token := fixed .register raw (some index.toUInt32)
def literal (raw : String) (value : UInt32) : Token := fixed .immediate raw (some value)
def dot : Token := fixed .directive "." none
def lower : Token := fixed .identifier "lo" none
def leftBracket : Token := fixed .leftBracket "[" none
def rightBracket : Token := fixed .rightBracket "]" none

@[simp] theorem comma_kind : comma.kind = .comma := rfl
@[simp] theorem real_kind (raw : String) (code : UInt8) : (real raw code).kind = .opcode := rfl
@[simp] theorem pseudo_kind (raw : String) : (pseudo raw).kind = .pseudoOp := rfl
@[simp] theorem register_kind (raw : String) (index : UInt8) : (register raw index).kind = .register := rfl
@[simp] theorem literal_kind (raw : String) (value : UInt32) : (literal raw value).kind = .immediate := rfl
@[simp] theorem dot_kind : dot.kind = .directive := rfl
@[simp] theorem lower_kind : lower.kind = .identifier := rfl
@[simp] theorem leftBracket_kind : leftBracket.kind = .leftBracket := rfl
@[simp] theorem rightBracket_kind : rightBracket.kind = .rightBracket := rfl

end Token

namespace Piece

/-- The register that a template uses by itself. -/
def scratch : Piece := .token (.register "at" 1)
/-- The template line that loads an operand. -/
def load (target operand : Piece) : List Piece := [.token (.pseudo "li"), target, .token .comma, operand]
/-- The template line of an instruction on the scratch register. -/
def onScratch (name : String) : List Piece := [.token (.pseudo name), scratch]
/-- The template line of an access to the address in the scratch register. -/
def access (name : String) : List Piece :=
  [.token (.pseudo name), .slot 0, .token .comma, scratch, .token .leftBracket, .token (.literal "0" 0),
    .token .rightBracket]
/-- The template line of an operation with the scratch register. -/
def operation (name : String) : List Piece :=
  [.token (.pseudo name), .slot 0, .token .comma, .slot 1, .token .comma, scratch]
/-- The template line of an operation with one. -/
def byOne (name : String) (code : UInt8) : List Piece :=
  [.token (.real name code), .slot 0, .token .comma, .token (.literal "1" 1)]

end Piece

open Piece in
/-- The pseudo-instructions with their signatures and the pieces of their templates. -/
def shapes : List (String × List OperandKind × List (List Piece)) := [
  ("li", [.register, .immediate], [
    [.token (.real "lli" 0x10), .slot 0, .token .comma, .token .dot, .token .lower, .slot 1],
    [.token (.real "lui" lui), .slot 0, .token .comma, .slot 1]]),
  ("mov", [.register, .immediate], [load (.slot 0) (.slot 1)]),
  ("call", [.immediate], [load scratch (.slot 0), onScratch "call"]),
  ("jmp", [.immediate], [load scratch (.slot 0), onScratch "jmp"]),
  ("goto", [.immediate], [[.token (.pseudo "jmp"), .slot 0]]),
  ("push", [.immediate], [load scratch (.slot 0), onScratch "push"]),
  ("ld", [.register, .immediate], [load scratch (.slot 1), access "ld"]),
  ("st", [.register, .immediate], [load scratch (.slot 1), access "st"]),
  ("add", [.register, .register, .immediate], [load scratch (.slot 2), operation "add"]),
  ("sub", [.register, .register, .immediate], [load scratch (.slot 2), operation "sub"]),
  ("inc", [.register], [byOne "addi" 0x12]),
  ("dec", [.register], [byOne "subi" 0x13]),
  ("clr", [.register], [[.token (.real "xor" 0x37), .slot 0, .token .comma, .slot 0, .token .comma, .slot 0]]),
  ("exit", [], [[.token (.real "halt" 0x01)]]),
  ("exit", [.immediate], [load (.token (.register "a0" 2)) (.slot 0), [.token (.real "halt" 0x01)]])]

theorem pseudoTable_shapes : pseudoTable.map (fun e => (e.1, e.2.signature, e.2.shape)) = shapes := by decide +kernel

theorem shape_of_listed {name : String} {form : PseudoForm} (listed : (name, form) ∈ pseudoTable) :
    (name, form.signature, form.shape) ∈ shapes := by
  rw [← pseudoTable_shapes]
  exact List.mem_map.mpr ⟨_, listed, rfl⟩

private theorem exists_form {name : String} {kinds : List OperandKind} {shape : List (List Piece)}
    (entry : (name, kinds, shape) ∈ shapes) :
    ∃ form, (name, form) ∈ pseudoTable ∧ form.signature = kinds ∧ form.shape = shape := by
  rw [← pseudoTable_shapes] at entry
  obtain ⟨e, listed, same⟩ := List.mem_map.mp entry
  cases same
  exact ⟨e.2, listed, rfl, rfl⟩

/-! ## Loading a constant -/

/-- The instructions that put a constant into a register: its lower half, then its upper half. -/
def loadConstant (r : UInt8) (c : Constant) : List Instruction :=
  [⟨0x10, .regImm r (.part c .lo)⟩, ⟨lui, .regImm r c⟩]

private theorem follows_separator (pos : Position) (depth : Nat) : Follows [Token.separator pos depth] := by
  intro t here
  cases here
  simp [Token.separator]

section Load

variable {r : Token} {ts : List Token} {value : Except RangeFault Constant} (register : r.kind = .register)
  (shape : IsImmediate ts value)
include register shape

theorem readTokens_li (n : Nat) :
    readTokens bisc (n + 1) ([Token.real "lli" 0x10 :: r :: .comma :: .dot :: .lower :: ts,
      Token.real "lui" lui :: r :: .comma :: ts].flatMap (Token.produced pos depth)) =
        emitted pos (value.map (loadConstant r.number.toUInt8)) := by
  have own := code_of_isImmediate shape
  have half : ∀ t ∈ Token.dot :: Token.lower :: ts, t.kind.isCode := by simpa [TokenKind.isCode] using own
  have first : ∀ t ∈ Token.real "lli" 0x10 :: r :: .comma :: .dot :: .lower :: ts, t.kind.isCode := by
    simpa [register, TokenKind.isCode] using own
  have second : ∀ t ∈ Token.real "lui" lui :: r :: .comma :: ts, t.kind.isCode := by
    simpa [register, TokenKind.isCode] using own
  have follows := follows_separator pos depth
  have lower : Token.lower.name = "lo" := by decide
  have lli := @readLine_regImm pos depth _ (readTokens bisc n) (.real "lli" 0x10) r .comma ⟨0x10,
    "lli", .regImm⟩ (by decide)
    rfl rfl register rfl half _ (constant_lo_placed rfl rfl lower shape follows)
  have lui := @readLine_regImm pos depth _ (readTokens bisc n) (.real "lui" lui) r .comma ⟨lui,
    "lui", .regImm⟩ (by decide)
    rfl rfl register rfl own _ (constant_placed shape follows)
  rw [readTokens_produced pos depth n first, readTokens_produced pos depth n second, readTokens_none,
    Run.append_done, lli, lui]
  cases value <;> rfl

theorem unfolds_load (spelled : ∀ t ∈ r :: ts, t.WellSpelled bisc) (n : Nat) :
    Unfolds depth pos (readLine bisc (readTokens bisc (n + 1))
      (Token.produced pos depth (.pseudo "li" :: r :: .comma :: ts)))
      (value.map (loadConstant r.number.toUInt8)) := by
  obtain ⟨form, listed, signature, lines⟩ := @exists_form (Token.pseudo "li").name _ _ List.mem_cons_self
  have code : ∀ t ∈ r :: .comma :: ts, t.kind.isCode := by
    simpa [register, TokenKind.isCode] using code_of_isImmediate shape
  have again := isImmediate_retag pos depth shape
  have register' : (r.retag pos depth).kind = .register := register
  have comma' : (Token.comma.retag pos depth).kind = .comma := rfl
  have split := split_register_immediate register' comma' again
  have operands : AreOperands form.signature [[r.retag pos depth], ts.map (Token.retag pos depth)] :=
    signature ▸ .register register' (.immediate again .nil)
  rw [← signature] at split
  refine unfolds_line rfl code listed split operands ?_ (Nat.le_refl _) (.inl ?_)
  · intro a member u inside
    have : u ∈ (r :: ts).map (Token.retag pos depth) := by
      simp only [List.mem_cons, List.not_mem_nil, or_false] at member
      rcases member with rfl | rfl
      · exact List.mem_cons.mpr (.inl (List.mem_singleton.mp inside))
      · exact List.mem_cons_of_mem _ inside
    obtain ⟨v, own, rfl⟩ := List.mem_map.mp this
    exact Token.wellSpelled_retag pos depth (spelled v own)
  · have own : form.lines [[r.retag pos depth], ts.map (Token.retag pos depth)] =
        [.real "lli" 0x10 :: r.retag pos depth :: .comma :: .dot :: .lower :: ts.map (Token.retag pos depth),
          .real "lui" lui :: r.retag pos depth :: .comma :: ts.map (Token.retag pos depth)] := by
      simp [PseudoForm.lines, lines, Piece.tokens]
    rw [own, readTokens_li register' again n, emitted_edits, Token.retag_number]

/-- A constant is loaded before one more line. -/
theorem unfolds_load_then (spelled : ∀ t ∈ r :: ts, t.WellSpelled bisc) (code : ∀ t ∈ body, t.kind.isCode)
    {is : List Instruction} (n : Nat)
    (second : readLine bisc (readTokens bisc (n + 1)) (Token.produced pos depth body) = emitted pos (.ok is)) :
    Unfolds depth pos (readTokens bisc (n + 2) ([.pseudo "li" :: r :: .comma :: ts, body].flatMap
      (Token.produced pos depth)))
      (value.map fun c => loadConstant r.number.toUInt8 c ++ is) := by
  have first : ∀ t ∈ Token.pseudo "li" :: r :: .comma :: ts, t.kind.isCode := by
    simpa [register, TokenKind.isCode] using code_of_isImmediate shape
  rw [readTokens_produced pos depth _ first, readTokens_produced pos depth _ code, readTokens_none,
    Run.append_done, second]
  have both := (@unfolds_load pos depth _ _ _ register shape spelled n).append is
  cases value <;> exact both

end Load

/-! ## Lines after the load -/

section Real

variable {name : String} {op : Opcode} {r s : Token} (known : bisc.opcode? (Token.pseudo name).name = some op)
include known

/-- A line of a mnemonic that is a pseudo-instruction too, with the operands of the real instruction. -/
private theorem readLine_real (unmatched : ∀ form ∈ bisc.forms (Token.pseudo name).name,
      splitOperands form.signature (body.map (Token.retag pos depth)) = none)
    (code : ∀ t ∈ body, t.kind.isCode) {operands : Operands}
    (read : ∀ last, ∃ last', Reader.operands op.format ⟨Token.produced pos depth body, last⟩ =
      .ok (operands, ⟨[Token.separator pos depth], last'⟩)) :
    readLine bisc readLines (Token.produced pos depth (.pseudo name :: body)) =
    emitted pos (.ok [⟨op.code, operands⟩]) :=
  @readLine_instruction pos depth body readLines (.pseudo name) op known
    (.inr ⟨rfl, unmatched⟩) code (.ok operands) read

private theorem readLine_onScratch (format : op.format = .reg)
    (forms : ∀ form ∈ bisc.forms (Token.pseudo name).name, form.signature = [.immediate]) :
    readLine bisc readLines (Token.produced pos depth [.pseudo name, .register "at" 1]) =
    emitted pos (.ok [⟨op.code, .reg 1⟩]) := by
  refine readLine_real known (fun form member => ?_) (by simp [TokenKind.isCode]) fun last => ⟨pos, ?_⟩
  · simp [forms form member, splitOperands, OperandKind.length?, immediateLength?]
  · have register : ((Token.register "at" 1).retag pos depth).kind = .register := rfl
    rw [format]
    exact operands_reg register _ last

private theorem readLine_access (format : op.format = .regMem)
    (forms : ∀ form ∈ bisc.forms (Token.pseudo name).name, form.signature = [.register, .immediate])
    (register : r.kind = .register) :
    readLine bisc readLines
      (Token.produced pos depth [.pseudo name, r, .comma, .register "at" 1, .leftBracket,
        .literal "0" 0, .rightBracket]) =
        emitted pos (.ok [⟨op.code, .regMem r.number.toUInt8 1 (.number 0)⟩]) := by
  refine readLine_real known (fun form member => ?_) (by simp [register, TokenKind.isCode]) fun last => ⟨pos, ?_⟩
  · simp [forms form member, splitOperands, OperandKind.length?, immediateLength?, register]
  · have register' : (r.retag pos depth).kind = .register := register
    have comma : (Token.comma.retag pos depth).kind = .comma := rfl
    rw [format]
    exact operands_regMem register' comma _ last rfl rfl rfl rfl

private theorem readLine_operation (format : op.format = .regRegReg)
    (forms : ∀ form ∈ bisc.forms (Token.pseudo name).name, form.signature = [.register, .register, .immediate])
    (first : r.kind = .register) (second : s.kind = .register) :
    readLine bisc readLines (Token.produced pos depth [.pseudo name, r, .comma, s, .comma, .register "at" 1]) =
      emitted pos (.ok [⟨op.code, .regRegReg r.number.toUInt8 s.number.toUInt8 1⟩]) := by
  refine readLine_real known (fun form member => ?_) (by simp [first, second, TokenKind.isCode]) fun last => ⟨pos, ?_⟩
  · simp [forms form member, splitOperands, OperandKind.length?, immediateLength?, first, second]
  · have first' : (r.retag pos depth).kind = .register := first
    have second' : (s.retag pos depth).kind = .register := second
    have comma : (Token.comma.retag pos depth).kind = .comma := rfl
    rw [format]
    exact operands_regRegReg first' comma _ last second' comma rfl

end Real

section Plain

variable {r : Token} (register : r.kind = .register)

private theorem readLine_halt :
    readLine bisc readLines (Token.produced pos depth [.real "halt" 0x01]) = emitted pos (.ok [⟨0x01, .bare⟩]) :=
  @readLine_instruction pos depth [] readLines (.real "halt" 0x01) ⟨0x01, "halt",
    .bare⟩ (by decide) (.inl rfl) (by simp)
    (.ok .bare) fun last => ⟨last, rfl⟩

include register

private theorem readLine_byOne {name : String} {op : Opcode}
    (known : bisc.opcode? (Token.real name op.code).name = some op)
    (format : op.format = .regImm) :
    readLine bisc readLines (Token.produced pos depth [.real name op.code, r, .comma, .literal "1" 1]) =
      emitted pos (.ok [⟨op.code, .regImm r.number.toUInt8 (.number 1)⟩]) := by
  have one : IsImmediate [Token.literal "1" 1] (.ok (.number 1)) := .number rfl
  exact readLine_regImm known rfl format register rfl (by simp [TokenKind.isCode])
    (constant_placed one (follows_separator pos depth))

private theorem readLine_clear :
    readLine bisc readLines (Token.produced pos depth [.real "xor" 0x37, r, .comma, r, .comma, r]) =
      emitted pos (.ok [⟨0x37, .regRegReg r.number.toUInt8 r.number.toUInt8 r.number.toUInt8⟩]) := by
  have register' : (r.retag pos depth).kind = .register := register
  have comma : (Token.comma.retag pos depth).kind = .comma := rfl
  exact @readLine_instruction pos depth [r, .comma, r, .comma, r] readLines (.real "xor" 0x37)
    ⟨0x37, "xor", .regRegReg⟩
    (by decide) (.inl rfl) (by simp [register, TokenKind.isCode]) (.ok _) fun last =>
      ⟨pos, operands_regRegReg register' comma _ last register' comma register'⟩

end Plain

/-! ## Meanings -/

/-- The instruction of a real mnemonic. -/
def real? (mnemonic : String) (operands : Operands) : Option Instruction :=
  (bisc.opcode? mnemonic).map fun op => ⟨op.code, operands⟩

/-- The real instructions that a pseudo-instruction with operands is short for. Register 1 is `at`, and
    register 2 is `a0`. -/
def meaning? (name : String) : List Operand → Option (List Instruction)
  | [] => match name with
    | "exit" => return [← real? "halt" .bare]
    | _ => none
  | [.register r] => match name with
    | "inc" => return [← real? "addi" (.regImm r (.number 1))]
    | "dec" => return [← real? "subi" (.regImm r (.number 1))]
    | "clr" => return [← real? "xor" (.regRegReg r r r)]
    | _ => none
  | [.constant c] => match name with
    | "call" => return loadConstant 1 c ++ [← real? "call" (.reg 1)]
    | "jmp" => return loadConstant 1 c ++ [← real? "jmp" (.reg 1)]
    | "goto" => return loadConstant 1 c ++ [← real? "jmp" (.reg 1)]
    | "push" => return loadConstant 1 c ++ [← real? "push" (.reg 1)]
    | "exit" => return loadConstant 2 c ++ [← real? "halt" .bare]
    | _ => none
  | [.register r, .constant c] => match name with
    | "li" => some (loadConstant r c)
    | "mov" => some (loadConstant r c)
    | "ld" => return loadConstant 1 c ++ [← real? "ld" (.regMem r 1 (.number 0))]
    | "st" => return loadConstant 1 c ++ [← real? "st" (.regMem r 1 (.number 0))]
    | _ => none
  | [.register d, .register s, .constant c] => match name with
    | "add" => return loadConstant 1 c ++ [← real? "add" (.regRegReg d s 1)]
    | "sub" => return loadConstant 1 c ++ [← real? "sub" (.regRegReg d s 1)]
    | _ => none
  | _ => none

example (c : Constant) : meaning? "call" [.constant c] = some (loadConstant 1 c ++ [⟨0x0B, .reg 1⟩]) := by rfl
example (r : UInt8) : meaning? "clr" [.register r] = some [⟨0x37, .regRegReg r r r⟩] := by rfl

/-- The slice is not one or two bytes of a 32-bit value. -/
def RangeFault.IsSlice (fault : RangeFault) : Prop :=
  ∃ symbol first last, fault = .slice symbol first last ∧ (first > last ∨ last > 3 ∨ last.toNat - first.toNat > 1)

/-- What the operands of a pseudo-instruction are read as, and what it comes to with them. -/
def Means (name : String) (pos : Position) (kinds : List OperandKind) (arguments : List (List Token)) :
    Except RangeFault (List Instruction) → Prop
  | .ok is => ∃ operands, readOperands pos kinds arguments = .ok operands ∧ meaning? name operands = some is
  | .error fault => fault.IsSlice ∧ ∃ pos', readOperands pos kinds arguments = .error ⟨.outOfRange fault, pos'⟩

theorem isSlice_of_isImmediate {ts : List Token} {fault : RangeFault}
    (shape : IsImmediate ts (.error fault)) : fault.IsSlice := by
  generalize same : (.error fault : Except RangeFault Constant) = value at shape
  cases shape with
  | number => cases same
  | symbol => cases same
  | slice =>
    unfold sliceOf at same
    split at same
    · rename_i bad
      cases same
      exact ⟨_, _, _, rfl, bad⟩
    · cases same

private theorem means_of_constant (name : String) (rs : List Token)
    (registers : ∀ r ∈ rs, r.kind = .register) {ts : List Token}
    {value : Except RangeFault Constant} (shape : IsImmediate ts value) {f : Constant → List Instruction}
    (meaning : ∀ c, meaning? name (rs.map (fun r => .register r.number.toUInt8) ++ [.constant c]) = some (f c)) :
    Means name pos (rs.map (fun _ => .register) ++ [.immediate]) (rs.map (fun r => [r]) ++ [ts]) (value.map f) := by
  obtain ⟨t, -, last⟩ := readOperands_constant shape pos
  have read : readOperands pos (rs.map (fun _ => .register) ++ [.immediate]) (rs.map (fun r => [r]) ++ [ts]) =
      (value.map fun c => rs.map (fun r => .register r.number.toUInt8) ++ [.constant c]).mapError
        fun fault => ⟨.outOfRange fault, t.pos⟩ := by
    clear meaning
    induction rs with
    | nil => exact last
    | cons r rs ih =>
      rw [List.map_cons, List.map_cons, List.cons_append, List.cons_append,
        readOperands_register (registers r List.mem_cons_self),
        ih fun s member => registers s (List.mem_cons_of_mem _ member)]
      cases value <;> rfl
  cases value with
  | ok c => exact ⟨_, read, meaning c⟩
  | error fault => exact ⟨isSlice_of_isImmediate shape, t.pos, read⟩

private theorem wellSpelled_register {raw : String} {index : UInt8}
    (spelled : (Token.register raw index).spelled bisc) {ts : List Token}
    (operand : ∀ t ∈ ts, t.WellSpelled bisc) : ∀ t ∈ Token.register raw index :: ts, t.WellSpelled bisc := by
  intro t member
  rcases List.mem_cons.mp member with rfl | member
  · exact fun _ => spelled
  · exact operand t member

/-- The lines of a form come to the meaning of the pseudo-instruction, whatever the operands. -/
def FormCorrect (name : String) (kinds : List OperandKind) (shape : List (List Piece)) : Prop :=
  ∀ arguments, AreOperands kinds arguments → (∀ a ∈ arguments, ∀ u ∈ a, u.WellSpelled bisc) → ∀ pos depth n,
    ∃ result, Means name pos kinds arguments result ∧ Unfolds (depth + 1) pos
      (readTokens bisc (n + 3) ((shape.map (·.flatMap (Piece.tokens arguments))).flatMap
        (Token.produced pos depth))) result

theorem operands_immediate {arguments : List (List Token)} (operands : AreOperands [.immediate] arguments) :
    ∃ ts value, arguments = [ts] ∧ IsImmediate ts value := by
  cases operands with
  | immediate shape rest =>
    cases rest
    exact ⟨_, _, rfl, shape⟩
theorem operands_register {kinds : List OperandKind} {arguments : List (List Token)}
    (operands : AreOperands (.register :: kinds) arguments) :
    ∃ r more, arguments = [r] :: more ∧ r.kind = .register ∧ AreOperands kinds more := by
  cases operands with
  | register register rest => exact ⟨_, _, rfl, register, rest⟩

section Correct

variable {name : String} {op : Opcode}

private theorem formCorrect_li : FormCorrect "li" [.register, .immediate] [
    [.token (.real "lli" 0x10), .slot 0, .token .comma, .token .dot, .token .lower, .slot 1],
    [.token (.real "lui" lui), .slot 0, .token .comma, .slot 1]] := by
  intro arguments operands spelled pos depth n
  obtain ⟨r, more, rfl, register, rest⟩ := operands_register operands
  obtain ⟨ts, value, rfl, shape⟩ := operands_immediate rest
  refine ⟨value.map (loadConstant r.number.toUInt8),
    means_of_constant "li" [r] (by simpa using register) shape fun c => rfl, .inl ?_⟩
  have lines := @readTokens_li pos depth r ts value register shape (n + 2)
  simp only [List.map_cons, List.map_nil, List.flatMap_cons, List.flatMap_nil, Piece.tokens,
    List.cons_append, List.nil_append,
    List.getD_cons_zero, List.getD_cons_succ, List.append_nil] at lines ⊢
  rw [lines, emitted_edits]

private theorem formCorrect_mov : FormCorrect "mov" [.register, .immediate] [Piece.load (.slot 0) (.slot 1)] := by
  intro arguments operands spelled pos depth n
  obtain ⟨r, more, rfl, register, rest⟩ := operands_register operands
  obtain ⟨ts, value, rfl, shape⟩ := operands_immediate rest
  refine ⟨value.map (loadConstant r.number.toUInt8),
    means_of_constant "mov" [r] (by simpa using register) shape fun c => rfl, ?_⟩
  have words : ∀ t ∈ r :: ts, t.WellSpelled bisc := by simpa using spelled
  have code : ∀ t ∈ Token.pseudo "li" :: r :: .comma :: ts, t.kind.isCode := by
    simpa [register, TokenKind.isCode] using code_of_isImmediate shape
  have line := @unfolds_load pos depth r ts value register shape words (n + 1)
  have lines := readTokens_produced pos depth (n + 2) code []
  rw [readTokens_none, Run.append_done] at lines
  have same : [Piece.load (.slot 0) (.slot 1)].map (·.flatMap (Piece.tokens [[r], ts])) =
      [.pseudo "li" :: r :: .comma :: ts] := by
    simp [Piece.load, Piece.tokens]
  rw [same, lines]
  exact line.mono (Nat.le_succ depth)

/-- A constant is loaded, and one more instruction follows. -/
private theorem formCorrect_then (rs : List Token) (registers : ∀ r ∈ rs, r.kind = .register) {ts : List Token}
    {value : Except RangeFault Constant} (shape : IsImmediate ts value) {r : Token} (target : r.kind = .register)
    (spelled : ∀ t ∈ r :: ts, t.WellSpelled bisc) (code : ∀ t ∈ body, t.kind.isCode) {is : List Instruction} (n : Nat)
    (second : readLine bisc (readTokens bisc (n + 2)) (Token.produced pos depth body) = emitted pos (.ok is))
    (meaning : ∀ c, meaning? name (rs.map (fun r => .register r.number.toUInt8) ++ [.constant c]) =
      some (loadConstant r.number.toUInt8 c ++ is)) :
    ∃ result, Means name pos (rs.map (fun _ => .register) ++ [.immediate]) (rs.map (fun r => [r]) ++ [ts]) result ∧
      Unfolds (depth + 1) pos
        (readTokens bisc (n + 3) ([.pseudo "li" :: r :: .comma :: ts, body].flatMap
          (Token.produced pos depth))) result :=
  ⟨_, means_of_constant name rs registers shape meaning,
    (unfolds_load_then target shape spelled code (n + 1) second).mono (Nat.le_succ depth)⟩

private theorem scratch_spelled {ts : List Token} (operand : ∀ t ∈ ts, t.WellSpelled bisc) :
    ∀ t ∈ Token.register "at" 1 :: ts, t.WellSpelled bisc := wellSpelled_register (by decide) operand

/-- What is known of a real mnemonic whose name is a pseudo-instruction too. -/
private structure Shared (name : String) (op : Opcode) (format : Format) (kinds : List OperandKind) : Prop where
  known : bisc.opcode? (Token.pseudo name).name = some op
  format : op.format = format
  forms : ∀ form ∈ bisc.forms (Token.pseudo name).name, form.signature = kinds

private theorem formCorrect_onScratch (shared : Shared name op .reg [.immediate])
    (meaning : ∀ c, meaning? name [.constant c] = some (loadConstant 1 c ++ [⟨op.code, .reg 1⟩])) :
    FormCorrect name [.immediate] [Piece.load Piece.scratch (.slot 0), Piece.onScratch name] := by
  intro arguments operands spelled pos depth n
  obtain ⟨ts, value, rfl, shape⟩ := operands_immediate operands
  have lines : [Piece.load Piece.scratch (.slot 0), Piece.onScratch name].map (·.flatMap (Piece.tokens [ts])) =
      [.pseudo "li" :: .register "at" 1 :: .comma :: ts, [.pseudo name, .register "at" 1]] := by
    simp [Piece.load, Piece.onScratch, Piece.scratch, Piece.tokens]
  rw [lines]
  exact formCorrect_then [] (by simp) shape rfl (scratch_spelled (by simpa using spelled))
    (by simp [TokenKind.isCode]) n
    (readLine_onScratch shared.known shared.format shared.forms) meaning

private theorem formCorrect_access (shared : Shared name op .regMem [.register, .immediate])
    (meaning : ∀ r c, meaning? name [.register r, .constant c] =
      some (loadConstant 1 c ++ [⟨op.code, .regMem r 1 (.number 0)⟩])) :
    FormCorrect name [.register, .immediate] [Piece.load Piece.scratch (.slot 1), Piece.access name] := by
  intro arguments operands spelled pos depth n
  obtain ⟨r, more, rfl, register, rest⟩ := operands_register operands
  obtain ⟨ts, value, rfl, shape⟩ := operands_immediate rest
  have words : ∀ t ∈ ts, t.WellSpelled bisc := spelled ts (by simp)
  have lines : [Piece.load Piece.scratch (.slot 1), Piece.access name].map (·.flatMap (Piece.tokens [[r], ts])) =
      [.pseudo "li" :: .register "at" 1 :: .comma :: ts,
        [.pseudo name, r, .comma, .register "at" 1, .leftBracket, .literal "0" 0, .rightBracket]] := by
    simp [Piece.load, Piece.access, Piece.scratch, Piece.tokens]
  rw [lines]
  exact formCorrect_then [r] (by simpa using register) shape rfl (scratch_spelled words)
    (by simp [register, TokenKind.isCode]) n
    (readLine_access shared.known shared.format shared.forms register) (meaning _)

private theorem formCorrect_operation (shared : Shared name op .regRegReg [.register, .register, .immediate])
    (meaning : ∀ d s c, meaning? name [.register d, .register s, .constant c] =
      some (loadConstant 1 c ++ [⟨op.code, .regRegReg d s 1⟩])) :
    FormCorrect name [.register, .register, .immediate] [Piece.load Piece.scratch (.slot 2),
      Piece.operation name] := by
  intro arguments operands spelled pos depth n
  obtain ⟨d, more, rfl, first, rest⟩ := operands_register operands
  obtain ⟨s, more, rfl, second, rest⟩ := operands_register rest
  obtain ⟨ts, value, rfl, shape⟩ := operands_immediate rest
  have words : ∀ t ∈ ts, t.WellSpelled bisc := spelled ts (by simp)
  have lines : [Piece.load Piece.scratch (.slot 2), Piece.operation name].map
      (·.flatMap (Piece.tokens [[d], [s], ts])) =
      [.pseudo "li" :: .register "at" 1 :: .comma :: ts, [.pseudo name, d, .comma, s, .comma, .register "at" 1]] := by
    simp [Piece.load, Piece.operation, Piece.scratch, Piece.tokens]
  rw [lines]
  exact formCorrect_then [d, s] (by simp [first, second]) shape rfl (scratch_spelled words)
    (by simp [first, second, TokenKind.isCode]) n
    (readLine_operation shared.known shared.format shared.forms first second) (meaning _ _)

private theorem formCorrect_exitWith :
    FormCorrect "exit" [.immediate] [Piece.load (.token (.register "a0" 2)) (.slot 0),
      [.token (.real "halt" 0x01)]] := by
  intro arguments operands spelled pos depth n
  obtain ⟨ts, value, rfl, shape⟩ := operands_immediate operands
  have lines : [Piece.load (.token (.register "a0" 2)) (.slot 0), [.token (.real "halt" 0x01)]].map
      (·.flatMap (Piece.tokens [ts])) =
      [.pseudo "li" :: .register "a0" 2 :: .comma :: ts, [.real "halt" 0x01]] := by
    simp [Piece.load, Piece.tokens]
  rw [lines]
  exact formCorrect_then [] (by simp) shape rfl (wellSpelled_register (by decide) (by simpa using spelled))
    (by simp [TokenKind.isCode]) n readLine_halt fun c => rfl

/-- A jump to a constant by its other name, one level deeper. -/
private theorem formCorrect_goto (jump : Shared "jmp" ⟨0x0A, "jmp", .reg⟩ .reg [.immediate]) :
    FormCorrect "goto" [.immediate] [[.token (.pseudo "jmp"), .slot 0]] := by
  intro arguments operands spelled pos depth n
  obtain ⟨ts, value, rfl, shape⟩ := operands_immediate operands
  have words : ∀ t ∈ ts.map (Token.retag pos depth), t.WellSpelled bisc := by
    intro t member
    obtain ⟨u, inside, rfl⟩ := List.mem_map.mp member
    exact Token.wellSpelled_retag pos depth (spelled ts (by simp) u inside)
  have code : ∀ t ∈ Token.pseudo "jmp" :: ts, t.kind.isCode := by
    simpa [TokenKind.isCode] using code_of_isImmediate shape
  have again := isImmediate_retag pos depth shape
  obtain ⟨form, listed, signature, shapes⟩ := @exists_form (Token.pseudo "jmp").name [.immediate]
    [Piece.load Piece.scratch (.slot 0), Piece.onScratch "jmp"] (by decide)
  have deeper : form.lines [ts.map (Token.retag pos depth)] =
      [.pseudo "li" :: .register "at" 1 :: .comma :: ts.map (Token.retag pos depth),
        [.pseudo "jmp", .register "at" 1]] := by
    simp [PseudoForm.lines, shapes, Piece.load, Piece.onScratch, Piece.scratch, Piece.tokens]
  have jumped := unfolds_load_then (r := Token.register "at" 1) rfl again (scratch_spelled words)
    (by simp [TokenKind.isCode]) n
    (@readLine_onScratch pos (depth + 1) _ _ _ jump.known jump.format jump.forms)
  have line : Unfolds (depth + 1) pos
      (readLine bisc (readTokens bisc (n + 2)) (Token.produced pos depth (.pseudo "jmp" :: ts))) _ :=
    unfolds_line rfl (code_of_isImmediate shape) listed (signature ▸ split_immediate again)
      (signature ▸ .immediate again .nil)
      (by simpa using words) (Nat.le_succ depth) (deeper ▸ jumped)
  have lines : [[Piece.token (.pseudo "jmp"), .slot 0]].map (·.flatMap (Piece.tokens [ts])) =
      [.pseudo "jmp" :: ts] := by
    simp [Piece.tokens]
  refine ⟨_, means_of_constant "goto" [] (by simp) shape fun c => rfl, ?_⟩
  rw [lines, readTokens_produced pos depth (n + 2) code, readTokens_none, Run.append_done]
  exact line

private theorem means_of_register (name : String) {r : Token} (register : r.kind = .register) {is : List Instruction}
    (meaning : meaning? name [.register r.number.toUInt8] = some is) : Means name pos [.register] [[r]] (.ok is) :=
  ⟨_, by rw [readOperands_register register]; rfl, meaning⟩

private theorem unfolds_single (code : ∀ t ∈ body, t.kind.isCode) {is : List Instruction} (n : Nat)
    (line : readLine bisc (readTokens bisc n) (Token.produced pos depth body) = emitted pos (.ok is)) :
    Unfolds (depth + 1) pos (readTokens bisc (n + 1) ([body].flatMap (Token.produced pos depth))) (.ok is) := by
  refine .inl ?_
  rw [readTokens_produced pos depth n code, readTokens_none, Run.append_done, line, emitted_edits]

private theorem formCorrect_byOne {mnemonic : String}
    (known : bisc.opcode? (Token.real mnemonic op.code).name = some op)
    (format : op.format = .regImm)
    (meaning : ∀ r, meaning? name [.register r] = some [⟨op.code, .regImm r (.number 1)⟩]) :
    FormCorrect name [.register] [Piece.byOne mnemonic op.code] := by
  intro arguments operands spelled pos depth n
  obtain ⟨r, more, rfl, register, rest⟩ := operands_register operands
  cases rest
  refine ⟨_, means_of_register name register (meaning _), ?_⟩
  exact unfolds_single (by simp [Piece.byOne, Piece.tokens, register, TokenKind.isCode]) (n + 2)
    (readLine_byOne register known format)

private theorem formCorrect_clr :
    FormCorrect "clr" [.register] [[.token (.real "xor" 0x37), .slot 0, .token .comma, .slot 0,
      .token .comma, .slot 0]] := by
  intro arguments operands spelled pos depth n
  obtain ⟨r, more, rfl, register, rest⟩ := operands_register operands
  cases rest
  refine ⟨_, means_of_register "clr" register rfl, ?_⟩
  exact unfolds_single (by simp [Piece.tokens, register, TokenKind.isCode]) (n + 2) (readLine_clear register)

private theorem formCorrect_exit : FormCorrect "exit" [] [[.token (.real "halt" 0x01)]] := by
  intro arguments operands spelled pos depth n
  cases operands
  refine ⟨.ok [⟨0x01, .bare⟩], ⟨[], readOperands_nil pos, rfl⟩, ?_⟩
  exact unfolds_single (by simp [Piece.tokens, TokenKind.isCode]) (n + 2) readLine_halt

end Correct

theorem formCorrect_of_shapes {name : String} {kinds : List OperandKind} {shape : List (List Piece)}
    (entry : (name, kinds, shape) ∈ shapes) : FormCorrect name kinds shape := by
  have jump : Shared "jmp" ⟨0x0A, "jmp", .reg⟩ .reg [.immediate] := ⟨by decide, rfl, by decide⟩
  simp only [shapes, List.mem_cons, Prod.mk.injEq, List.not_mem_nil, or_false] at entry
  rcases entry with ⟨rfl, rfl, rfl⟩ | ⟨rfl, rfl, rfl⟩ | ⟨rfl, rfl, rfl⟩ | ⟨rfl, rfl, rfl⟩ | ⟨rfl, rfl, rfl⟩ |
    ⟨rfl, rfl, rfl⟩ | ⟨rfl, rfl, rfl⟩ | ⟨rfl, rfl, rfl⟩ | ⟨rfl, rfl, rfl⟩ | ⟨rfl, rfl, rfl⟩ | ⟨rfl, rfl, rfl⟩ |
    ⟨rfl, rfl, rfl⟩ | ⟨rfl, rfl, rfl⟩ | ⟨rfl, rfl, rfl⟩ | ⟨rfl, rfl, rfl⟩
  · exact formCorrect_li
  · exact formCorrect_mov
  · exact @formCorrect_onScratch "call" ⟨0x0B, "call", .reg⟩ ⟨by decide, rfl, by decide⟩ fun c => rfl
  · exact formCorrect_onScratch jump fun c => rfl
  · exact formCorrect_goto jump
  · exact @formCorrect_onScratch "push" ⟨0x08, "push", .reg⟩ ⟨by decide, rfl, by decide⟩ fun c => rfl
  · exact @formCorrect_access "ld" ⟨0x20, "ld", .regMem⟩ ⟨by decide, rfl, by decide⟩ fun r c => rfl
  · exact @formCorrect_access "st" ⟨0x21, "st", .regMem⟩ ⟨by decide, rfl, by decide⟩ fun r c => rfl
  · exact @formCorrect_operation "add" ⟨0x30, "add", .regRegReg⟩ ⟨by decide, rfl, by decide⟩ fun d s c => rfl
  · exact @formCorrect_operation "sub" ⟨0x31, "sub", .regRegReg⟩ ⟨by decide, rfl, by decide⟩ fun d s c => rfl
  · exact @formCorrect_byOne "inc" ⟨0x12, "addi", .regImm⟩ "addi" (by decide) rfl fun r => rfl
  · exact @formCorrect_byOne "dec" ⟨0x13, "subi", .regImm⟩ "subi" (by decide) rfl fun r => rfl
  · exact formCorrect_clr
  · exact formCorrect_exit
  · exact formCorrect_exitWith

/-- A mnemonic whose arguments are in one of its forms is read as its meaning. -/
theorem unfolds_pseudo {t : Token} {rest : List Token} {form : PseudoForm} (listed : (t.name, form) ∈ pseudoTable)
    {arguments : List (List Token)}
    (split : splitOperands form.signature (Token.uncommented (Token.line rest)) = some arguments)
    (spelled : ∀ u ∈ rest, u.WellSpelled bisc) (n : Nat) :
    ∃ result, Means t.name t.pos form.signature arguments result ∧
      Unfolds (t.depth + 2) t.pos (readPseudo bisc (readTokens bisc (n + 3)) t rest) result := by
  have simple : ∀ entry ∈ pseudoTable, OperandKind.memory ∉ entry.2.signature := by decide
  obtain ⟨operands, inside⟩ := areOperands_of_split (simple _ listed) split
  have words : ∀ a ∈ arguments, ∀ u ∈ a, u.WellSpelled bisc := by
    intro a member u own
    have line := (List.mem_filter.mp (inside a member own)).1
    exact spelled u ((List.takeWhile_sublist _).subset line)
  obtain ⟨result, means, lines⟩ :=
    formCorrect_of_shapes (shape_of_listed listed) arguments operands words t.pos (t.depth + 1) n
  exact ⟨result, means, unfolds_readPseudo listed split operands words (by omega) lines⟩

end Bisc
