import Bisc.Proofs.FormMatching
import Bisc.Proofs.Lines

/-!
What the lines of a pseudo-instruction are read as. The lines of a form are read one after the other
at the place of its mnemonic, down to lines of real instructions.
-/
namespace Bisc

/-- The steps that add instructions at a place, or the error of a slice there. -/
def emitted (pos : Position) : Except RangeFault (List Instruction) → Run Step
  | .ok is => ⟨is.map fun i => .item { node := .instruction i, pos }, none⟩
  | .error fault => .fail ⟨.outOfRange fault, pos⟩

@[simp] theorem emitted_edits (pos : Position) (result : Except RangeFault (List Instruction)) :
    (emitted pos result).edits = emitted pos result := by
  cases result with
  | error fault => rfl
  | ok is =>
    have all : (is.map fun i => Step.item { node := .instruction i, pos }).filter (fun s => !s.isUnfolding) =
        is.map fun i => .item { node := .instruction i, pos } := by
      simp [List.filter_eq_self, Step.isUnfolding]
    simp only [emitted, Run.edits, all]

theorem emitted_append (pos : Position) (result : Except RangeFault (List Instruction)) (is : List Instruction) :
    emitted pos result ++ emitted pos (.ok is) = emitted pos (result.map (· ++ is)) := by
  cases result with
  | error fault => rfl
  | ok before =>
    change (⟨_ ++ _, none⟩ : Run Step) = _
    simp [emitted, Except.map]

/-! ## Lines of real instructions -/

variable {pos : Position} {depth : Nat} {body : List Token} {readLines : List Token → Run Step}

theorem line_produced (pos : Position) (depth : Nat) (code : ∀ t ∈ body, t.kind.isCode) :
    Token.line (Token.produced pos depth body) = body.map (Token.retag pos depth) ∧
      Token.afterLine (Token.produced pos depth body) = [Token.separator pos depth] ∧
      Token.uncommented (body.map (Token.retag pos depth)) = body.map (Token.retag pos depth) := by
  have inline : ∀ t ∈ body.map (Token.retag pos depth), (!t.isSeparator) = true := by
    intro t member
    obtain ⟨u, inside, rfl⟩ := List.mem_map.mp member
    simpa using Token.isSeparator_of_isCode (code u inside)
  refine ⟨?_, ?_, ?_⟩
  · rw [Token.line, Token.produced, List.takeWhile_append_of_pos inline]
    simp [Token.isSeparator, Token.separator]
  · rw [Token.afterLine, Token.produced, List.dropWhile_append_of_pos inline]
    simp [Token.isSeparator, Token.separator]
  · rw [Token.uncommented, List.filter_eq_self]
    intro t member
    obtain ⟨u, inside, rfl⟩ := List.mem_map.mp member
    have := code u inside
    cases kind : u.kind <;> simp_all [Token.isComment, Token.retag, TokenKind.isCode]

private theorem statement_found {mnemonic : Token} {op : Opcode}
    (known : bisc.opcode? mnemonic.name = some op) {c : Cursor}
    {stop : Token} (ends : stop.isSeparator) {last : Position} {value : Except RangeFault Operands}
    (read : Reader.operands op.format c = Reader.found mnemonic.pos last [stop] value) :
    Reader.statement (instructionStep bisc mnemonic) c = emitted mnemonic.pos
      (value.map fun o => [⟨op.code, o⟩]) := by
  have plain : stop.isComment = false := by
    simp_all [Token.isSeparator, Token.isComment]
  cases value with
  | error fault =>
    simp only [Reader.statement, instructionStep, Reader.instruction, known, bind, StateT.bind, Except.bind, read,
      Reader.found]
    rfl
  | ok o =>
    simp only [Reader.statement, instructionStep, Reader.instruction, known, bind, StateT.bind, Except.bind, read,
      Reader.found, pure, StateT.pure, Except.pure, Reader.endOfLine, plain, ends,
        Bool.false_eq_true, if_false, if_true]
    rfl

theorem matchForm?_eq_none {forms : List PseudoForm} {ts : List Token} :
    matchForm? forms ts = none ↔ ∀ form ∈ forms, splitOperands form.signature ts = none := by
  rw [matchForm?, List.findSome?_eq_none_iff]
  simp [PseudoForm.operands?]

/-- A line of a real instruction. Its mnemonic may be a pseudo-instruction too, as long as no form takes
    the operands. -/
theorem readLine_instruction {mnemonic : Token} {op : Opcode} (known : bisc.opcode? mnemonic.name = some op)
    (real : mnemonic.kind = .opcode ∨ mnemonic.kind = .pseudoOp ∧ ∀ form ∈ bisc.forms mnemonic.name,
      splitOperands form.signature (body.map (Token.retag pos depth)) = none)
    (code : ∀ t ∈ body, t.kind.isCode) {value : Except RangeFault Operands}
    (read : ∀ last, ∃ last', Reader.operands op.format ⟨Token.produced pos depth body, last⟩ =
      Reader.found pos last' [Token.separator pos depth] value) :
    readLine bisc readLines (Token.produced pos depth (mnemonic :: body)) =
      emitted pos (value.map fun o => [⟨op.code, o⟩]) := by
  have statement (last : Position) : Reader.statement (instructionStep bisc (mnemonic.retag pos depth))
      ⟨Token.produced pos depth body, last⟩ = emitted pos (value.map fun o => [⟨op.code, o⟩]) := by
    obtain ⟨last', read⟩ := read last
    have known' : bisc.opcode? (mnemonic.retag pos depth).name = some op := known
    exact statement_found known' rfl read
  rw [Token.produced_cons]
  rcases real with real | ⟨pseudo, unmatched⟩
  · rw [readLine_opcode _ (by simpa using real)]
    exact statement _
  · obtain ⟨line, after, plain⟩ := line_produced pos depth code
    have none := matchForm?_eq_none.mpr unmatched
    rw [readLine_pseudoOp _ (by simpa using pseudo), readPseudo, line, after, plain]
    simp only [Token.retag_name, none, known, Option.isSome_some, if_true, List.take_one, List.head?_cons,
      Option.toList_some]
    exact statement _

/-- A line of an instruction with a register and a constant. -/
theorem readLine_regImm {mnemonic r comma : Token} {op : Opcode} (known : bisc.opcode? mnemonic.name = some op)
    (real : mnemonic.kind = .opcode) (format : op.format = .regImm) (register : r.kind = .register)
    (parted : comma.kind = .comma) (code : ∀ t ∈ body, t.kind.isCode) {value : Except RangeFault Constant}
    (read : ∀ last, Reader.constant ⟨Token.produced pos depth body, last⟩ =
      Reader.found pos pos [Token.separator pos depth] value) :
    readLine bisc readLines (Token.produced pos depth (mnemonic :: r :: comma :: body)) =
      emitted pos (value.map fun c => [⟨op.code, .regImm r.number.toUInt8 c⟩]) := by
  have all : ∀ t ∈ r :: comma :: body, t.kind.isCode := by simpa [register, parted, TokenKind.isCode] using code
  have operands (last : Position) :
      ∃ last', Reader.operands op.format ⟨Token.produced pos depth (r :: comma :: body), last⟩ =
      Reader.found pos last' [Token.separator pos depth] (value.map (.regImm r.number.toUInt8 ·)) := by
    refine ⟨pos, ?_⟩
    rw [format, Token.produced_cons, Token.produced_cons,
      operands_regImm (by simpa using register) (by simpa using parted), read]
    cases value <;> rfl
  rw [readLine_instruction known (.inl real) all operands]
  cases value <;> rfl

/-! ## Forms -/

/-- The steps are those of instructions, unless the mnemonic at `depth` was too deep to be unfolded. -/
def Unfolds (depth : Nat) (pos : Position) (r : Run Step) (result : Except RangeFault (List Instruction)) : Prop :=
  r.edits = emitted pos result ∨ maxDepth ≤ depth ∧ ∃ raw, r.edits = .fail ⟨.expansionDepth raw, pos⟩

namespace Unfolds

variable {r : Run Step} {result : Except RangeFault (List Instruction)}

theorem mono {depth' : Nat} (deeper : depth ≤ depth') (unfolds : Unfolds depth pos r result) :
    Unfolds depth' pos r result :=
  unfolds.imp_right fun ⟨deep, failed⟩ => ⟨Nat.le_trans deep deeper, failed⟩

theorem append (unfolds : Unfolds depth pos r result) (is : List Instruction) :
    Unfolds depth pos (r ++ emitted pos (.ok is)) (result.map (· ++ is)) := by
  rcases unfolds with exact | ⟨deep, raw, failed⟩
  · refine .inl ?_
    rw [Run.edits_append, exact, emitted_edits, emitted_append]
  · refine .inr ⟨deep, raw, ?_⟩
    rw [Run.edits_append, failed, Run.fail_append]

end Unfolds

private theorem matchForm?_of_first {forms : List PseudoForm} {form : PseudoForm}
    (member : form ∈ forms) {ts : List Token}
    {operands : List String} (taken : form.operands? ts = some operands)
    (earlier : ∀ f ∈ forms.takeWhile (· ≠ form), f.operands? ts = none) :
    matchForm? forms ts = some (form, operands) := by
  induction forms with
  | nil => cases member
  | cons f forms ih =>
    rw [matchForm?, List.findSome?_cons]
    by_cases same : f = form
    · simp [same, taken]
    · have later : form ∈ forms := (List.mem_cons.mp member).resolve_left (Ne.symm same)
      rw [List.takeWhile_cons_of_pos (by simpa using same)] at earlier
      simp only [earlier f List.mem_cons_self, Option.map_none]
      exact ih later fun g before => earlier g (List.mem_cons_of_mem _ before)

/-- The form that takes the arguments is the one meant: an earlier one takes none. -/
private theorem matchForm?_of_split {name : String} {form : PseudoForm}
    (listed : (name, form) ∈ pseudoTable) {ts : List Token}
    {arguments : List (List Token)} (split : splitOperands form.signature ts = some arguments) :
    matchForm? (bisc.forms name) ts = some (form, arguments.map Token.render) := by
  have table : ∀ entry ∈ pseudoTable, entry.2 ∈ bisc.forms entry.1 ∧
      ∀ f ∈ (bisc.forms entry.1).takeWhile (· ≠ entry.2), f.signature = [] ∧ entry.2.signature ≠ [] := by
    decide
  obtain ⟨member, earlier⟩ := table _ listed
  refine matchForm?_of_first member (by simp [PseudoForm.operands?, split]) fun f before => ?_
  obtain ⟨bare, takes⟩ := earlier f before
  cases ts with
  | nil =>
    cases signature : form.signature with
    | nil => exact absurd signature takes
    | cons kind kinds =>
      rw [signature] at split
      cases kind <;> simp [splitOperands, OperandKind.length?, immediateLength?] at split
  | cons t ts => simp [PseudoForm.operands?, bare, splitOperands]

/-- A mnemonic that is not too deep is read as the lines of its form. -/
theorem unfolds_readPseudo {t : Token} {rest : List Token} {form : PseudoForm} (listed : (t.name, form) ∈ pseudoTable)
    {arguments : List (List Token)}
    (split : splitOperands form.signature (Token.uncommented (Token.line rest)) = some arguments)
    (operands : AreOperands form.signature arguments) (spelled : ∀ a ∈ arguments, ∀ u ∈ a, u.WellSpelled bisc)
    {result : Except RangeFault (List Instruction)} (deeper : t.depth ≤ depth)
    (lines : Unfolds depth t.pos
      (readLines ((form.lines arguments).flatMap (Token.produced t.pos (t.depth + 1)))) result) :
    Unfolds depth t.pos (readPseudo bisc readLines t rest) result := by
  have registers : ∀ entry ∈ pseudoTable, OperandKind.immediate ∉ entry.2.signature.dropLast := by decide
  have fillable := fillable_of_areOperands operands (registers _ listed) spelled
  rw [readPseudo]
  simp only [matchForm?_of_split listed split]
  by_cases deep : t.depth ≥ maxDepth
  · rw [if_pos deep]
    exact .inr ⟨Nat.le_trans deep deeper, t.raw, rfl⟩
  · rw [if_neg deep, form.unfold_eq listed (length_of_areOperands operands) fillable]
    simpa only [Unfolds, Run.edits_cons_unfolded] using lines

/-- A line of tokens that starts with a pseudo-instruction. -/
theorem unfolds_line {mnemonic : Token} (pseudo : mnemonic.kind = .pseudoOp) (code : ∀ t ∈ body, t.kind.isCode)
    {form : PseudoForm} (listed : (mnemonic.name, form) ∈ pseudoTable) {arguments : List (List Token)}
    (split : splitOperands form.signature (body.map (Token.retag pos depth)) = some arguments)
    (operands : AreOperands form.signature arguments) (spelled : ∀ a ∈ arguments, ∀ u ∈ a, u.WellSpelled bisc)
    {result : Except RangeFault (List Instruction)} {depth' : Nat} (deeper : depth ≤ depth')
    (lines : Unfolds depth' pos
      (readLines ((form.lines arguments).flatMap (Token.produced pos (depth + 1)))) result) :
    Unfolds depth' pos (readLine bisc readLines (Token.produced pos depth (mnemonic :: body))) result := by
  obtain ⟨line, -, plain⟩ := line_produced pos depth code
  rw [Token.produced_cons, readLine_pseudoOp _ (by simpa using pseudo)]
  have split' : splitOperands form.signature
      (Token.uncommented (Token.line (Token.produced pos depth body))) = some arguments := by
    rw [line, plain]
    exact split
  have listed' : ((mnemonic.retag pos depth).name, form) ∈ pseudoTable := listed
  exact unfolds_readPseudo listed' split' operands spelled deeper lines

theorem terminated_produced (pos : Position) (depth : Nat) (code : ∀ t ∈ body, t.kind.isCode) :
    Terminated (Token.produced pos depth body) := by
  refine ⟨_, _, fun t member => ?_, rfl, rfl⟩
  obtain ⟨u, inside, rfl⟩ := List.mem_map.mp member
  simpa using Token.isSeparator_of_isCode (code u inside)

theorem readTokens_produced (pos : Position) (depth n : Nat) (code : ∀ t ∈ body, t.kind.isCode)
    (more : List (List Token)) :
    readTokens bisc (n + 1) ((body :: more).flatMap (Token.produced pos depth)) =
      readLine bisc (readTokens bisc n) (Token.produced pos depth body) ++
        readTokens bisc (n + 1) (more.flatMap (Token.produced pos depth)) := by
  rw [List.flatMap_cons, readTokens_line n (terminated_produced pos depth code)]

theorem readTokens_none (n : Nat) :
    readTokens bisc (n + 1) (([] : List (List Token)).flatMap (Token.produced pos depth)) = .done := rfl

end Bisc
