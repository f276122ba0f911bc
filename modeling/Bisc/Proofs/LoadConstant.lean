import Bisc.Proofs.Contents
import Bisc.Proofs.PseudoExpansion

/-!
Loading a constant. The lower half is taken when constants get their values and the upper half when
the instruction is encoded; together they are the value, and neither can be out of range. So no
instruction that a pseudo-instruction stands for is out of range, wherever its symbols lie.
-/
namespace Bisc

/-- The constants that an operand of a pseudo-instruction can be. -/
inductive Constant.IsOperand : Constant → Prop
  | number (value : UInt32) : IsOperand (.number value)
  | symbol (name : String) : IsOperand (.symbol name)
  | slice (name : String) {first last : UInt8} (ordered : first ≤ last) (inside : last ≤ 3)
      (narrow : last.toNat - first.toNat ≤ 1) :
      IsOperand (.part (.symbol name) (.bytes first last))

/-- The instructions that load a constant have bytes, and the bytes of their immediates are those of
    the value. -/
def LoadsAs (r : UInt8) (c : Constant) (symbols : SymbolTable) (pos : Position) (v : UInt32) : Prop :=
  ∃ lower upper b₀ b₁ b₂ b₃,
    Node.resolved symbols pos (.instruction ⟨0x10, .regImm r (.part c .lo)⟩) = .ok (.instruction lower) ∧
    Node.resolved symbols pos (.instruction ⟨0x11, .regImm r c⟩) = .ok (.instruction upper) ∧
    lower.encode pos = .ok [0x10, r, b₀, b₁] ∧ upper.encode pos = .ok [0x11, r, b₂, b₃] ∧
    b₀.toNat + 2 ^ 8 * b₁.toNat + 2 ^ 16 * b₂.toNat + 2 ^ 24 * b₃.toNat = v.toNat

/-! ## Halves -/

theorem fits_lo (v : UInt32) : fits 16 (Selector.lo.select v) := by
  have small : (Selector.lo.select v).toNat < Nat.pow 2 16 := by
    rw [Selector.lo_toNat]
    exact Nat.mod_lt _ (by decide)
  simp only [fits, small, decide_true, Bool.true_or]

theorem littleEndian_two (n : Nat) : littleEndian 2 n = [.ofNat (n % 256), .ofNat (n / 256 % 256)] := rfl

/-- The halves of a number are its bytes. -/
theorem halves_toNat (v : UInt32) :
    let lower := v.toNat % 0x10000
    let upper := v.toNat / 0x10000
    (UInt8.ofNat (lower % 256)).toNat + 2 ^ 8 * (UInt8.ofNat (lower / 256 % 256)).toNat +
      2 ^ 16 * (UInt8.ofNat (upper % 256)).toNat + 2 ^ 24 * (UInt8.ofNat (upper / 256 % 256)).toNat = v.toNat := by
  have bound := v.toNat_lt
  have byte (n : Nat) : (UInt8.ofNat (n % 256)).toNat = n % 256 := by simp
  simp only [byte]
  omega

theorem Constant.IsOperand.nests_lo {c : Constant} (operand : c.IsOperand) : c.nests .lo = false := by
  cases operand <;> rfl

/-- The value of an operand is loaded as its two halves. -/
theorem load_reassembles (r : UInt8) {c : Constant} (operand : c.IsOperand) {symbols : SymbolTable}
    {pos : Position} {v : UInt32}
    (resolved : c.resolve symbols pos = .ok v) : LoadsAs r c symbols pos v := by
  have half : (Constant.part c .lo).resolve symbols pos = .ok (Selector.lo.select v) := by
    simp [Constant.resolve, operand.nests_lo, resolved, Selector.partAt, Selector.apply?_eq, Selector.overflows, bind,
      Except.bind]
  refine ⟨⟨0x10, .regImm r (.number (Selector.lo.select v))⟩, ⟨0x11, .regImm r (.number v)⟩, _, _,
    _, _, ?_, ?_, ?_, ?_,
    halves_toNat v⟩
  · simp only [Node.resolved, Operands.resolved, Constant.resolved, half]
    rfl
  · simp only [Node.resolved, Operands.resolved, Constant.resolved, resolved]
    rfl
  · simp [Instruction.encode, Constant.known, Constant.value?, encodeImmediate, lui, fits_lo, bind,
      Except.bind, pure, Except.pure,
      littleEndian_two, Selector.lo_toNat]
  · simp [Instruction.encode, Constant.known, Constant.value?, encodeImmediate, lui, bind,
      Except.bind, pure, Except.pure,
      littleEndian_two]

/-! ## What pseudo-instructions stand for -/

/-- The instruction has bytes with any symbols at any place. -/
def Instruction.Encodes (i : Instruction) : Prop :=
  ∀ symbols pos address, ∃ bytes, Item.encode ⟨(Node.instruction i).valued symbols, pos, address⟩ = .ok bytes

/-- Operands that have bytes whatever the opcode. -/
inductive Operands.Small : Operands → Prop
  | bare : Small .bare
  | reg (r : UInt8) : Small (.reg r)
  | one (r : UInt8) : Small (.regImm r (.number 1))
  | direct (dst base : UInt8) : Small (.regMem dst base (.number 0))
  | regRegReg (dst src₁ src₂ : UInt8) : Small (.regRegReg dst src₁ src₂)

private theorem encode_regImm {code : UInt8} {v : UInt32} (fit : code = lui ∨ fits 16 v) (r : UInt8)
    (pos : Position) (address : UInt32) :
    ∃ bytes, Item.encode ⟨.instruction ⟨code, .regImm r (.number v)⟩, pos, address⟩ = .ok bytes := by
  have field : ∃ bytes, encodeImmediate pos code v = .ok bytes := by
    unfold encodeImmediate
    by_cases upper : code = lui
    · exact ⟨_, if_pos upper⟩
    · rw [if_neg upper, if_pos (fit.resolve_left upper)]
      exact ⟨_, rfl⟩
  obtain ⟨bytes, field⟩ := field
  refine ⟨code :: r :: bytes, ?_⟩
  simp [Item.encode, Instruction.encode, Constant.known, Constant.value?, field, bind, Except.bind,
    pure, Except.pure]

private theorem encodes_of_small {code : UInt8} {operands : Operands} (small : operands.Small) :
    Instruction.Encodes ⟨code, operands⟩ := by
  intro symbols pos address
  cases small with
  | one r =>
    have fit : fits 16 1 := by decide
    exact encode_regImm (.inr fit) r pos address
  | direct dst base => exact ⟨[code, dst, base, 0], rfl⟩
  | _ => exact ⟨_, rfl⟩

private theorem encodes_of_real {mnemonic : String} {operands : Operands} {i : Instruction} (small : operands.Small)
    (known : real? mnemonic operands = some i) : i.Encodes := by
  obtain ⟨op, -, rfl⟩ := Option.map_eq_some_iff.mp known
  exact encodes_of_small small

private theorem encodes_loadConstant (r : UInt8) (c : Constant) : ∀ i ∈ loadConstant r c, i.Encodes := by
  intro i member symbols pos address
  simp only [loadConstant, List.mem_cons, List.not_mem_nil, or_false] at member
  rcases member with rfl | rfl
  · exact encode_regImm (.inr (fits_lo (c.valueIn symbols))) r pos address
  · exact encode_regImm (.inl rfl) r pos address

theorem encodes_of_meaning {name : String} {operands : List Operand} {is : List Instruction}
    (meaning : meaning? name operands = some is) : ∀ i ∈ is, i.Encodes := by
  have after {mnemonic : String} {last : Operands} (small : last.Small) {r : UInt8} {c : Constant}
      (meaning : (do return loadConstant r c ++ [← real? mnemonic last]) = some is) : ∀ i ∈ is, i.Encodes := by
    obtain ⟨i, known, same⟩ := Option.bind_eq_some_iff.mp meaning
    cases same
    intro j member
    rcases List.mem_append.mp member with load | single
    · exact encodes_loadConstant r c j load
    · rw [List.mem_singleton.mp single]
      exact encodes_of_real small known
  have alone {mnemonic : String} {last : Operands} (small : last.Small)
      (meaning : (do return [← real? mnemonic last]) = some is) : ∀ i ∈ is, i.Encodes := by
    obtain ⟨i, known, same⟩ := Option.bind_eq_some_iff.mp meaning
    cases same
    intro j member
    rw [List.mem_singleton.mp member]
    exact encodes_of_real small known
  unfold meaning? at meaning
  split at meaning
  · split at meaning
    · exact alone .bare meaning
    · cases meaning
  · split at meaning
    · exact alone (.one _) meaning
    · exact alone (.one _) meaning
    · exact alone (.regRegReg _ _ _) meaning
    · cases meaning
  · split at meaning
    · exact after (.reg 1) meaning
    · exact after (.reg 1) meaning
    · exact after (.reg 1) meaning
    · exact after (.reg 1) meaning
    · exact after .bare meaning
    · cases meaning
  · split at meaning
    · cases meaning
      exact encodes_loadConstant _ _
    · cases meaning
      exact encodes_loadConstant _ _
    · exact after (.direct _ 1) meaning
    · exact after (.direct _ 1) meaning
    · cases meaning
  · split at meaning
    · exact after (.regRegReg _ _ 1) meaning
    · exact after (.regRegReg _ _ 1) meaning
    · cases meaning
  · cases meaning

/-! ## In a program -/

namespace PseudoStatement

variable {ts : List Token} (s : PseudoStatement ts)

/-- The instructions `is` of the statement, in the content of a program that is laid out: `items` are
    they, and `before` and `after` what the other lines and the labels of its own line gave. -/
structure Gives (p : Program) (symbols : SymbolTable) (is : List Instruction)
    (before items after : List Item) : Prop where
  contents : p.contents = before ++ items ++ after
  start : before.length = (contentOf (Step.added (steps bisc s.before.flatten).out)).length + s.labels.length
  nodes : items.map Item.node = is.map fun i => (Node.instruction i).valued symbols
  places : items.map Item.pos = is.map fun _ => s.mnemonic.pos

/-- In a source that is read to its end, the statement is read as its meaning. -/
theorem parse_ok (spelled : ∀ t ∈ ts, t.WellSpelled bisc) {p : Program}
    (parsed : parse bisc ts = .ok p) : ∃ operands is,
    readOperands s.mnemonic.pos s.form.signature s.arguments = .ok operands ∧
    meaning? s.mnemonic.name operands = some is ∧
      programOf (steps bisc s.before.flatten ++ Run.adding (s.labels ++ instructionItems s.mnemonic.pos is) ++
        steps bisc s.after.flatten) = .ok p := by
  obtain ⟨result, means, unfolds⟩ := s.unfolds spelled
  have ended : (readPseudo bisc (readTokens bisc maxDepth) s.mnemonic s.rest).edits.failure = none := by
    have whole := parsed
    rw [s.parse_eq] at whole
    have line := (Run.failure_append (contents_of_programOf whole).1).1
    rw [Run.edits_failure]
    exact (Run.failure_append (Run.failure_append line).2).2
  rcases unfolds with read | ⟨-, raw, failed⟩
  · cases result with
    | error fault => simp [read, emitted, Run.fail] at ended
    | ok is =>
      obtain ⟨operands, accepted, meaning⟩ := means
      rw [s.parse_of_emitted read] at parsed
      exact ⟨operands, is, accepted, meaning, parsed⟩
  · simp [failed, Run.fail] at ended

end PseudoStatement

private theorem contentOf_labels {front : List Token} {labels : List Item} (labelled : Labels front labels) :
    contentOf labels = labels := by
  induction labelled with
  | nil => rfl
  | comment _ _ ih => exact ih
  | label _ _ _ ih => simpa [contentOf, Node.isContent] using ih

private theorem contentOf_instructionItems (pos : Position) (is : List Instruction) :
    contentOf (instructionItems pos is) = instructionItems pos is := by
  simp [contentOf, instructionItems, List.filter_eq_self, Node.isContent]

/-- The items of the statement are a part of the content of the program. -/
theorem PseudoStatement.gives {ts : List Token} (s : PseudoStatement ts) {p p' : Program} {symbols : SymbolTable}
    (laid : LaidOut p p' symbols) {is : List Instruction}
    (made : programOf (steps bisc s.before.flatten ++ Run.adding (s.labels ++ instructionItems s.mnemonic.pos is) ++
      steps bisc s.after.flatten) = .ok p) : ∃ before items after, s.Gives p' symbols is before items after := by
  obtain ⟨ended, contents⟩ := contents_of_programOf made
  have first := (Run.failure_append ended).1
  have earlier := (Run.failure_append first).1
  rw [Run.out_append first, Run.out_append earlier, Run.adding, Step.added_append,
    Step.added_append, Step.added_items,
    contentOf_append, contentOf_append, contentOf_append, contentOf_labels s.labelled,
      contentOf_instructionItems] at contents
  have origins := laid.contents
  rw [contents, List.map_append, List.map_append, List.map_append, ← List.append_assoc] at origins
  obtain ⟨front, after, split, frontOrigins, -⟩ := List.map_eq_append_iff.mp origins
  obtain ⟨before, items, split', beforeOrigins, itemOrigins⟩ := List.map_eq_append_iff.mp frontOrigins
  refine ⟨before, items, after, by rw [split, split'], ?_, ?_, ?_⟩
  · simpa using congrArg List.length beforeOrigins
  · simpa [instructionItems, Item.origin, Item.valued, Function.comp_def] using congrArg
      (List.map Prod.fst) itemOrigins
  · simpa [instructionItems, Item.origin, Item.valued, Function.comp_def] using congrArg
      (List.map Prod.snd) itemOrigins

/-- The statement has its instructions in the program, each with bytes, so that whatever keeps the
    program from having an object file is not among them. -/
def PseudoStatement.InRange {ts : List Token} (s : PseudoStatement ts) (p : Program) (symbols : SymbolTable) : Prop :=
  ∃ operands is before items after, readOperands s.mnemonic.pos s.form.signature s.arguments = .ok operands ∧
    meaning? s.mnemonic.name operands = some is ∧ s.Gives p symbols is before items after ∧
    (∀ i ∈ items, ∃ bytes, i.encode = .ok bytes) ∧
    ∀ e, generate p symbols = .error e →
      (∃ i ∈ before ++ after, i.encode = .error e) ∨ ∃ name, e.cause = .outOfRange (.sectionName name)

/-- A constant is loaded as two halves that are its value and cannot be out of range; and no
    instruction that a statement in a form of a pseudo-instruction stands for is out of range in the
    program of any source. -/
theorem load_exact_and_in_range :
    (∀ r c symbols pos v, c.IsOperand → c.resolve symbols pos = .ok v → LoadsAs r c symbols pos v) ∧
    ∀ source ts p p' symbols, preprocess (tokenize bisc source) = .ok ts → parse bisc ts = .ok p →
      analyze p = .ok (p', symbols) → ∀ s : PseudoStatement ts, s.InRange p' symbols := by
  refine ⟨fun r c symbols pos v operand resolved => load_reassembles r operand resolved, ?_⟩
  intro source ts p p' symbols preprocessed parsed analyzed s
  obtain ⟨operands, is, read, meaning, made⟩ := s.parse_ok (wellSpelled_of_preprocess preprocessed) parsed
  obtain ⟨before, items, after, gives⟩ := s.gives (laidOut_of_analyze analyzed) made
  have encoded : ∀ i ∈ items, ∃ bytes, i.encode = .ok bytes := by
    intro i member
    have node : i.node ∈ items.map Item.node := List.mem_map.mpr ⟨i, member, rfl⟩
    rw [gives.nodes] at node
    obtain ⟨instruction, listed, same⟩ := List.mem_map.mp node
    have bytes := encodes_of_meaning meaning instruction listed symbols i.pos i.address
    rw [same] at bytes
    exact bytes
  refine ⟨operands, is, before, items, after, read, meaning, gives, encoded, fun e refused => ?_⟩
  obtain ⟨section', listed, ⟨i, member, unencoded⟩ | long⟩ := generate_eq_error refused
  · have content : i ∈ p'.contents := by
      refine List.mem_filter.mpr ⟨List.mem_flatMap.mpr ⟨section', listed, member⟩, ?_⟩
      cases node : i.node <;> simp_all [Item.encode, Node.isContent]
    rw [gives.contents, List.append_assoc, List.mem_append, List.mem_append] at content
    refine .inl ⟨i, ?_, unencoded⟩
    rcases content with early | own | late
    · exact List.mem_append_left _ early
    · obtain ⟨bytes, fine⟩ := encoded i own
      rw [fine] at unencoded
      cases unencoded
    · exact List.mem_append_right _ late
  · exact .inr ⟨_, long⟩

/-- The program of a jump to its own label, laid out. -/
def selfJumpLaidOut : Program :=
  [⟨".text", [⟨.label "a", ⟨1, 1⟩, 0⟩, ⟨.instruction ⟨0x10, .regImm 1 (.number 0)⟩, ⟨1, 4⟩, 0⟩,
  ⟨.instruction ⟨lui, .regImm 1 (.number 0)⟩, ⟨1, 4⟩, 4⟩, ⟨.instruction ⟨0x0A, .reg 1⟩, ⟨1, 4⟩, 8⟩]⟩]

theorem load_exact_and_in_range_selfJump :
    LoadsAs 3 (.part (.symbol "a") (.bytes 1 2)) ⟨[("a", ⟨0x89ABCDEF, 1⟩)]⟩ ⟨1, 1⟩ 0xABCD ∧
      selfJumpStatement.InRange selfJumpLaidOut ⟨[("a", ⟨0, 1⟩)]⟩ := by
  have tokens : tokenize bisc "a: goto a" = selfJump := by decide
  have preprocessed : preprocess (tokenize bisc "a: goto a") = .ok selfJump := by
    rw [tokens]
    exact preprocess_plain (by decide)
  have parsed : parse bisc selfJump = .ok [⟨".text", [⟨.label "a", ⟨1, 1⟩, 0⟩,
      ⟨.instruction ⟨0x10, .regImm 1 (.part (.symbol "a") .lo)⟩, ⟨1, 4⟩, 0⟩,
      ⟨.instruction ⟨lui, .regImm 1 (.symbol "a")⟩, ⟨1, 4⟩, 0⟩, ⟨.instruction ⟨0x0A, .reg 1⟩, ⟨1, 4⟩, 0⟩]⟩] := rfl
  obtain ⟨loads, ranges⟩ := load_exact_and_in_range
  refine ⟨loads 3 _ _ _ _ (.slice "a" (by decide) (by decide) (by decide)) rfl, ?_⟩
  exact ranges _ _ _ selfJumpLaidOut ⟨[("a", ⟨0, 1⟩)]⟩ preprocessed parsed (by cbv) selfJumpStatement

end Bisc
