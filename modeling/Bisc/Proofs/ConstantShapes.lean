import Bisc.Proofs.LoadConstant
import Bisc.Proofs.Sections

/-!
The constants of a program. Whatever the tokens, a constant that was read is a number, a symbol, one
or two bytes of a symbol, or a half of one of these. The layout and the encoder rely on it: no part
of a part is left to refuse, the arithmetic that selects a part never leaves the range of 32-bit
numbers, and a part is never too large for sixteen bits.
-/
namespace Bisc

/-- The parts that a source can select of a value. -/
inductive Selector.Proper : Selector → Prop
  | lo : Proper .lo
  | hi : Proper .hi
  | bytes {first last : UInt8} (ordered : first ≤ last) (inside : last ≤ 3)
      (narrow : last.toNat - first.toNat ≤ 1) : Proper (.bytes first last)

namespace Constant

/-- The constants that a source can have: those that an operand of a pseudo-instruction can be, and halves of them. -/
inductive WellFormed : Constant → Prop
  | plain {c : Constant} (operand : c.IsOperand) : WellFormed c
  | lo {c : Constant} (operand : c.IsOperand) : WellFormed (.part c .lo)
  | hi {c : Constant} (operand : c.IsOperand) : WellFormed (.part c .hi)

/-- The parts that are selected in a constant, the last one first. -/
def selectors : Constant → List Selector
  | part inner selector => selector :: inner.selectors
  | _ => []

end Constant

/-! ## The arithmetic of selecting -/

/-- The arithmetic never leaves its range, and gives the part. -/
theorem Selector.Proper.apply {selector : Selector} (proper : selector.Proper) (v : UInt32) :
    selector.apply? v = some (selector.select v) := by
  have inside : selector.overflows = false := by
    cases proper with
    | lo => rfl
    | hi => rfl
    | bytes ordered inside narrow =>
      have near := UInt8.le_trans ordered inside
      simp [overflows, UInt8.not_lt.mpr ordered, UInt8.not_lt.mpr near]
  rw [Selector.apply?_eq, inside]
  rfl

/-- A part has at most sixteen bits. -/
theorem Selector.Proper.select_le {selector : Selector} (proper : selector.Proper) (v : UInt32) :
    (selector.select v).toNat ≤ 0xFFFF := by
  have bound := v.toNat_lt
  cases proper with
  | lo =>
    rw [lo_toNat]
    omega
  | hi =>
    rw [hi_toNat]
    omega
  | @bytes first last ordered inside narrow =>
    have two : 256 ^ (last.toNat - first.toNat + 1) ≤ 0x10000 :=
      Nat.pow_le_pow_right (by decide) (by omega : last.toNat - first.toNat + 1 ≤ 2)
    have below := Nat.mod_lt (v.toNat / 256 ^ first.toNat) (Nat.pow_pos (by decide) :
      0 < 256 ^ (last.toNat - first.toNat + 1))
    rw [bytes_toNat ordered inside]
    omega

/-! ## Values -/

namespace Constant

variable {c : Constant} {symbols : SymbolTable} {pos : Position}

theorem IsOperand.nests_hi (operand : c.IsOperand) : c.nests .hi = false := by
  cases operand <;> rfl

theorem resolve_part {selector : Selector} (proper : selector.Proper) (allowed : c.nests selector = false) :
    (part c selector).resolve symbols pos = (c.resolve symbols pos).map selector.select := by
  have selected (v : UInt32) : selector.partAt pos v = .ok (selector.select v) := by
    rw [Selector.partAt, proper.apply]
  rw [resolve, if_neg (by simp [allowed])]
  cases c.resolve symbols pos with
  | error e => rfl
  | ok v => exact selected v

/-- The constant has a value, or names a symbol that has none. -/
def Resolves (symbols : SymbolTable) (pos : Position) (c : Constant) : Prop :=
  (∃ v, c.resolve symbols pos = .ok v) ∨ ∃ name, c.resolve symbols pos = .error ⟨.unresolvedSymbol name, pos⟩

theorem Resolves.part {selector : Selector} (inner : c.Resolves symbols pos) (proper : selector.Proper)
    (allowed : c.nests selector = false) : (Constant.part c selector).Resolves symbols pos := by
  unfold Resolves
  rw [resolve_part proper allowed]
  rcases inner with ⟨v, known⟩ | ⟨name, unknown⟩
  · exact .inl ⟨selector.select v, by rw [known]; rfl⟩
  · exact .inr ⟨name, by rw [unknown]; rfl⟩

theorem IsOperand.resolves (operand : c.IsOperand) : c.Resolves symbols pos := by
  have symbol (name : String) : (Constant.symbol name).Resolves symbols pos := by
    unfold Resolves resolve
    cases symbols.address? name with
    | none => exact .inr ⟨name, rfl⟩
    | some address => exact .inl ⟨address, rfl⟩
  cases operand with
  | number value => exact .inl ⟨value, rfl⟩
  | symbol name => exact symbol name
  | slice name ordered inside narrow => exact (symbol name).part (.bytes ordered inside narrow) rfl

namespace WellFormed

variable (shape : c.WellFormed)
include shape

theorem resolves : c.Resolves symbols pos := by
  cases shape with
  | plain operand => exact operand.resolves
  | lo operand => exact operand.resolves.part .lo operand.nests_lo
  | hi operand => exact operand.resolves.part .hi operand.nests_hi

theorem proper : ∀ selector ∈ c.selectors, selector.Proper := by
  have operand {d : Constant} (operand : d.IsOperand) : ∀ selector ∈ d.selectors, selector.Proper := by
    cases operand with
    | number | symbol => simp [selectors]
    | slice name ordered inside narrow =>
      exact List.forall_mem_cons.mpr ⟨.bytes ordered inside narrow, by simp [selectors]⟩
  cases shape with
  | plain shape => exact operand shape
  | lo shape => exact List.forall_mem_cons.mpr ⟨.lo, operand shape⟩
  | hi shape => exact List.forall_mem_cons.mpr ⟨.hi, operand shape⟩

/-- A part, once it has a value, is the proper part of one. -/
theorem resolve_le (part : c.isPlain = false) {v : UInt32} (known : c.resolve symbols pos = .ok v) :
    v.toNat ≤ 0xFFFF := by
  have selected {d : Constant} {selector : Selector} (proper : selector.Proper) (allowed : d.nests selector = false)
      (known : (Constant.part d selector).resolve symbols pos = .ok v) : v.toNat ≤ 0xFFFF := by
    rw [resolve_part proper allowed] at known
    obtain ⟨w, -, rfl⟩ := map_eq_ok.mp known
    exact proper.select_le w
  cases shape with
  | plain operand =>
    cases operand with
    | number | symbol => cases part
    | slice name ordered inside narrow => exact selected (.bytes ordered inside narrow) rfl known
  | lo operand => exact selected .lo operand.nests_lo known
  | hi operand => exact selected .hi operand.nests_hi known

end WellFormed
end Constant

/-! ## Programs -/

theorem Constant.Written.wellFormed {P : Token → Prop} {c : Constant} (written : c.Written P) : c.WellFormed := by
  have operand {d : Constant} (simple : d.Simple P) : d.IsOperand := by
    cases simple with
    | number value => exact .number value
    | symbol => exact .symbol _
    | slice _ ordered inside narrow => exact .slice _ ordered inside narrow
  cases written with
  | simple inner => exact .plain (operand inner)
  | lo inner => exact .lo (operand inner)
  | hi inner => exact .hi (operand inner)

theorem Node.Written.wellFormed {isa : InstructionSet} {P : Token → Prop} {n : Node} (written : n.Written isa P) :
    ∀ c ∈ n.constants, c.WellFormed := by
  cases written with
  | instruction _ _ written =>
    cases written with
    | regImm _ constant | regMem _ _ constant => simpa [Node.constants] using constant.wellFormed
    | _ => simp [Node.constants]
  | values _ written => exact fun c member => (written c member).wellFormed
  | _ => simp [Node.constants]

/-- Every constant of a program is well formed. -/
theorem wellFormed_of_parse {isa : InstructionSet} {ts : List Token} {p : Program}
    (parsed : parse isa ts = .ok p) {i : Item}
    (member : i ∈ p.items) : ∀ c ∈ i.node.constants, c.WellFormed := by
  intro c own
  have content : i.node.isContent := by
    cases node : i.node <;> simp_all [Node.constants, Node.isContent]
  have producible : Producible isa fun _ => True := fun _ _ _ _ _ => trivial
  exact (written_of_parse producible (fun _ _ => trivial) parsed member content).wellFormed c own

/-! ## Halfwords -/

/-- The constants of the node go to fields of sixteen bits: the immediate of an instruction, or
    values of two bytes. -/
def Node.isHalfwords : Node → Bool
  | instruction ⟨_, .regImm ..⟩ => true
  | data (.values .half _) => true
  | _ => false

/-- The error is that the value does not fit in sixteen bits. -/
def Error.IsHalfwordOf (v : UInt32) (pos : Position) (e : Error) : Prop :=
  (∃ mnemonic, e = ⟨.outOfRange (.immediate mnemonic v), pos⟩) ∨ e = ⟨.outOfRange (.datum v 2), pos⟩

theorem fits_of_le {v : UInt32} (small : v.toNat ≤ 0xFFFF) : fits 16 v := by
  have below : v.toNat < Nat.pow 2 16 := Nat.lt_succ_of_le small
  simp [fits, below]

theorem encodeImmediate_refused {pos : Position} {code : UInt8} {v : UInt32} {e : Error}
    (refused : encodeImmediate pos code v = .error e) : fits 16 v = false ∧ e.IsHalfwordOf v pos := by
  unfold encodeImmediate at refused
  by_cases upper : code = lui
  · rw [if_pos upper] at refused
    cases refused
  · rw [if_neg upper] at refused
    by_cases fit : fits 16 v
    · rw [if_pos fit] at refused
      cases refused
    · rw [if_neg fit] at refused
      cases refused
      exact ⟨by simpa using fit, .inl ⟨_, rfl⟩⟩

theorem encodeDatum_refused {pos : Position} {v : UInt32} {e : Error}
    (refused : encodeDatum pos .half (.number v) = .error e) :
    fits 16 v = false ∧ e.IsHalfwordOf v pos := by
  have run : encodeDatum pos .half (.number v) =
    if fits 16 v then .ok (littleEndian 2 v.toNat) else .error ⟨.outOfRange (.datum v 2), pos⟩ := rfl
  rw [run] at refused
  by_cases fit : fits 16 v
  · rw [if_pos fit] at refused
    cases refused
  · rw [if_neg fit] at refused
    cases refused
    exact ⟨by simpa using fit, .inr rfl⟩

/-- An error in encoding halfwords is about the value of one of the constants. -/
theorem halfwords_refused {n node : Node} (halfwords : n.isHalfwords) {symbols : SymbolTable} {pos : Position}
    (resolved : n.resolved symbols pos = .ok node) {address : UInt32} {e : Error}
    (refused : Item.encode ⟨node, pos, address⟩ = .error e) :
    ∃ c ∈ n.constants, ∃ v, c.resolve symbols pos = .ok v ∧ fits 16 v = false ∧ e.IsHalfwordOf v pos := by
  cases n with
  | instruction i =>
    obtain ⟨code, operands⟩ := i
    cases operands with
    | regImm r imm =>
      obtain ⟨operands, read, same⟩ := bind_eq_ok.mp resolved
      cases same
      obtain ⟨number, found, same⟩ := bind_eq_ok.mp read
      cases same
      obtain ⟨v, known, rfl⟩ := map_eq_ok.mp found
      rcases bind_eq_error.mp refused with impossible | ⟨w, value, refused⟩
      · cases impossible
      · cases value
        rcases bind_eq_error.mp refused with refused | ⟨bytes, -, impossible⟩
        · exact ⟨imm, List.mem_singleton_self imm, v, known, encodeImmediate_refused refused⟩
        · cases impossible
    | _ => cases halfwords
  | data d =>
    cases d with
    | values width cs =>
      cases width with
      | half =>
        obtain ⟨numbers, read, same⟩ := bind_eq_ok.mp resolved
        cases same
        rcases bind_eq_error.mp refused with refused | ⟨bytes, -, impossible⟩
        · obtain ⟨number, member, refused⟩ := mapM_eq_error refused
          have all := mapM_eq_ok_iff.mp read
          have own : Except.ok number ∈ cs.map (Constant.resolved symbols pos) := all ▸ List.mem_map_of_mem member
          obtain ⟨c, inside, found⟩ := List.mem_map.mp own
          obtain ⟨v, known, rfl⟩ := map_eq_ok.mp found
          exact ⟨c, inside, v, known, encodeDatum_refused refused⟩
        · cases impossible
      | _ => cases halfwords
    | _ => cases halfwords
  | _ => cases halfwords

/-- The constants of a program are well formed, whatever its tokens. With any symbols, the only
    error in the value of one is a symbol that is unknown, the parts in it are selected in the range
    of 32-bit numbers, and a part has at most sixteen bits. Where a halfword is out of range, it is
    a number or a symbol and no part. -/
theorem constants_well_formed {isa : InstructionSet} {ts : List Token} {p : Program}
    (parsed : parse isa ts = .ok p) {i : Item}
    (member : i ∈ p.items) :
    (∀ c ∈ i.node.constants, c.WellFormed ∧ ∀ symbols pos, c.Resolves symbols pos ∧
      (∀ selector ∈ c.selectors, ∀ v, selector.apply? v = some (selector.select v)) ∧
      (c.isPlain = false → ∀ v, c.resolve symbols pos = .ok v → v.toNat ≤ 0xFFFF)) ∧
    ∀ symbols node address e, i.node.isHalfwords → i.node.resolved symbols i.pos = .ok node →
      Item.encode ⟨node, i.pos, address⟩ = .error e →
      ∃ c ∈ i.node.constants, c.isPlain ∧ ∃ v, c.resolve symbols i.pos = .ok v ∧ e.IsHalfwordOf v i.pos := by
  have shapes := wellFormed_of_parse parsed member
  constructor
  · intro c own
    have shape := shapes c own
    refine ⟨shape, fun symbols pos => ⟨shape.resolves, ?_, ?_⟩⟩
    · intro selector inside v
      exact (shape.proper selector inside).apply v
    · intro part v known
      exact shape.resolve_le part known
  · intro symbols node address e halfwords resolved refused
    obtain ⟨c, own, v, known, wide, about⟩ := halfwords_refused halfwords resolved refused
    refine ⟨c, own, ?_, v, known, about⟩
    by_contra part
    have small := (shapes c own).resolve_le (by simpa using part) known
    rw [fits_of_le small] at wide
    cases wide

/-- Two bytes of a symbol as a halfword, after the upper half of two bytes as an immediate. -/
private def slicedHalves : List Token :=
  [⟨.opcode, "lli", some 0x10, ⟨1, 1⟩, 0⟩, ⟨.register, "r1", some 1, ⟨1, 5⟩, 0⟩,
  ⟨.comma, ",", none, ⟨1, 7⟩, 0⟩, ⟨.directive, ".", none, ⟨1, 9⟩, 0⟩, ⟨.identifier, "hi", none, ⟨1, 10⟩, 0⟩,
  ⟨.identifier, "x", none, ⟨1, 13⟩, 0⟩, ⟨.leftParen, "(", none, ⟨1, 14⟩, 0⟩, ⟨.immediate, "1", some 1, ⟨1, 15⟩, 0⟩,
  ⟨.colon, ":", none, ⟨1, 16⟩, 0⟩, ⟨.immediate, "2", some 2, ⟨1, 17⟩, 0⟩, ⟨.rightParen, ")", none, ⟨1, 18⟩, 0⟩,
  ⟨.lineSeparator, "\n", none, ⟨1, 19⟩, 0⟩, ⟨.directive, ".", none, ⟨2, 1⟩, 0⟩,
    ⟨.identifier, "half", none, ⟨2, 2⟩, 0⟩,
  ⟨.identifier, "x", none, ⟨2, 7⟩, 0⟩, ⟨.leftParen, "(", none, ⟨2, 8⟩, 0⟩, ⟨.immediate, "2", some 2, ⟨2, 9⟩, 0⟩,
  ⟨.colon, ":", none, ⟨2, 10⟩, 0⟩, ⟨.immediate, "3", some 3, ⟨2, 11⟩, 0⟩, ⟨.rightParen, ")", none, ⟨2, 12⟩, 0⟩]

private def slicedItems : List Item :=
  [⟨.instruction ⟨0x10, .regImm 1 (.part (.part (.symbol "x") (.bytes 1 2)) .hi)⟩, ⟨1, 1⟩, 0⟩,
    ⟨.data (.values .half [.part (.symbol "x") (.bytes 2 3)]), ⟨2, 1⟩, 0⟩]

/-- Both have bytes wherever the symbol lies. -/
theorem constants_well_formed_slicedHalves : parse bisc slicedHalves = .ok [⟨".text", slicedItems⟩] ∧
    ∀ i ∈ slicedItems, ∀ symbols node address, i.node.resolved symbols i.pos = .ok node →
      ∃ bytes, Item.encode ⟨node, i.pos, address⟩ = .ok bytes := by
  have parsed : parse bisc slicedHalves = .ok [⟨".text", slicedItems⟩] := rfl
  have narrow : ∀ i ∈ slicedItems, i.node.isHalfwords ∧ ∀ c ∈ i.node.constants, c.isPlain = false := by decide
  refine ⟨parsed, fun i member symbols node address resolved => ?_⟩
  have own : i ∈ Program.items [⟨".text", slicedItems⟩] := by simpa [Program.items] using member
  obtain ⟨-, halfwords⟩ := constants_well_formed parsed own
  cases encoded : Item.encode ⟨node, i.pos, address⟩ with
  | ok bytes => exact ⟨bytes, rfl⟩
  | error e =>
    obtain ⟨c, inside, plain, -⟩ := halfwords symbols node address e (narrow i member).1 resolved encoded
    rw [(narrow i member).2 c inside] at plain
    cases plain

end Bisc
