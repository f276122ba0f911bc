import Bisc.Proofs.Layout
import Bisc.Proofs.ObjectReader

/-!
What bytes say. A decoder that knows the formats of the instruction set and nothing else finds in
the word of an instruction its opcode, its registers and its number, the latter as far as the field
holds it; and values of one width are found again in the bytes of their data, group by group. A
number is refused exactly if its field does not hold it.
-/
namespace Bisc

/-! ## Fields -/

/-- The number is the field without a sign, or the field in two's complement. -/
def Extends {bits : Nat} (field : BitVec bits) (v : UInt32) : Prop :=
  v.toBitVec = field.zeroExtend 32 ∨ v.toBitVec = field.signExtend 32

/-- A field holds the number without a sign, or the number is negative and the field holds it in two's complement. -/
def HasRoom (bits : Nat) (v : UInt32) : Prop :=
  v.toNat < 2 ^ bits ∨ -2 ^ (bits - 1) ≤ v.toInt32.toInt ∧ v.toInt32.toInt < 0

theorem toInt32_toInt (v : UInt32) :
    v.toInt32.toInt = if v.toNat < 0x80000000 then (v.toNat : Int) else v.toNat - 0x100000000 := by
  have halves : v.toInt32.toInt = if 2 * v.toNat < 2 ^ 32 then (v.toNat : Int) else v.toNat - (2 ^ 32 : Nat) :=
    v.toBitVec.toInt_eq_toNat_cond
  rw [halves]
  split <;> split <;> omega

theorem signed_eq_toInt (v : UInt32) : signed v = v.toInt32.toInt := (toInt32_toInt v).symm

theorem toInt_inj {v w : UInt32} (same : v.toInt32.toInt = w.toInt32.toInt) : v = w :=
  UInt32.toBitVec_inj.mp (BitVec.eq_of_toInt_eq same)

variable {bits : Nat} {v : UInt32}

theorem fits_iff_hasRoom (filled : 0 < bits) (narrow : bits ≤ 32) : fits bits v ↔ HasRoom bits v := by
  have bound := v.toNat_lt
  have half : 2 ^ (bits - 1) ≤ 2 ^ 31 := Nat.pow_le_pow_right (by decide) (by omega)
  have cast : ((2 ^ (bits - 1) : Nat) : Int) = 2 ^ (bits - 1) := by
    push_cast
    rfl
  simp only [fits, HasRoom, Bool.or_eq_true, decide_eq_true_eq, toInt32_toInt, Nat.pow_eq, ← cast]
  refine or_congr_right ?_
  split <;> omega

/-- The bits of a field are the lowest ones of what it is extended to. -/
theorem Extends.low {field : BitVec bits} (extended : Extends field v) (narrow : bits ≤ 32) :
    v.toBitVec.setWidth bits = field := by
  rcases extended with plain | signed
  · rw [plain, BitVec.setWidth_setWidth_of_le _ narrow, BitVec.setWidth_eq]
  · rw [signed]
    apply BitVec.eq_of_getLsbD_eq
    intro i inside
    rw [BitVec.getLsbD_setWidth, BitVec.getLsbD_signExtend]
    simp [inside, Nat.lt_of_lt_of_le inside narrow]

/-- A number that has room is found again in its lowest bits. -/
theorem HasRoom.extends (room : HasRoom bits v) (filled : 0 < bits) (narrow : bits ≤ 32) :
    Extends (v.toBitVec.setWidth bits) v := by
  rcases room with small | ⟨low, negative⟩
  · refine .inl (BitVec.eq_of_toNat_eq ?_)
    rw [BitVec.toNat_setWidth, BitVec.toNat_setWidth, UInt32.toNat_toBitVec, Nat.mod_eq_of_lt small,
      Nat.mod_eq_of_lt v.toNat_lt]
  · refine .inr (BitVec.eq_of_toInt_eq ?_)
    have halves : (2 : Int) ^ bits = 2 * 2 ^ (bits - 1) := by rw [← pow_succ', Nat.sub_add_cancel filled]
    -- A negative number and its 32 bits differ by a multiple of what the field counts modulo.
    have whole : (v.toBitVec.toNat : Int) = v.toInt32.toInt + ((2 ^ bits : Nat) : Int) * 2 ^ (32 - bits) := by
      have sum : ((2 ^ bits : Nat) : Int) * 2 ^ (32 - bits) = 0x100000000 := by
        push_cast
        rw [← pow_add, Nat.add_sub_cancel' narrow]
        rfl
      rw [sum, UInt32.toNat_toBitVec]
      rw [toInt32_toInt] at negative ⊢
      split at negative
      · omega
      · rw [if_neg (by assumption)]
        omega
    rw [BitVec.toInt_signExtend_of_le narrow, BitVec.toInt_setWidth, whole,
      Int.add_mul_bmod_self_left, Int.bmod_eq_of_le]
    · rfl
    · push_cast
      omega
    · push_cast
      omega

/-- The lowest bytes of a number are its lowest bits. -/
theorem field_of_littleEndian (size : Nat) (v : UInt32) :
    BitVec.ofNat (8 * size) (ofLittleEndian (littleEndian size v.toNat)) = v.toBitVec.setWidth (8 * size) := by
  apply BitVec.eq_of_toNat_eq
  have power : 256 ^ size = 2 ^ (8 * size) := by rw [Nat.pow_mul]
  rw [BitVec.toNat_ofNat, BitVec.toNat_setWidth, ofLittleEndian_littleEndian, power, Nat.mod_mod,
    UInt32.toNat_toBitVec]

/-! ## Instruction words -/

/-- The operands in a word, by format: an immediate is the sixteen bits of its field, and an offset
    is a number with a sign. -/
inductive Fields
  | bare
  | reg (r : UInt8)
  | regImm (r : UInt8) (field : BitVec 16)
  | regMem (dst base : UInt8) (offset : Int)
  | regReg (dst src : UInt8)
  | regRegReg (dst src₁ src₂ : UInt8)
deriving DecidableEq

/-- The operands in the last three bytes of a word. What the format has no use for must be zero. -/
def Fields.ofBytes? : Format → UInt8 → UInt8 → UInt8 → Option Fields
  | .bare, b₁, b₂, b₃ => if b₁ = 0 ∧ b₂ = 0 ∧ b₃ = 0 then some .bare else none
  | .reg, r, b₂, b₃ => if b₂ = 0 ∧ b₃ = 0 then some (.reg r) else none
  | .regImm, r, b₂, b₃ => some (.regImm r (.ofNat 16 (ofLittleEndian [b₂, b₃])))
  | .regMem, dst, base, b₃ => some (.regMem dst base b₃.toInt8.toInt)
  | .regReg, dst, src, b₃ => if b₃ = 0 then some (.regReg dst src) else none
  | .regRegReg, dst, src₁, src₂ => some (.regRegReg dst src₁ src₂)

/-- The opcode and the operands of a word; the format is the one that the table has for the first byte. -/
def decodeWord? : List UInt8 → Option (UInt8 × Fields)
  | [code, b₁, b₂, b₃] => do
    let op ← bisc.opcodeOfCode? code
    return (op.code, ← Fields.ofBytes? op.format b₁ b₂ b₃)
  | _ => none

namespace Instruction

/-- The operands have the format of the opcode, and the constant, if there is one, is a number. -/
structure IsMachine (i : Instruction) : Prop where
  format : ∃ op, bisc.opcodeOfCode? i.code = some op ∧ op.format = i.operands.format
  numeric : ∀ c ∈ (Node.instruction i).constants, ∃ v, c = .number v

/-- The number of the instruction has room in its field. -/
def InRange (i : Instruction) : Prop :=
  match i.operands with
  | .regImm _ (.number v) => i.code = lui ∨ v.toNat ≤ 0xFFFF ∨ 0xFFFF8000 ≤ v.toNat
  | .regMem _ _ (.number v) => -128 ≤ v.toInt32.toInt ∧ v.toInt32.toInt ≤ 127
  | _ => True

/-- The operands of the instruction are these: `lui` has the upper half of its number in the field,
    and the numbers of other immediates extend the field. -/
inductive Has : Instruction → Fields → Prop
  | bare (code : UInt8) : Has ⟨code, .bare⟩ .bare
  | reg (code r : UInt8) : Has ⟨code, .reg r⟩ (.reg r)
  | upper (r : UInt8) {v : UInt32} {field : BitVec 16} (half : field.zeroExtend 32 = (v >>> 16).toBitVec) :
      Has ⟨lui, .regImm r (.number v)⟩ (.regImm r field)
  | immediate {code : UInt8} (other : code ≠ lui) (r : UInt8) {v : UInt32} {field : BitVec 16}
      (extended : Extends field v) :
      Has ⟨code, .regImm r (.number v)⟩ (.regImm r field)
  | regMem (code dst base : UInt8) (v : UInt32) : Has ⟨code, .regMem dst base (.number v)⟩
      (.regMem dst base v.toInt32.toInt)
  | regReg (code dst src : UInt8) : Has ⟨code, .regReg dst src⟩ (.regReg dst src)
  | regRegReg (code dst src₁ src₂ : UInt8) : Has ⟨code, .regRegReg dst src₁ src₂⟩ (.regRegReg dst src₁ src₂)

/-- The instructions are the same, except that their immediates may differ outside of the sixteen
    bits that the opcode takes. -/
inductive Equivalent : Instruction → Instruction → Prop
  | same (i : Instruction) : Equivalent i i
  | upper (r : UInt8) {v w : UInt32} (half : v >>> 16 = w >>> 16) :
      Equivalent ⟨lui, .regImm r (.number v)⟩ ⟨lui, .regImm r (.number w)⟩
  | immediate {code : UInt8} (other : code ≠ lui) (r : UInt8) {v w : UInt32} (half : v.toUInt16 = w.toUInt16) :
      Equivalent ⟨code, .regImm r (.number v)⟩ ⟨code, .regImm r (.number w)⟩

end Instruction

variable {pos : Position} {code : UInt8} {bs : List UInt8}

theorem hasRoom_sixteen : HasRoom 16 v ↔ v.toNat ≤ 0xFFFF ∨ 0xFFFF8000 ≤ v.toNat := by
  have bound := v.toNat_lt
  rw [HasRoom, toInt32_toInt]
  split <;> omega

theorem encodeImmediate_eq_ok : encodeImmediate pos code v = .ok bs ↔
    code = lui ∧ littleEndian 2 (v.toNat / 0x10000) = bs ∨ code ≠ lui ∧ HasRoom 16 v ∧
    littleEndian 2 v.toNat = bs := by
  unfold encodeImmediate
  rw [← fits_iff_hasRoom (by decide) (by decide)]
  by_cases upper : code = lui
  · simp [upper]
  · by_cases room : fits 16 v <;> simp [upper, room]

theorem encodeOffset_eq_ok : encodeOffset pos code v = .ok bs ↔
    (-128 ≤ v.toInt32.toInt ∧ v.toInt32.toInt ≤ 127) ∧ littleEndian 1 v.toNat = bs := by
  unfold encodeOffset
  rw [signed_eq_toInt]
  by_cases room : -128 ≤ v.toInt32.toInt ∧ v.toInt32.toInt ≤ 127 <;> simp [room]

theorem encode_regImm_eq_ok {r : UInt8} : Instruction.encode pos ⟨code, .regImm r (.number v)⟩ = .ok bs ↔
    ∃ field, encodeImmediate pos code v = .ok field ∧ code :: r :: field = bs := by
  change (encodeImmediate pos code v >>= fun field => .ok (code :: r :: field)) = _ ↔ _
  simp [bind_eq_ok]

theorem encode_regMem_eq_ok {dst base : UInt8} :
    Instruction.encode pos ⟨code, .regMem dst base (.number v)⟩ = .ok bs ↔
    ∃ field, encodeOffset pos code v = .ok field ∧ code :: dst :: base :: field = bs := by
  change (encodeOffset pos code v >>= fun field => .ok (code :: dst :: base :: field)) = _ ↔ _
  simp [bind_eq_ok]

/-- The instruction has a word exactly if its number has room. -/
theorem Instruction.encode_iff_inRange {i : Instruction} (machine : i.IsMachine) :
    (∃ word, i.encode pos = .ok word) ↔ i.InRange := by
  obtain ⟨code, operands⟩ := i
  cases operands with
  | regImm r imm =>
    obtain ⟨v, rfl⟩ := machine.numeric imm (List.mem_singleton_self imm)
    simp only [encode_regImm_eq_ok, encodeImmediate_eq_ok, InRange, hasRoom_sixteen]
    by_cases upper : code = lui <;> simp [upper]
  | regMem dst base offset =>
    obtain ⟨v, rfl⟩ := machine.numeric offset (List.mem_singleton_self offset)
    simp [encode_regMem_eq_ok, encodeOffset_eq_ok, InRange]
  | _ => exact iff_of_true ⟨_, rfl⟩ trivial

/-- The byte of an offset is the offset in two's complement. -/
theorem offset_of_byte (low : -128 ≤ v.toInt32.toInt) (high : v.toInt32.toInt ≤ 127) :
    (UInt8.ofNat (v.toNat % 256)).toInt8.toInt = v.toInt32.toInt := by
  have bound := v.toNat_lt
  have byte : (UInt8.ofNat (v.toNat % 256)).toInt8.toInt =
      if 2 * (UInt8.ofNat (v.toNat % 256)).toNat < 2 ^ 8 then ((UInt8.ofNat (v.toNat % 256)).toNat : Int)
      else (UInt8.ofNat (v.toNat % 256)).toNat - (2 ^ 8 : Nat) :=
    BitVec.toInt_eq_toNat_cond _
  have whole : (UInt8.ofNat (v.toNat % 256)).toNat = v.toNat % 256 := by simp
  rw [byte, whole]
  rw [toInt32_toInt] at low high ⊢
  split <;> split <;> omega

theorem upper_toNat (v : UInt32) : (v >>> 16).toNat = v.toNat / 0x10000 := by
  rw [UInt32.toNat_shiftRight, Nat.shiftRight_eq_div_pow]
  rfl

/-- The field of an upper half is that half. -/
theorem upper_of_field (v : UInt32) :
    (BitVec.ofNat 16 (ofLittleEndian (littleEndian 2 (v.toNat / 0x10000)))).zeroExtend 32 = (v >>> 16).toBitVec := by
  have bound := v.toNat_lt
  have small : (v >>> 16).toNat < 2 ^ 16 := by
    rw [upper_toNat]
    omega
  rw [← upper_toNat, field_of_littleEndian 2]
  apply BitVec.eq_of_toNat_eq
  rw [BitVec.toNat_setWidth, BitVec.toNat_setWidth, UInt32.toNat_toBitVec, Nat.mod_eq_of_lt small,
    Nat.mod_eq_of_lt (UInt32.toNat_lt _)]

theorem decodeWord?_of_listed {op : Opcode} (listed : bisc.opcodeOfCode? op.code = some op)
    {b₁ b₂ b₃ : UInt8} {fields : Fields}
    (found : Fields.ofBytes? op.format b₁ b₂ b₃ = some fields) :
    decodeWord? [op.code, b₁, b₂, b₃] = some (op.code, fields) := by
  simp [decodeWord?, listed, found]

/-- The decoder finds what the instruction is. -/
theorem Instruction.decode_encode {i : Instruction} (machine : i.IsMachine) {word : List UInt8}
    (encoded : i.encode pos = .ok word) :
    ∃ fields, decodeWord? word = some (i.code, fields) ∧ i.Has fields := by
  obtain ⟨code, operands⟩ := i
  obtain ⟨op, listed, format⟩ := machine.format
  have own : op.code = code := by simpa using List.find?_some listed
  subst own
  cases operands with
  | regImm r imm =>
    obtain ⟨v, rfl⟩ := machine.numeric imm (List.mem_singleton_self imm)
    obtain ⟨field, immediate, rfl⟩ := encode_regImm_eq_ok.mp encoded
    rcases encodeImmediate_eq_ok.mp immediate with ⟨upper, rfl⟩ | ⟨other, room, rfl⟩
    · refine ⟨_, decodeWord?_of_listed listed (by rw [format]; rfl), ?_⟩
      rw [upper]
      exact .upper r (upper_of_field v)
    · refine ⟨_, decodeWord?_of_listed listed (by rw [format]; rfl), .immediate other r ?_⟩
      have same := field_of_littleEndian 2 v
      exact same ▸ room.extends (by decide) (by decide)
  | regMem dst base offset =>
    obtain ⟨v, rfl⟩ := machine.numeric offset (List.mem_singleton_self offset)
    obtain ⟨field, displacement, rfl⟩ := encode_regMem_eq_ok.mp encoded
    obtain ⟨⟨low, high⟩, rfl⟩ := encodeOffset_eq_ok.mp displacement
    refine ⟨_, decodeWord?_of_listed listed ?_, .regMem op.code dst base v⟩
    rw [format, ← offset_of_byte low high]
    rfl
  | _ =>
    cases encoded
    refine ⟨_, decodeWord?_of_listed listed ?_, by constructor⟩
    rw [format]
    rfl

/-- What the fields say of an instruction leaves open the other half of its immediate only. -/
theorem Instruction.equivalent_of_has {i j : Instruction} {fields : Fields} (same : i.code = j.code)
    (first : i.Has fields)
    (second : j.Has fields) : i.Equivalent j := by
  cases first with
  | upper r half =>
    cases second with
    | upper _ half' => exact .upper r (UInt32.toBitVec_inj.mp (half.symm.trans half'))
    | immediate other => exact absurd same.symm other
  | immediate other r extended =>
    cases second with
    | upper => exact absurd same other
    | immediate _ _ extended' =>
      cases same
      refine .immediate other r (UInt16.toBitVec_inj.mp ?_)
      exact (extended.low (by decide)).trans (extended'.low (by decide)).symm
  | regMem code dst base v =>
    generalize offset : v.toInt32.toInt = number at second
    cases second with
    | regMem _ _ _ w =>
      cases same
      rw [toInt_inj offset]
      exact .same _
  | _ =>
    cases second
    cases same
    exact .same _

/-- An instruction of the machine has a word exactly if its number has room in its field, and the
    decoder finds the instruction in the word. So two instructions with one word differ in the other
    half of their immediates at most. -/
theorem word_decodable {i : Instruction} (machine : i.IsMachine) (pos : Position) :
    ((∃ word, i.encode pos = .ok word) ↔ i.InRange) ∧ ∀ word, i.encode pos = .ok word →
      (∃ fields, decodeWord? word = some (i.code, fields) ∧ i.Has fields) ∧
      ∀ j pos', j.IsMachine → j.encode pos' = .ok word → i.Equivalent j := by
  refine ⟨Instruction.encode_iff_inRange machine, fun word encoded => ?_⟩
  obtain ⟨fields, decoded, has⟩ := Instruction.decode_encode machine encoded
  refine ⟨⟨fields, decoded, has⟩, fun j pos' machine' encoded' => ?_⟩
  obtain ⟨fields', decoded', has'⟩ := Instruction.decode_encode machine' encoded'
  rw [decoded, Option.some.injEq, Prod.mk.injEq] at decoded'
  obtain ⟨same, rfl⟩ := decoded'
  exact Instruction.equivalent_of_has same has has'

private def lowestImmediate : Instruction := ⟨0x10, .regImm 3 (.number 0xFFFF8000)⟩
private def sameWithoutSign : Instruction := ⟨0x10, .regImm 3 (.number 0x8000)⟩

/-- The lowest negative immediate, which has the word of a positive one. -/
theorem word_decodable_lowestImmediate :
    lowestImmediate.encode ⟨1, 1⟩ = .ok [0x10, 3, 0, 0x80] ∧ sameWithoutSign.encode ⟨2, 1⟩ = .ok [0x10, 3, 0, 0x80] ∧
      (∃ fields, decodeWord? [0x10, 3, 0, 0x80] = some (0x10, fields) ∧ lowestImmediate.Has fields) ∧
      lowestImmediate.Equivalent sameWithoutSign := by
  have first : lowestImmediate.IsMachine :=
    ⟨⟨⟨0x10, "lli", .regImm⟩, by decide, rfl⟩, by simp [lowestImmediate, Node.constants]⟩
  have second : sameWithoutSign.IsMachine :=
    ⟨⟨⟨0x10, "lli", .regImm⟩, by decide, rfl⟩, by simp [sameWithoutSign, Node.constants]⟩
  have encoded : lowestImmediate.encode ⟨1, 1⟩ = .ok [0x10, 3, 0, 0x80] := by decide
  have again : sameWithoutSign.encode ⟨2, 1⟩ = .ok [0x10, 3, 0, 0x80] := by decide
  obtain ⟨-, found⟩ := word_decodable first ⟨1, 1⟩
  obtain ⟨decoded, unique⟩ := found _ encoded
  exact ⟨encoded, again, decoded, unique _ _ second again⟩

/-! ## Data -/

/-- The error of a value that its width does not hold. -/
def roomFault? (pos : Position) (width : Width) (v : UInt32) : Option Error :=
  if fits (8 * width.size) v then none else some ⟨.outOfRange (.datum v width.size), pos⟩

theorem Width.bits_le (width : Width) : 0 < 8 * width.size ∧ 8 * width.size ≤ 32 := by
  cases width <;> decide

theorem roomFault?_eq_none {width : Width} : roomFault? pos width v = none ↔ HasRoom (8 * width.size) v := by
  rw [← fits_iff_hasRoom width.bits_le.1 width.bits_le.2]
  simp [roomFault?]

/-- Data have the bytes of all values one after the other, unless a value has no room. -/
theorem encode_values (pos : Position) (width : Width) (vs : List UInt32) :
    (Data.values width (vs.map .number)).encode pos =
      outcome (vs.findSome? (roomFault? pos width)) (vs.flatMap fun v => littleEndian width.size v.toNat) := by
  have each : ∀ v ∈ vs, encodeDatum pos width (.number v) = outcome (roomFault? pos width v)
      (littleEndian width.size v.toNat) := by
    intro v _
    change (if fits (8 * width.size) v then Except.ok (littleEndian width.size v.toNat) else Except.error _) = _
    unfold roomFault?
    split <;> rfl
  rw [Data.encode, List.mapM_map]
  change (vs.mapM fun v => encodeDatum pos width (.number v)) >>= _ = _
  rw [mapM_outcome each, outcome_bind_pure, List.flatMap_def]

theorem encode_values_eq_ok {width : Width} {vs : List UInt32} {bytes : List UInt8} :
    (Data.values width (vs.map .number)).encode pos = .ok bytes ↔
      (∀ v ∈ vs, HasRoom (8 * width.size) v) ∧ (vs.flatMap fun v => littleEndian width.size v.toNat) = bytes := by
  have roomy : vs.findSome? (roomFault? pos width) = none ↔ ∀ v ∈ vs, HasRoom (8 * width.size) v := by
    simp only [List.findSome?_eq_none_iff, roomFault?_eq_none]
  rw [encode_values, ← roomy]
  cases vs.findSome? (roomFault? pos width) <;> simp

/-- The error is about the first value that has no room. -/
theorem encode_values_eq_error {width : Width} {vs : List UInt32} {e : Error}
    (refused : (Data.values width (vs.map .number)).encode pos = .error e) :
    ∃ before v after, vs = before ++ v :: after ∧
      (∀ u ∈ before, HasRoom (8 * width.size) u) ∧ ¬HasRoom (8 * width.size) v ∧
      e = ⟨.outOfRange (.datum v width.size), pos⟩ := by
  rw [encode_values] at refused
  cases fault : vs.findSome? (roomFault? pos width) with
  | none => simp [fault] at refused
  | some first =>
    rw [fault, outcome_some, Except.error.injEq] at refused
    subst refused
    obtain ⟨before, v, after, split, own, earlier⟩ := List.findSome?_eq_some_iff.mp fault
    have tight : ¬fits (8 * width.size) v := by
      intro room
      rw [roomFault?, if_pos room] at own
      cases own
    rw [roomFault?, if_neg tight, Option.some.injEq] at own
    rw [fits_iff_hasRoom width.bits_le.1 width.bits_le.2] at tight
    exact ⟨before, v, after, split, fun u member => roomFault?_eq_none.mp (earlier u member), tight, own.symm⟩

/-- One of several groups of the same length. -/
def groupAt (bytes : List UInt8) (size index : Nat) : List UInt8 := (bytes.drop (index * size)).take size

theorem groupAt_flatMap {α : Type} {f : α → List UInt8} {size : Nat} (same : ∀ a, (f a).length = size)
    {as : List α} {index : Nat}
    {a : α} (found : as[index]? = some a) : groupAt (as.flatMap f) size index = f a := by
  induction as generalizing index with
  | nil => simp at found
  | cons b bs ih =>
    cases index with
    | zero =>
      cases found
      simp [groupAt, same]
    | succ index =>
      rw [← ih found, List.flatMap_cons, groupAt, Nat.succ_mul, Nat.add_comm, ← List.drop_drop,
        List.drop_left' (same b)]
      rfl

/-- Values of a width have bytes exactly if each has room in it. Then every group of bytes is one of
    the values, as the number of its width that the value is congruent to and that extends to it.
    Otherwise the error names the first value without room. -/
theorem values_decodable (pos : Position) (width : Width) (vs : List UInt32) :
    ((∃ bytes, (Data.values width (vs.map .number)).encode pos = .ok bytes) ↔ ∀ v ∈ vs, HasRoom (8 * width.size) v) ∧
    (∀ bytes, (Data.values width (vs.map .number)).encode pos = .ok bytes → bytes.length = width.size * vs.length ∧
      ∀ index v, vs[index]? = some v →
        ofLittleEndian (groupAt bytes width.size index) = v.toNat % 2 ^ (8 * width.size) ∧
        Extends (.ofNat (8 * width.size) (ofLittleEndian (groupAt bytes width.size index))) v) ∧
    ∀ e, (Data.values width (vs.map .number)).encode pos = .error e → ∃ before v after, vs = before ++ v :: after ∧
      (∀ u ∈ before, HasRoom (8 * width.size) u) ∧ ¬HasRoom (8 * width.size) v ∧
      e = ⟨.outOfRange (.datum v width.size), pos⟩ := by
  refine ⟨by simp [encode_values_eq_ok], fun bytes encoded => ?_, fun e refused => encode_values_eq_error refused⟩
  obtain ⟨room, rfl⟩ := encode_values_eq_ok.mp encoded
  refine ⟨by simp [List.length_flatMap, Nat.mul_comm], fun index v found => ?_⟩
  have own := @groupAt_flatMap _ (fun v : UInt32 => littleEndian width.size v.toNat) _
    (fun v => littleEndian_length _ _) _ _ _ found
  rw [own]
  constructor
  · rw [ofLittleEndian_littleEndian, Nat.pow_mul]
  · rw [field_of_littleEndian]
    exact (room v (List.mem_of_getElem? found)).extends width.bits_le.1 width.bits_le.2

/-- Halfwords at both ends of what has room, and bytes of which the second has none. -/
theorem values_decodable_halfwords :
    (Data.values .half ([0xFFFF8000, 0xFFFF, 0].map .number)).encode ⟨1, 1⟩ = .ok [0, 0x80, 0xFF, 0xFF, 0, 0] ∧
      Extends (.ofNat 16 (ofLittleEndian (groupAt [0, 0x80, 0xFF, 0xFF, 0, 0] 2 0))) 0xFFFF8000 ∧
      (Data.values .byte ([0xFFFFFF80, 0xFFFFFF7F, 0x100].map .number)).encode ⟨7, 2⟩ =
        .error ⟨.outOfRange (.datum 0xFFFFFF7F 1), ⟨7, 2⟩⟩ ∧ ¬HasRoom 8 0xFFFFFF7F := by
  have encoded : (Data.values .half ([0xFFFF8000, 0xFFFF, 0].map .number)).encode ⟨1, 1⟩ = .ok [0, 0x80,
    0xFF, 0xFF, 0, 0] := by
    decide
  have refused : (Data.values .byte ([0xFFFFFF80, 0xFFFFFF7F, 0x100].map .number)).encode ⟨7, 2⟩ =
      .error ⟨.outOfRange (.datum 0xFFFFFF7F 1), ⟨7, 2⟩⟩ := by
    decide
  obtain ⟨-, found, -⟩ := values_decodable ⟨1, 1⟩ .half [0xFFFF8000, 0xFFFF, 0]
  obtain ⟨-, -, first⟩ := values_decodable ⟨7, 2⟩ .byte [0xFFFFFF80, 0xFFFFFF7F, 0x100]
  obtain ⟨before, v, after, -, -, tight, same⟩ := first _ refused
  cases same
  exact ⟨encoded, ((found _ encoded).2 0 _ rfl).2, refused, tight⟩

end Bisc
