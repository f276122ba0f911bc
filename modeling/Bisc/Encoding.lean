import Bisc.Error
import Bisc.Program

/-!
The bytes of items. Numbers are little-endian, and a number that its field does not hold is an
error: a field holds its unsigned numbers and the negative ones in two's complement.
-/
namespace Bisc

/-- The lowest bytes of a number, the least significant first. -/
def littleEndian : (width : Nat) → Nat → List UInt8
  | 0, _ => []
  | width + 1, n => UInt8.ofNat (n % 256) :: littleEndian width (n / 256)

/-- The 32-bit number is below `2 ^ bits`, or at least `-2 ^ (bits - 1)` and negative. -/
def fits (bits : Nat) (v : UInt32) : Bool :=
  v.toNat < Nat.pow 2 bits || 0x100000000 - Nat.pow 2 (bits - 1) ≤ v.toNat

/-- The number in two's complement. -/
def signed (v : UInt32) : Int := if v.toNat < 0x80000000 then v.toNat else v.toNat - 0x100000000

/-- The value of a constant that stands at `pos`, which must be a number by now. -/
def Constant.known (pos : Position) (c : Constant) : Except Error UInt32 :=
  match c.value? with
  | some v => .ok v
  | none => .error ⟨.unresolvedSymbol c.text, pos⟩

/-- The immediate field of an instruction: `lui` takes the upper half of the number. -/
def encodeImmediate (pos : Position) (code : UInt8) (v : UInt32) : Except Error (List UInt8) :=
  if code = lui then .ok (littleEndian 2 (v.toNat / 0x10000))
  else if fits 16 v then .ok (littleEndian 2 v.toNat)
  else .error ⟨.outOfRange (.immediate (bisc.mnemonic code) v), pos⟩

/-- The offset field of an instruction. -/
def encodeOffset (pos : Position) (code : UInt8) (v : UInt32) : Except Error (List UInt8) :=
  if -128 ≤ signed v ∧ signed v ≤ 127 then .ok (littleEndian 1 v.toNat)
  else .error ⟨.outOfRange (.offset (bisc.mnemonic code) (signed v)), pos⟩

/-- The four bytes of an instruction: opcode, operands, and zeros in what is left. -/
def Instruction.encode (pos : Position) (i : Instruction) : Except Error (List UInt8) :=
  match i.operands with
  | .bare => .ok [i.code, 0, 0, 0]
  | .reg r => .ok [i.code, r, 0, 0]
  | .regImm r imm => do return i.code :: r :: (← encodeImmediate pos i.code (← imm.known pos))
  | .regMem dst base offset => do
    return i.code :: dst :: base :: (← encodeOffset pos i.code (← offset.known pos))
  | .regReg dst src => .ok [i.code, dst, src, 0]
  | .regRegReg dst src₁ src₂ => .ok [i.code, dst, src₁, src₂]

/-- The bytes of a datum. -/
def encodeDatum (pos : Position) (width : Width) (c : Constant) : Except Error (List UInt8) := do
  let v ← c.known pos
  if fits (8 * width.size) v then return littleEndian width.size v.toNat
  else throw ⟨.outOfRange (.datum v width.size), pos⟩

/-- The bytes of data. -/
def Data.encode (pos : Position) : Data → Except Error (List UInt8)
  | bytes bs => .ok bs
  | zeros count => .ok (List.replicate count.toNat 0)
  | values width cs => do return (← cs.mapM (encodeDatum pos width)).flatten

/-- The bytes of an item; only instructions and data have any. -/
def Item.encode (i : Item) : Except Error (List UInt8) :=
  match i.node with
  | .instruction ins => ins.encode i.pos
  | .data d => d.encode i.pos
  | _ => .ok []

end Bisc
