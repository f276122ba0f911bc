import Bisc.Constant
import Bisc.InstructionSet.Table
import Bisc.Token

/-!
Programs: sections of items in the order of the source. An item is a label, an instruction, data,
or the record of a directive, with the place it came from and, once the program is laid out, its
address.
-/
namespace Bisc

/-- The operands of an instruction, by format. -/
inductive Operands
  | bare
  | reg (r : UInt8)
  | regImm (r : UInt8) (imm : Constant)
  | regMem (dst base : UInt8) (offset : Constant)
  | regReg (dst src : UInt8)
  | regRegReg (dst src₁ src₂ : UInt8)
deriving DecidableEq

/-- The format of operands. -/
def Operands.format : Operands → Format
  | bare => .bare
  | reg _ => .reg
  | regImm .. => .regImm
  | regMem .. => .regMem
  | regReg .. => .regReg
  | regRegReg .. => .regRegReg

/-- A machine instruction: an opcode byte and operands. -/
structure Instruction where
  code : UInt8
  operands : Operands
deriving DecidableEq

/-- The size of a datum. -/
inductive Width
  | byte
  | half
  | word
deriving DecidableEq

/-- The bytes of a datum. -/
def Width.size : Width → Nat
  | .byte => 1
  | .half => 2
  | .word => 4

/-- Data: bytes as they are, a count of zero bytes, or little-endian values of one width. -/
inductive Data
  | bytes (bs : List UInt8)
  | zeros (count : UInt32)
  | values (width : Width) (cs : List Constant)
deriving DecidableEq

/-- What an item is. -/
inductive Node
  | label (name : String)
  | instruction (i : Instruction)
  | data (d : Data)
  | sectionStart (name : String)
  | constantRecord (name value : String)
  | macroRecord (name : String) (params : List String)
deriving DecidableEq

/-- An item of a section; the address is zero until the program is laid out. -/
structure Item where
  node : Node
  pos : Position
  address : UInt32 := 0
deriving DecidableEq

/-- A section. -/
structure Section where
  name : String
  items : List Item
deriving DecidableEq

/-- A program: its sections in the order of the source. -/
abbrev Program := List Section

/-- The bytes of data. -/
def Data.size : Data → Nat
  | bytes bs => bs.length
  | zeros count => count.toNat
  | values width cs => cs.length * width.size

namespace Node

/-- The bytes that a node occupies. -/
def size : Node → Nat
  | instruction _ => 4
  | data d => d.size
  | _ => 0

/-- Labels, instructions and data are content; records of directives are not. -/
def isContent : Node → Bool
  | label _ | instruction _ | data _ => true
  | _ => false

end Node

/-- A size, unless it is no 32-bit number. -/
def size32? (n : Nat) : Option Nat := if n < 0x100000000 then some n else none

namespace Section

/-- The bytes that a section occupies. -/
def size (s : Section) : Nat := s.items.foldr (fun i n => i.node.size + n) 0
/-- The address of the first item. -/
def address (s : Section) : UInt32 := (s.items.head?.map Item.address).getD 0
/-- The section has a label, an instruction or data. -/
def hasContent (s : Section) : Bool := s.items.any fun i => i.node.isContent

end Section
end Bisc
