/-!
The shape of an instruction set: opcodes with their formats, registers, and pseudo-instructions
with the forms that they are spelled in. Names are kept in lower case, and a look-up takes the name
exactly.
-/
namespace Bisc

/-- The formats of a 32-bit instruction: byte 0 is the opcode, and the other three hold

    * `bare`: nothing;
    * `reg`: a register;
    * `regImm`: a register and a 16-bit immediate;
    * `regMem`: a register, a base register and a signed 8-bit offset;
    * `regReg`: two registers;
    * `regRegReg`: three registers. -/
inductive Format
  | bare
  | reg
  | regImm
  | regMem
  | regReg
  | regRegReg
deriving DecidableEq

/-- Kinds of operands: a memory operand is a register and a constant in brackets. -/
inductive OperandKind
  | register
  | immediate
  | memory
deriving DecidableEq

/-- The name of an operand kind. -/
def OperandKind.text : OperandKind → String
  | .register => "register"
  | .immediate => "immediate"
  | .memory => "memory operand"

/-- The operands that an instruction of a format is written with. -/
def Format.signature : Format → List OperandKind
  | .bare => []
  | .reg => [.register]
  | .regImm => [.register, .immediate]
  | .regMem => [.register, .memory]
  | .regReg => [.register, .register]
  | .regRegReg => [.register, .register, .register]

/-- A real instruction of the machine. -/
structure Opcode where
  code : UInt8
  mnemonic : String
  format : Format
deriving DecidableEq

/-- One way of spelling a pseudo-instruction: `template` holds the source lines it stands for, in
    which `slot n` stands for the text of the n-th operand. -/
structure PseudoForm where
  signature : List OperandKind
  template : List String
deriving DecidableEq

/-- The placeholder of an operand in a template: its index in braces. -/
def slot (n : Nat) : String := "\x7b" ++ toString n ++ "\x7d"

/-- An instruction set. Reserved registers have a name in listings and none in a source; a
    pseudo-instruction has its forms in the order in which they are tried. -/
structure InstructionSet where
  opcodes : List Opcode
  registers : List (String × UInt8)
  reserved : List (String × UInt8)
  pseudoOps : List (String × PseudoForm)

namespace InstructionSet

/-- The opcode of a mnemonic. -/
def opcode? (isa : InstructionSet) (mnemonic : String) : Option Opcode :=
  isa.opcodes.find? fun op => op.mnemonic == mnemonic

/-- The opcode with a code. -/
def opcodeOfCode? (isa : InstructionSet) (code : UInt8) : Option Opcode :=
  isa.opcodes.find? fun op => op.code == code

/-- The index of a register that a source may name. -/
def register? (isa : InstructionSet) (name : String) : Option UInt8 := isa.registers.lookup name

/-- The forms of a pseudo-instruction, none if there is no such pseudo-instruction. -/
def forms (isa : InstructionSet) (name : String) : List PseudoForm :=
  (isa.pseudoOps.filter fun entry => entry.1 == name).map Prod.snd

/-- The mnemonic of a code in listings and messages. -/
def mnemonic (isa : InstructionSet) (code : UInt8) : String :=
  match isa.opcodeOfCode? code with
  | some op => op.mnemonic
  | none => "???"

/-- The name of a register index in listings: `r` and the index unless it is reserved. -/
def registerName (isa : InstructionSet) (index : UInt8) : String :=
  match isa.reserved.find? fun entry => entry.2 == index with
  | some (name, _) => name
  | none => s!"r{index.toNat}"

end InstructionSet
end Bisc
