import Bisc.Program

/-!
The text of programs, one line an item. Labels, instructions and values are written as a source
writes them.
-/
namespace Bisc

/-- An instruction: mnemonic and operands. Registers are written by number. -/
def Instruction.text (i : Instruction) : String :=
  let mnemonic := bisc.mnemonic i.code
  let r := bisc.registerName
  match i.operands with
  | .bare => mnemonic
  | .reg a => s!"{mnemonic} {r a}"
  | .regImm a imm => s!"{mnemonic} {r a}, {imm.text}"
  | .regMem dst base offset => s!"{mnemonic} {r dst}, {r base}[{offset.text}]"
  | .regReg dst src => s!"{mnemonic} {r dst}, {r src}"
  | .regRegReg dst src₁ src₂ => s!"{mnemonic} {r dst}, {r src₁}, {r src₂}"

/-- The directive for data of a width. -/
def Width.text : Width → String
  | .byte => ".byte"
  | .half => ".half"
  | .word => ".word"

/-- Texts with a comma and a space between them. -/
def commaSeparated (texts : List String) : String := String.intercalate ", " texts

/-- Data as a directive; bytes are only counted. -/
def Data.text : Data → String
  | bytes bs => s!".bytes [{bs.length} bytes]"
  | zeros count => s!".zero {count.toNat}"
  | values width cs => width.text ++ " " ++ commaSeparated (cs.map Constant.text)

/-- A node; instructions and data are indented. -/
def Node.text : Node → String
  | .label name => s!"{name}:"
  | .instruction i => s!"    {i.text}"
  | .data d => s!"    {d.text}"
  | .sectionStart name => s!".section {name}"
  | .constantRecord name value => s!".define {name} {value}"
  | .macroRecord name params => s!".macro {name} " ++ commaSeparated params

end Bisc
