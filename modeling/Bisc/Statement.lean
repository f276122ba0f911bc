import Bisc.Constant.Reader
import Bisc.Program
import Bisc.Run
import Bisc.Text.Escape
import Bisc.Text.Slice
import Bisc.Text.Utf8

/-!
Statements: instructions and directives, each on a line of its own. What a source does to a program
is a list of steps: an item is added, a section starts, a pseudo-instruction is unfolded.
-/
namespace Bisc

/-- What a line of source does. -/
inductive Step
  | item (i : Item)
  | newSection (name : String) (pos : Position)
  | unfolded (pos : Position) (name : String) (operands : List String) (form : PseudoForm)
deriving DecidableEq

/-- The directives. -/
inductive Directive
  | standardSection (name : String)
  | namedSection
  | constantDefinition
  | macroHeader
  | macroEnd
  | values (width : Width)
  | zeros
  | text (terminated : Bool)
deriving DecidableEq

/-- The names of the directives, in lower case. -/
def directiveTable : List (String × Directive) := [
  ("text", .standardSection ".text"),
  ("data", .standardSection ".data"),
  ("rodata", .standardSection ".rodata"),
  ("bss", .standardSection ".bss"),
  ("section", .namedSection),
  ("define", .constantDefinition),
  ("macro", .macroHeader),
  ("endmacro", .macroEnd),
  ("endm", .macroEnd),
  ("byte", .values .byte),
  ("half", .values .half),
  ("word", .values .word),
  ("zero", .zeros),
  ("string", .text false),
  ("asciz", .text true)]

/-- The body of a string literal: what is cut out of its text between the first byte and the last. A
    token whose text is not quoted may have none. -/
def Token.literalBody? (t : Token) : Option (List Char) :=
  Text.slice? 1 (Text.utf8Length t.raw.toList - 1) t.raw.toList

namespace Reader

/-- Takes the operands of a format. -/
def operands : Format → Reader Operands
  | .bare => return .bare
  | .reg => return .reg (← register)
  | .regImm => do
    let r ← register
    let _ ← expect .comma
    return .regImm r (← constant)
  | .regMem => do
    let dst ← register
    let _ ← expect .comma
    let base ← register
    let _ ← expect .leftBracket
    let offset ← constant
    let _ ← expect .rightBracket
    return .regMem dst base offset
  | .regReg => do
    let dst ← register
    let _ ← expect .comma
    return .regReg dst (← register)
  | .regRegReg => do
    let dst ← register
    let _ ← expect .comma
    let src₁ ← register
    let _ ← expect .comma
    return .regRegReg dst src₁ (← register)

/-- Takes the operands of the real instruction whose mnemonic is `t`. -/
def instruction (isa : InstructionSet) (t : Token) : Reader Instruction := do
  match isa.opcode? t.name with
  | none => throw (t.unexpected (.token .opcode))
  | some op => return ⟨op.code, ← operands op.format⟩

/-- Takes the name of a section, which may start with a dot. -/
def sectionName : Reader String := do
  if ← nextIs .directive then
    let _ ← next .sectionName
    return "." ++ (← word .sectionName).raw
  else return (← word .sectionName).raw

/-- Takes the parameters in the header of a macro. -/
def parameters : Reader (List String) := fun c =>
  if c.rest.head?.any Token.isWord then
    commaSeparated (return (← word .parameterName).raw) c
  else .ok ([], c)

/-- Takes a string literal as its bytes. -/
def stringBytes : Reader (List UInt8) := do
  let literal ← expect .stringLiteral
  match literal.literalBody? with
  | none => throw ⟨.aborted (.textSlice literal.raw), literal.pos⟩
  | some body =>
    match Text.unescape body with
    | .ok bytes => return bytes
    | .error escape => throw ⟨.unexpected .escapeSequence (.spelled escape), literal.pos⟩

/-- Takes the operands of a directive whose dot is at `pos`. -/
def directiveOperands (pos : Position) : Directive → Reader (List Step)
  | .standardSection name => return [.newSection name pos]
  | .namedSection => return [.newSection (← sectionName) pos]
  | .constantDefinition => do
    let name ← word .constantName
    let value := Token.render (Token.uncommented (← restOfLine))
    return [.item { node := .constantRecord name.raw value, pos }]
  | .macroHeader => do
    let name ← word .macroName
    return [.item { node := .macroRecord name.raw (← parameters), pos }]
  | .macroEnd => return []
  | .values width => do
    return [.item { node := .data (.values width (← commaSeparated constant)), pos }]
  | .zeros => do
    return [.item { node := .data (.zeros (← expect .immediate).number), pos }]
  | .text terminated => do
    let bytes ← stringBytes
    return [.item { node := .data (.bytes (if terminated then bytes ++ [0] else bytes)), pos }]

/-- Takes a directive after its dot. -/
def directive (dot : Token) : Reader (List Step) := do
  let name ← word .directiveName
  match directiveTable.lookup name.name with
  | some d => directiveOperands dot.pos d
  | none => throw ⟨.unexpected (.token .directive) (.spelled ("." ++ name.raw)), name.pos⟩

/-- The steps of a statement that has its line to the end. -/
def statement (r : Reader (List Step)) (c : Cursor) : Run Step :=
  match r c with
  | .error e => .fail e
  | .ok (steps, c') =>
    match endOfLine c' with
    | .error e => ⟨steps, some e⟩
    | .ok _ => ⟨steps, none⟩

end Reader
end Bisc
