import Bisc.Text.Hex
import Bisc.Token

/-!
What can be wrong with a source text, as causes, and the one message of each. The first error ends
an assembly.
-/
namespace Bisc

/-- What a reader needed at a place. -/
inductive Expected
  | token (kind : TokenKind)
  | statement
  | directiveName
  | sectionName
  | constantName
  | macroName
  | parameterName
  | definedName
  | constant
  | halfSelector
  | plainConstant
  | escapeSequence
  | macroEnd
  | argument (parameter owner : String)
  | endOfArguments (count : Nat) (owner : String)
  | operandsOf (mnemonic : String)
deriving DecidableEq

/-- What a reader met instead. -/
inductive Found
  | spelled (text : String)
  | endOfLine
  | endOfFile
  | noOperands
deriving DecidableEq

/-- A number or a size that has no place in the format. -/
inductive RangeFault
  | slice (symbol : String) (first last : UInt32)
  | addressSpace (item : String)
  | immediate (mnemonic : String) (value : UInt32)
  | offset (mnemonic : String) (value : Int)
  | datum (value : UInt32) (width : Nat)
  | sectionName (name : String)
deriving DecidableEq

/-- An operation that has no result: a number out of the range of its type, or a piece of a text that
    starts or ends inside a character or outside of the text. -/
inductive Abort
  | arithmetic
  | textSlice (text : String)
deriving DecidableEq

/-- The cause of an error. A run that is aborted has no result at all: no source is known to be wrong,
    and no message is given for it. -/
inductive Cause
  | invalidToken (raw : String)
  | unexpected (expected : Expected) (found : Found)
  | duplicateSymbol (name : String)
  | unresolvedSymbol (name : String)
  | outOfRange (fault : RangeFault)
  | expansionDepth (name : String)
  | aborted (operation : Abort)
deriving DecidableEq

/-- An error: a cause at a place of the source. -/
structure Error where
  cause : Cause
  pos : Position
deriving DecidableEq

/-- What was needed, as a message names it. -/
def Expected.text : Expected → String
  | .token kind => kind.text
  | .statement => "label, instruction or directive"
  | .directiveName => "directive name"
  | .sectionName => "section name"
  | .constantName => "constant name"
  | .macroName => "macro name"
  | .parameterName => "parameter name"
  | .definedName => "macro or constant name"
  | .constant => "constant"
  | .halfSelector => "`lo` or `hi`"
  | .plainConstant => "number or symbol"
  | .escapeSequence => "escape sequence"
  | .macroEnd => "`.endmacro`"
  | .argument parameter owner => s!"argument `{parameter}` of macro `{owner}`"
  | .endOfArguments count owner => s!"end of line after {count} argument(s) of `{owner}`"
  | .operandsOf mnemonic => s!"operands of a form of `{mnemonic}`"

/-- What was met, as a message names it. -/
def Found.text : Found → String
  | .spelled text => s!"`{text}`"
  | .endOfLine => "end of line"
  | .endOfFile => "end of file"
  | .noOperands => "no operands"

/-- What has no place, as a message tells it. -/
def RangeFault.text : RangeFault → String
  | .slice symbol first last =>
    s!"byte slice `{symbol}({first}:{last})` must select one or two bytes of 0-3"
  | .addressSpace item => s!"`{item}` does not fit below address 0x1_0000_0000"
  | .immediate mnemonic value =>
    s!"`{mnemonic}` immediate 0x{Text.hex value.toNat} does not fit in 16 bits"
  | .offset mnemonic value => s!"`{mnemonic}` offset {value} is outside -128..=127"
  | .datum value width => s!"0x{Text.hex value.toNat} does not fit in {width} byte(s)"
  | .sectionName name => s!"section name `{name}` is longer than 16 bytes"

/-- The operation that has no result. -/
def Abort.text : Abort → String
  | .arithmetic => "arithmetic out of range"
  | .textSlice text => s!"`{text}` sliced out of bounds or inside a character"

/-- The cause in words. -/
def Cause.text : Cause → String
  | .invalidToken raw => s!"invalid token `{raw}`"
  | .unexpected expected found => s!"expected {expected.text}, found {found.text}"
  | .duplicateSymbol name => s!"symbol `{name}` is already defined"
  | .unresolvedSymbol name => s!"symbol `{name}` is never defined"
  | .outOfRange fault => s!"value out of range: {fault.text}"
  | .expansionDepth name => s!"expansion of `{name}` nests too deeply"
  | .aborted operation => operation.text

/-- The message of an error: its place, then its cause. -/
def Error.message (e : Error) : String :=
  s!"line {e.pos.line}, column {e.pos.column}: {e.cause.text}"

namespace Token

/-- A token as the thing met. -/
def found (t : Token) : Found := if t.isSeparator then .endOfLine else .spelled t.raw
/-- The token stands where something else was needed. -/
def unexpected (t : Token) (what : Expected) : Error := ⟨.unexpected what t.found, t.pos⟩
/-- The token has no meaning here; an invalid one has none anywhere. -/
def refused (t : Token) (what : Expected) : Error :=
  if t.kind = .invalid then ⟨.invalidToken t.raw, t.pos⟩ else t.unexpected what

end Token
end Bisc
