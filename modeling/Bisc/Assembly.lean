import Bisc.ObjectFile.Generate
import Bisc.Program.Layout
import Bisc.Program.Parser

/-!
Assembly: from a source text to an object file.
-/
namespace Bisc

/-- What an assembly gives. -/
structure Build where
  program : Program
  symbols : SymbolTable
  object : ObjectFile
deriving DecidableEq

/-- The program of a source text, before it is laid out. -/
def parseSource (source : String) : Except Error Program := do
  parse bisc (← preprocess (tokenize bisc source))

/-- Assembles a source text. -/
def build (source : String) : Except Error Build := do
  let (program, symbols) ← analyze (← parseSource source)
  return ⟨program, symbols, ← generate program symbols⟩

/-- The bytes of the object file of a source text. -/
def assemble (source : String) : Except Error (List UInt8) := do
  return (← build source).object.encode

/-- A source text with its invocations expanded. -/
def preprocessText (source : String) : Except Error String := do
  return Token.render (← preprocess (tokenize bisc source))

end Bisc
