import Bisc.Assembly
import Bisc.CommandLine.FileSystem

/-!
The log of a run: what happens in it, how important that is, and how it is told.
-/
namespace Bisc.CommandLine

/-- How important an event is, the most important first. -/
inductive Level
  | error
  | warn
  | info
  | debug
deriving DecidableEq

namespace Level

/-- The name of a level in the log. -/
def text : Level → String
  | error => "ERROR"
  | warn => "WARN"
  | info => "INFO"
  | debug => "DEBUG"

/-- The place of a level in the order of importance. -/
def rank : Level → Nat
  | error => 0
  | warn => 1
  | info => 2
  | debug => 3

/-- The least important level that a verbosity shows. -/
def ofVerbosity : Nat → Level
  | 0 => error
  | 1 => warn
  | 2 => info
  | _ => debug

end Level

/-- What ends a run without its result. -/
inductive Fatal
  | unreadable (path : String) (fault : ReadFault)
  | rejected (path : String) (e : Error)
  | uncreatable (path : String) (fault : FileFault)
  | unwritable (path : String) (fault : FileFault)
deriving DecidableEq

/-- The reason as it is told. -/
def Fatal.message : Fatal → String
  | .unreadable path fault => s!"unable to read input file `{path}`: {fault.message}"
  | .rejected path e => s!"{path}: {e.message}"
  | .uncreatable path fault => s!"unable to open output file `{path}`: {fault.message}"
  | .unwritable path fault => s!"unable to write to output file `{path}`: {fault.message}"

/-- What happens in a run. -/
inductive Event
  | started (options : Options)
  | tokenized (count : Nat)
  | definedConstant (name : Token)
  | definedMacro (name : Token) (params : List String)
  | startedSection (line : Nat) (name : String)
  | unfolded (line : Nat) (name : String) (operands template : List String)
  | parsed (sections : Nat)
  | labelled (labels : Nat)
  | encodedSection (image : SectionImage)
  | entered (address : UInt32)
  | encoded (sections bytes : Nat)
  | wrote (bytes : Nat) (path : String)
  | failed (fatal : Fatal)
deriving DecidableEq

namespace Event

/-- How important an event is. -/
def level : Event → Level
  | parsed _ | entered _ | wrote .. => .info
  | failed _ => .error
  | _ => .debug

/-- The part of the program that an event comes from. -/
def target : Event → String
  | started _ | wrote .. | failed _ => "bisc_asm"
  | tokenized _ => "bisc_asm::assembler::lexer"
  | definedConstant _ | definedMacro .. => "bisc_asm::assembler::preprocessor"
  | startedSection .. | unfolded .. => "bisc_asm::assembler::parser"
  | parsed _ => "bisc_asm::assembler"
  | labelled _ => "bisc_asm::assembler::semantic"
  | encodedSection _ | entered _ => "bisc_asm::assembler::codegen"
  | encoded .. => "bisc_asm::assembler::object"

/-- What a log says of an event. -/
def message : Event → String
  | started o =>
    s!"Arguments:\n\tVerbosity: {(Level.ofVerbosity o.verbosity).text}\n\tPreprocess Only: " ++
      s!"{o.preprocessOnly}\n\tOutfile: " ++ o.output.getD "None" ++ s!"\n\tInfile: {o.input}"
  | tokenized count => s!"lexer produced {count} tokens"
  | definedConstant name => s!"defined constant `{name.raw}` on line {name.pos.line}"
  | definedMacro name params =>
    s!"defined macro `{name.raw}`({commaSeparated params}) on line {name.pos.line}"
  | startedSection line name => s!"line {line}: section `{name}`"
  | unfolded line name operands template =>
    s!"line {line}: {name} {commaSeparated operands} => " ++ String.intercalate "; " template
  | parsed sections => s!"parsed {sections} section(s)"
  | labelled labels => s!"symbol table holds {labels} labels"
  | encodedSection image =>
    s!"section `{image.name}` at 0x{Text.hexPadded 8 image.address.toNat}: " ++
      s!"{image.bytes.length} bytes"
  | entered address => s!"entry point 0x{Text.hexPadded 8 address.toNat}"
  | encoded sections bytes => s!"object file: {sections} sections, {bytes} bytes"
  | wrote bytes path => s!"wrote {bytes} bytes to `{path}`"
  | failed fatal => s!"fatal: {fatal.message}"

/-- The event as a line of the log. -/
def record (e : Event) : String := s!"[{e.target}][{e.level.text}] {e.message}"

/-- The definition of a segment. -/
def ofSegment? : Segment → Option Event
  | .plain _ => none
  | .constant name _ => some (definedConstant name)
  | .macroDefinition name params _ _ => some (definedMacro name params)

/-- A step that changes how the program is read. -/
def ofStep? : Step → Option Event
  | .item _ => none
  | .newSection name pos => some (startedSection pos.line name)
  | .unfolded pos name operands form => some (unfolded pos.line name operands form.template)

/-- The events while a source is tokenized and its definitions are collected. -/
def ofPreprocess (source : String) : List Event :=
  let ts := tokenize bisc source
  tokenized ts.length :: (segments ts).out.filterMap ofSegment?

/-- The events while a program that is laid out is encoded. -/
def ofGenerate (p : Program) (symbols : SymbolTable) : List Event :=
  (images p).out.map encodedSection ++
    match generate p symbols with
    | .error _ => []
    | .ok f => [entered f.entry]

/-- The events while a program is laid out and encoded. -/
def ofProgram (p : Program) : List Event :=
  match place p with
  | .error _ => []
  | .ok (_, symbols) =>
    labelled symbols.size ::
      match analyze p with
      | .error _ => []
      | .ok (q, symbols) => ofGenerate q symbols

/-- The events while expanded tokens become a program and an object file. -/
def ofTokens (ts : List Token) : List Event :=
  (steps bisc ts).out.filterMap ofStep? ++
    match parse bisc ts with
    | .error _ => []
    | .ok p => parsed p.length :: ofProgram p

/-- The events while a source is assembled, up to the first error. -/
def ofBuild (source : String) : List Event :=
  ofPreprocess source ++
    match preprocess (tokenize bisc source) with
    | .error _ => []
    | .ok ts => ofTokens ts

end Event

/-- The log of events as a verbosity shows it. -/
def log (verbosity : Nat) (events : List Event) : List String :=
  (events.filter fun e => e.level.rank ≤ (Level.ofVerbosity verbosity).rank).map Event.record

end Bisc.CommandLine
