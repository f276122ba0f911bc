import Bisc.CommandLine.Event
import Bisc.CommandLine.Listing
import Bisc.CommandLine.Storage

/-!
Runs of the program. A run reads its input, prints, and at the very end writes one file or none.
-/
namespace Bisc.CommandLine

/-- A file that a run writes. -/
structure Output where
  path : String
  object : ObjectFile
deriving DecidableEq

/-- A run up to its last act: `exit` is its code if there is nothing to write. -/
structure Session where
  exit : Nat
  stdout : String
  events : List Event
  output : Option Output
deriving DecidableEq

namespace Session

/-- A run that ends with an error. -/
def failure (events : List Event) (fatal : Fatal) : Session :=
  ⟨1, "", events ++ [.failed fatal], none⟩

/-- A run that prints the expanded source. -/
def preprocessing (o : Options) (source : String) : Session :=
  let events := .started o :: Event.ofPreprocess source
  match preprocessText source with
  | .error e => failure events (.rejected o.input e)
  | .ok text => ⟨0, text, events, none⟩

/-- A run that assembles the source. -/
def assembling (o : Options) (source : String) : Session :=
  let events := .started o :: Event.ofBuild source
  match build source with
  | .error e => failure events (.rejected o.input e)
  | .ok b => ⟨0, if o.listing then listing b else "", events, some ⟨o.outputPath, b.object⟩⟩

/-- A run with the text of its input. -/
def start (o : Options) : Except ReadFault String → Session
  | .error fault => failure [.started o] (.unreadable o.input fault)
  | .ok source => if o.preprocessOnly then preprocessing o source else assembling o source

/-- The run after its file could not be made. -/
def uncreated (s : Session) (out : Output) (fault : FileFault) : Session :=
  { s with
    exit := 1
    events := s.events ++ [.failed (.uncreatable out.path fault)]
    output := none }

/-- The object file becomes bytes when the file for it is made. -/
def encoded (s : Session) (out : Output) : Session :=
  { s with events := s.events ++ [.encoded out.object.sections.length out.object.encode.length] }

/-- The run after its file was not wholly written. -/
def unwritten (s : Session) (out : Output) (fault : FileFault) : Session :=
  { s.encoded out with
    exit := 1
    events := (s.encoded out).events ++ [.failed (.unwritable out.path fault)]
    output := none }

/-- The run after its file was written. -/
def written (s : Session) (out : Output) : Session :=
  { s.encoded out with
    exit := 0
    events := (s.encoded out).events ++ [.wrote out.object.encode.length out.path]
    output := none }

end Session

/-- What a run leaves: its exit code, what it printed and logged, and the files. -/
structure Outcome (State : Type) where
  exit : Nat
  stdout : String
  log : List String
  directory : State
deriving DecidableEq

/-- The outcome of a run that has nothing left to write. -/
def Session.outcome {State : Type} (s : Session) (o : Options) (files : State) : Outcome State :=
  ⟨s.exit, s.stdout, log o.verbosity s.events, files⟩

namespace FileSystem

variable {State File : Type} (fs : FileSystem State File)

/-- The last act of a run: it makes its file and writes it, if there is one. -/
def finish (s : Session) (o : Options) (files : State) : Outcome State :=
  match s.output with
  | none => s.outcome o files
  | some out =>
    match fs.create files out.path with
    | .error fault => (s.uncreated out fault).outcome o files
    | .ok created =>
      match fs.writeAll created out.path out.object.encode with
      | (files, some fault) => (s.unwritten out fault).outcome o files
      | (files, none) => (s.written out).outcome o files

/-- A run of the program with options. -/
def runOptions (o : Options) (files : State) : Outcome State :=
  fs.finish (Session.start o (fs.readText files o.input)) o files

/-- A run of the program with arguments. Texts about the program itself are not part of the
    outcome. -/
def run (arguments : List String) (files : State) : Outcome State :=
  match Request.ofArguments arguments with
  | .information => ⟨0, "", [], files⟩
  | .misuse => ⟨1, "", [], files⟩
  | .assemble o => fs.runOptions o files

end FileSystem

/-- A run of the program in a directory with room for its file. -/
def run (arguments : List String) (d : Directory) : Outcome Directory :=
  (Directory.fileSystem none).run arguments d

end Bisc.CommandLine
