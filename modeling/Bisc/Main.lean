import Bisc.CommandLine.Session

/-!
The program: it reads the input file, prints, logs to standard error and writes the object file.
-/
namespace Bisc.CommandLine

/-- A fault by its number, which the system may give as a negative one, and its text there. -/
def numberedFault (code : UInt32) (text : String) : FileFault :=
  let n := if code.toNat < 0x80000000 then code.toNat else 0x100000000 - code.toNat
  let known := [FileFault.noSuchFile, .notADirectory, .isADirectory, .nameTooLong]
  (known.find? fun fault => fault.code == n).getD ⟨text, n⟩

/-- A failure of the system as a fault. -/
def faultOf (e : IO.Error) : FileFault :=
  match e with
  | .noFileOrDirectory _ code text => numberedFault code text
  | .inappropriateType _ code text => numberedFault code text
  | .permissionDenied _ code text => numberedFault code text
  | e => ⟨toString e, 0⟩

/-- The bytes of a file. -/
def readFile (path : String) : IO (Except FileFault ByteArray) := do
  try return .ok (← IO.FS.readBinFile path) catch e => return .error (faultOf e)

/-- The text of a file. -/
def readText (path : String) : IO (Except ReadFault String) := do
  match ← readFile path with
  | .error fault => return .error (.system fault)
  | .ok bytes =>
    match String.fromUTF8? bytes with
    | some text => return .ok text
    | none => return .error .notUtf8

/-- Makes a file, or empties it. -/
def createFile (path : String) : IO (Except FileFault IO.FS.Handle) := do
  try return .ok (← IO.FS.Handle.mk path .write) catch e => return .error (faultOf e)

/-- Writes to a file. -/
def writeAll (file : IO.FS.Handle) (bytes : List UInt8) : IO (Except FileFault Unit) := do
  try
    file.write ⟨bytes.toArray⟩
    return .ok (← file.flush)
  catch e => return .error (faultOf e)

/-- Prints and logs what a run left, and gives its exit code. -/
def report (o : Options) (s : Session) : IO UInt32 := do
  IO.print s.stdout
  for line in log o.verbosity s.events do
    IO.eprintln line
  return UInt32.ofNat s.exit

/-- A run with options. -/
def runFiles (o : Options) : IO UInt32 := do
  let s := Session.start o (← readText o.input)
  match s.output with
  | none => report o s
  | some out =>
    match ← createFile out.path with
    | .error fault => report o (s.uncreated out fault)
    | .ok file =>
      match ← writeAll file out.object.encode with
      | .error fault => report o (s.unwritten out fault)
      | .ok () => report o (s.written out)

end Bisc.CommandLine

/-- Assembles the file that the arguments name. -/
def main (arguments : List String) : IO UInt32 := do
  match Bisc.CommandLine.Request.ofArguments arguments with
  | .information =>
    IO.println "usage: bisc-asm [-d] [-e] [-v]... [-o FILE] INPUT"
    return 0
  | .misuse =>
    IO.eprintln "usage: bisc-asm [-d] [-e] [-v]... [-o FILE] INPUT"
    return 1
  | .assemble options => Bisc.CommandLine.runFiles options
