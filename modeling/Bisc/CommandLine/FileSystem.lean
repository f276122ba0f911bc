import Bisc.CommandLine.Directory
import Bisc.CommandLine.Options

/-!
File systems, as a program needs one that reads a file and makes another. Files are told apart by
what they are and not by paths: many paths may lead to one file, and a path need not lead to any,
for what is read or written there may be a device.
-/
namespace Bisc.CommandLine

/-- Why a file gave no text. -/
inductive ReadFault
  | system (fault : FileFault)
  | notUtf8
deriving DecidableEq

/-- The reason as it is told. -/
def ReadFault.message : ReadFault → String
  | .system fault => fault.message
  | .notUtf8 => "stream did not contain valid UTF-8"

/-- The name can be that of a file. -/
def IsFileName (name : List Char) : Prop := name ∉ [[], ['.'], ['.', '.']]

/-- What a file system can do for a program, and what the program may rely on. -/
structure FileSystem (State File : Type) where
  /-- The file that a path leads to, whether it is there or not. -/
  file? : State → String → Option File
  /-- What a file holds, if it is there. -/
  content? : State → File → Option (List UInt8)
  read : State → String → Except FileFault (List UInt8)
  /-- Makes what a path leads to, or empties it. -/
  create : State → String → Except FileFault State
  /-- Writes to what was just made; with a fault, not all of the bytes. -/
  writeAll : State → String → List UInt8 → State × Option FileFault
  read_named {s : State} {path : String} {bytes : List UInt8} (read : read s path = .ok bytes) :
    IsFileName (splitPath path.toList).2
  create_file? {s s' : State} {path : String} (created : create s path = .ok s') :
    file? s' path = file? s path
  create_own {s s' : State} {path : String} {f : File} (created : create s path = .ok s')
    (own : file? s path = some f) : content? s' f = some []
  create_other {s s' : State} {path : String} {f : File} (created : create s path = .ok s')
    (other : file? s path ≠ some f) : content? s' f = content? s f
  writeAll_own {s s' : State} {path : String} {bytes : List UInt8} {f : File}
    (empty : content? s f = some []) (written : writeAll s path bytes = (s', none))
    (own : file? s path = some f) : content? s' f = some bytes
  writeAll_other {s : State} {path : String} {bytes : List UInt8} {f : File}
    (other : file? s path ≠ some f) : content? (writeAll s path bytes).1 f = content? s f

namespace FileSystem

variable {State File : Type}

/-- The text of the file at a path. -/
def readText (fs : FileSystem State File) (s : State) (path : String) : Except ReadFault String :=
  match fs.read s path with
  | .error fault => .error (.system fault)
  | .ok bytes =>
    match String.fromUTF8? ⟨bytes.toArray⟩ with
    | some text => .ok text
    | none => .error .notUtf8

end FileSystem

end Bisc.CommandLine
