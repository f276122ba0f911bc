/-!
The directory that the program runs in: files by name, and no directories below it. Paths are those
of POSIX, walked name by name from the left, so that the first fault on the way is the one told.
-/
namespace Bisc.CommandLine

/-- A failure of the file system, with its number. -/
structure FileFault where
  text : String
  code : Nat
deriving DecidableEq

namespace FileFault

/-- Nothing has that name. -/
def noSuchFile : FileFault := ⟨"No such file or directory", 2⟩
/-- The path goes on below a file. -/
def notADirectory : FileFault := ⟨"Not a directory", 20⟩
/-- The path names a directory where a file is needed. -/
def isADirectory : FileFault := ⟨"Is a directory", 21⟩
/-- No file can have a name of that length. -/
def nameTooLong : FileFault := ⟨"File name too long", 36⟩

/-- A fault as it is told. -/
def message (f : FileFault) : String := s!"{f.text} (os error {f.code})"

end FileFault

/-- The files of a directory, by name. -/
structure Directory where
  files : List (String × List UInt8)
deriving DecidableEq

/-- Where a path leads: to the directory, to one above it, to the root, to the devices below the
    root, or to a file. -/
inductive Place
  | here
  | above
  | root
  | devices
  | file (bytes : List UInt8)
deriving DecidableEq

namespace Place

/-- A path goes on from here. -/
def isDirectory : Place → Bool
  | .file _ => false
  | _ => true

/-- The directory that holds a place. -/
def parent : Place → Place
  | .root => .root
  | .devices => .root
  | _ => .above

end Place

/-- The names that a path goes through. -/
def names (path : String) : List String :=
  ((path.toList.splitOn '/').map String.ofList).filter (· ≠ "")

/-- Where a path starts. -/
def origin (path : String) : Place := if path.toList.head? = some '/' then .root else .here

/-- The path says that it leads to a directory. -/
def isSlashed (path : String) : Bool := path.toList.getLast? = some '/'

/-- An empty path leads nowhere, and one of 4096 bytes or more is too long. -/
def checkPath (path : String) : Except FileFault Unit :=
  if path = "" then .error .noSuchFile
  else if path.utf8ByteSize ≥ 4096 then .error .nameTooLong
  else .ok ()

namespace Directory

/-- The contents of a file. -/
def get? (d : Directory) (name : String) : Option (List UInt8) := d.files.lookup name

/-- What a place holds by a name. Elsewhere nothing is known but the null device, which is empty. -/
def entry? (d : Directory) (place : Place) (name : String) : Option Place :=
  match place with
  | .here => (d.get? name).map .file
  | .root => if name = "dev" then some .devices else none
  | .devices => if name = "null" then some (.file []) else none
  | _ => none

/-- The place that a name leads to from a place. A name has 255 bytes at most. -/
def step (d : Directory) (place : Place) (name : String) : Except FileFault Place :=
  if !place.isDirectory then .error .notADirectory
  else if name = "." then .ok place
  else if name = ".." then .ok place.parent
  else if name.utf8ByteSize > 255 then .error .nameTooLong
  else match d.entry? place name with
    | some found => .ok found
    | none => .error .noSuchFile

/-- The place that names lead to, one after the other. -/
def walk (d : Directory) (place : Place) (path : List String) : Except FileFault Place :=
  path.foldlM d.step place

/-- The bytes of the file at a path. -/
def read (d : Directory) (path : String) : Except FileFault (List UInt8) := do
  checkPath path
  match ← d.walk (origin path) (names path) with
  | .file bytes => if isSlashed path then throw .notADirectory else return bytes
  | _ => throw .isADirectory

/-- The directory after a file was put in it, in place of one of the same name. -/
def put (d : Directory) (name : String) (bytes : List UInt8) : Directory :=
  ⟨(d.files.filter fun file => file.1 ≠ name) ++ [(name, bytes)]⟩

/-- The directory after bytes were written to a name in a place; what is elsewhere leaves no trace
    here. -/
def writeAt (d : Directory) (place : Place) (name : String) (bytes : List UInt8) :
    Except FileFault Directory :=
  let written := .ok (if place = .here then d.put name bytes else d)
  match d.step place name with
  | .ok (.file _) => written
  | .ok _ => .error .isADirectory
  | .error fault => if fault = .noSuchFile then written else .error fault

/-- The directory after bytes were written to a path. -/
def write (d : Directory) (path : String) (bytes : List UInt8) : Except FileFault Directory := do
  checkPath path
  match (names path).getLast? with
  | none => throw .isADirectory
  | some name =>
    let place ← d.walk (origin path) (names path).dropLast
    if place.isDirectory && isSlashed path then throw .isADirectory
    d.writeAt place name bytes

/-- The name in the directory that a path leads to, whether there is a file of that name or not. -/
def name? (d : Directory) (path : String) : Option String :=
  match (names path).getLast?, d.walk (origin path) (names path).dropLast with
  | some name, .ok .here => some name
  | _, _ => none

end Directory
end Bisc.CommandLine
