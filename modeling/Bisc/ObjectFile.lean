import Bisc.Encoding
import Bisc.Error
import Bisc.Text.Utf8

/-!
Object files: a header of 16 bytes, a table with 30 bytes for each section, and the contents of the
sections. All numbers are little-endian.

    header   magic (4), architecture (1), byte order (1), entry (4), table offset (4), count (2)
    section  type (1), flags (1), file offset (4), address (4), size (4), name (16)
-/
namespace Bisc

/-- What a section may be used for. -/
structure SectionFlags where
  read : Bool
  write : Bool
  execute : Bool
  initialized : Bool
  code : Bool
deriving DecidableEq

namespace SectionFlags

/-- The flags as bits, `read` the lowest. -/
def byte (f : SectionFlags) : UInt8 :=
  .ofNat (f.read.toNat + 2 * f.write.toNat + 4 * f.execute.toNat + 8 * f.initialized.toNat +
    16 * f.code.toNat)

/-- The flags of the section of a name. -/
def ofName (name : String) : SectionFlags :=
  if name = ".text" then ⟨true, false, true, true, true⟩
  else if name = ".rodata" then ⟨true, false, false, true, false⟩
  else if name = ".bss" then ⟨true, true, false, false, false⟩
  else ⟨true, true, false, true, false⟩

end SectionFlags

/-- The contents of a section and where they are loaded. -/
structure SectionImage where
  name : String
  flags : SectionFlags
  address : UInt32
  bytes : List UInt8
deriving DecidableEq

/-- An object file: where it starts, and its sections. -/
structure ObjectFile where
  entry : UInt32
  sections : List SectionImage
deriving DecidableEq

/-- An entry of the section table. -/
structure SectionHeader where
  flags : SectionFlags
  offset : Nat
  address : UInt32
  size : Nat
  name : String
deriving DecidableEq

/-- The bytes of the header. -/
def fileHeaderSize : Nat := 16
/-- The bytes of an entry of the section table. -/
def sectionHeaderSize : Nat := 30
/-- The bytes of a section's name. -/
def sectionNameSize : Nat := 16

/-- The image of a section whose source is at `pos`; its name must have room in the table. -/
def SectionImage.make (name : String) (address : UInt32) (bytes : List UInt8) (pos : Position) :
    Except Error SectionImage :=
  if Text.utf8Length name.toList ≤ sectionNameSize then
    .ok ⟨name, .ofName name, address, bytes⟩
  else .error ⟨.outOfRange (.sectionName name), pos⟩

/-- The table entry of a section; the state is where the next contents go in the file. -/
def SectionImage.header (image : SectionImage) : StateM Nat SectionHeader := fun offset =>
  (⟨image.flags, offset, image.address, image.bytes.length, image.name⟩,
    offset + image.bytes.length)

/-- A name as the table has it: cut or padded with zeros to its size. -/
def nameField (name : String) : List UInt8 :=
  let bytes := (Text.utf8 name.toList).take sectionNameSize
  bytes ++ List.replicate (sectionNameSize - bytes.length) 0

/-- The bytes of a table entry. -/
def SectionHeader.encode (h : SectionHeader) : List UInt8 :=
  [1, h.flags.byte] ++ littleEndian 4 h.offset ++ littleEndian 4 h.address.toNat ++
    littleEndian 4 h.size ++ nameField h.name

namespace ObjectFile

/-- The section table. -/
def table (f : ObjectFile) : List SectionHeader :=
  ((f.sections.mapM SectionImage.header).run
    (fileHeaderSize + sectionHeaderSize * f.sections.length)).1

/-- The bytes of the header. -/
def header (f : ObjectFile) : List UInt8 :=
  [0x42, 0x49, 0x53, 0x43, 0xB1, 0] ++ littleEndian 4 f.entry.toNat ++
    littleEndian 4 fileHeaderSize ++ littleEndian 2 f.sections.length

/-- The bytes of the file. -/
def encode (f : ObjectFile) : List UInt8 :=
  f.header ++ f.table.flatMap SectionHeader.encode ++ f.sections.flatMap SectionImage.bytes

end ObjectFile
end Bisc
