import Bisc.Proofs.Encoding
import Mathlib

/-!
A reader of object files that knows the layout and nothing else: where the fields of the header and
of the table entries are, and that the contents of a section are where its entry says. It gives back
every object file whose numbers have room in their fields, so two such files with the same bytes are
the same.
-/
namespace Bisc

/-! ## Reading -/

/-- The number that bytes spell, the least significant first. -/
def ofLittleEndian : List UInt8 → Nat
  | [] => 0
  | b :: bs => b.toNat + 256 * ofLittleEndian bs

/-- The bytes of a file from an offset on; none if the file ends before the last of them. -/
def bytesAt? (file : List UInt8) (offset size : Nat) : Option (List UInt8) :=
  if offset + size ≤ file.length then some ((file.drop offset).take size) else none

def fieldAt? (file : List UInt8) (offset width : Nat) : Option Nat :=
  (bytesAt? file offset width).map ofLittleEndian

def SectionFlags.ofBits (n : Nat) : SectionFlags :=
  ⟨n.testBit 0, n.testBit 1, n.testBit 2, n.testBit 3, n.testBit 4⟩

/-- The name in a field of the table: what stands before the padding. -/
def nameIn? (field : List UInt8) : Option String := String.fromUTF8? (field.takeWhile (· ≠ 0)).toByteArray

/-- The table entry at an offset. -/
def readHeader? (file : List UInt8) (offset : Nat) : Option SectionHeader := do
  guard (fieldAt? file offset 1 = some 1)
  let flags ← fieldAt? file (offset + 1) 1
  let contents ← fieldAt? file (offset + 2) 4
  let address ← fieldAt? file (offset + 6) 4
  let size ← fieldAt? file (offset + 10) 4
  let name ← nameIn? (← bytesAt? file (offset + 14) 16)
  return ⟨.ofBits flags, contents, .ofNat address, size, name⟩

def readHeaders? (file : List UInt8) : Nat → Nat → Option (List SectionHeader)
  | 0, _ => some []
  | count + 1, offset => do
    let h ← readHeader? file offset
    return h :: (← readHeaders? file count (offset + 30))

/-- The section table: the header says where it is and how many entries it has. -/
def readTable? (file : List UInt8) : Option (List SectionHeader) := do
  readHeaders? file (← fieldAt? file 14 2) (← fieldAt? file 10 4)

def readImage? (file : List UInt8) (h : SectionHeader) : Option SectionImage := do
  return ⟨h.name, h.flags, h.address, ← bytesAt? file h.offset h.size⟩

/-- The object file that bytes are. -/
def readObject? (file : List UInt8) : Option ObjectFile := do
  guard (bytesAt? file 0 6 = some [0x42, 0x49, 0x53, 0x43, 0xB1, 0])
  return ⟨.ofNat (← fieldAt? file 6 4), ← (← readTable? file).mapM (readImage? file)⟩

/-- The ranges of table entries lie one after the other, from `start` to `stop`. -/
def Adjoin (start : Nat) : List SectionHeader → Nat → Prop
  | [], stop => start = stop
  | h :: hs, stop => h.offset = start ∧ Adjoin (start + h.size) hs stop

/-- The object file has a place in the format: its images were made for their names, which have no
    zero byte, and every number has room in its field. -/
structure ObjectFile.Representable (f : ObjectFile) : Prop where
  made : ∀ image ∈ f.sections, ∃ pos, SectionImage.make image.name image.address image.bytes pos = .ok image
  named : ∀ image ∈ f.sections, 0 ∉ Text.utf8 image.name.toList
  count : f.sections.length ≤ 65535
  size : 16 + 30 * f.sections.length + (f.sections.flatMap SectionImage.bytes).length < 0x100000000

/-! ## Fields -/

theorem ofLittleEndian_littleEndian (width n : Nat) : ofLittleEndian (littleEndian width n) = n % 256 ^ width := by
  induction width generalizing n with
  | zero => simp [littleEndian, ofLittleEndian, Nat.mod_one]
  | succ width ih =>
    have byte : (UInt8.ofNat (n % 256)).toNat = n % 256 := by simp
    rw [littleEndian, ofLittleEndian, ih, byte, Nat.pow_succ, Nat.mul_comm _ 256, Nat.mod_mul]

theorem bytesAt?_within (before bytes after : List UInt8) {offset size : Nat}
    (inside : offset + size ≤ bytes.length) :
    bytesAt? (before ++ bytes ++ after) (before.length + offset) size = some ((bytes.drop offset).take size) := by
  have room : before.length + offset + size ≤ (before ++ bytes ++ after).length := by
    simp only [List.length_append]
    omega
  have rest : (before ++ bytes ++ after).drop (before.length + offset) = bytes.drop offset ++ after := by
    rw [List.append_assoc, List.drop_length_add_append, List.drop_append_of_le_length (by omega)]
  rw [bytesAt?, if_pos room, rest, List.take_append_of_le_length (by simp; omega)]

theorem bytesAt?_whole (before bytes after : List UInt8) :
    bytesAt? (before ++ bytes ++ after) before.length bytes.length = some bytes := by
  simpa using bytesAt?_within before bytes after (Nat.le_of_eq (Nat.zero_add bytes.length))

theorem SectionFlags.ofBits_byte (f : SectionFlags) : ofBits f.byte.toNat = f := by
  obtain ⟨read, write, execute, initialized, code⟩ := f
  revert read write execute initialized code
  decide

theorem utf8_length (cs : List Char) : (Text.utf8 cs).length = Text.utf8Length cs := by
  induction cs with
  | nil => rfl
  | cons c cs ih =>
    have head : (String.utf8EncodeChar c).length = c.utf8Size := String.length_utf8EncodeChar c
    rw [Text.utf8] at ih
    rw [Text.utf8, List.flatMap_cons, List.length_append, ih, head]
    rfl

theorem utf8_toByteArray (s : String) : (Text.utf8 s.toList).toByteArray = s.toByteArray := by
  have spelled : (String.ofList s.toList).toByteArray = s.toByteArray := by rw [String.ofList_toList]
  exact spelled

private theorem nameField_eq {name : String} (short : Text.utf8Length name.toList ≤ 16) :
    nameField name = Text.utf8 name.toList ++ List.replicate (16 - Text.utf8Length name.toList) 0 := by
  have whole : (Text.utf8 name.toList).take sectionNameSize = Text.utf8 name.toList :=
    List.take_of_length_le (by rw [utf8_length]; exact short)
  simp only [nameField, whole, utf8_length]
  rfl

/-- A name is read off its field: the padding begins at the first zero. -/
theorem nameIn?_nameField {name : String} (short : Text.utf8Length name.toList ≤ 16)
    (zeroless : 0 ∉ Text.utf8 name.toList) :
    nameIn? (nameField name) = some name := by
  have before : ∀ b ∈ Text.utf8 name.toList, (decide (b ≠ 0)) = true := by
    intro b member
    have differs : b ≠ 0 := fun zero => zeroless (zero ▸ member)
    simpa using differs
  have padding : (List.replicate (16 - Text.utf8Length name.toList) (0 : UInt8)).takeWhile (· ≠ 0) = [] := by
    cases 16 - Text.utf8Length name.toList <;> simp [List.replicate_succ]
  rw [nameIn?, nameField_eq short, List.takeWhile_append_of_pos before, padding, List.append_nil, utf8_toByteArray,
    String.fromUTF8?, dif_pos name.isValidUTF8]
  rfl

@[simp] theorem nameField_length (name : String) : (nameField name).length = 16 := by
  simp only [nameField, List.length_append, List.length_replicate, List.length_take, sectionNameSize]
  omega

@[simp] theorem SectionHeader.encode_length (h : SectionHeader) : h.encode.length = 30 := by
  simp [encode]

@[simp] theorem ObjectFile.header_length (f : ObjectFile) : f.header.length = 16 := by
  simp [header]

/-! ## The table -/

/-- The table entries of images whose contents start at an offset. -/
def headersFrom (offset : Nat) : List SectionImage → List SectionHeader
  | [] => []
  | i :: is => ⟨i.flags, offset, i.address, i.bytes.length, i.name⟩ :: headersFrom (offset + i.bytes.length) is

theorem ObjectFile.table_eq (f : ObjectFile) : f.table = headersFrom (16 + 30 * f.sections.length) f.sections := by
  have run (is : List SectionImage) (offset : Nat) :
      ((is.mapM SectionImage.header).run offset).1 = headersFrom offset is := by
    induction is generalizing offset with
    | nil => rfl
    | cons i is ih =>
      rw [List.mapM_cons, headersFrom, ← ih]
      rfl
  exact run f.sections _

@[simp] theorem headersFrom_length (offset : Nat) (is : List SectionImage) :
    (headersFrom offset is).length = is.length := by
  induction is generalizing offset with
  | nil => rfl
  | cons i is ih => simp [headersFrom, ih]

theorem flatMap_encode_length (hs : List SectionHeader) :
    (hs.flatMap SectionHeader.encode).length = 30 * hs.length := by
  induction hs with
  | nil => rfl
  | cons h hs ih =>
    rw [List.flatMap_cons, List.length_append, ih, SectionHeader.encode_length, List.length_cons]
    omega

theorem ObjectFile.encode_length (f : ObjectFile) :
    f.encode.length = 16 + 30 * f.sections.length + (f.sections.flatMap SectionImage.bytes).length := by
  rw [encode, List.length_append, List.length_append, header_length, flatMap_encode_length,
    table_eq, headersFrom_length]

/-- The fields of a table entry that stands in a file. -/
structure HeaderAt (file : List UInt8) (offset : Nat) (h : SectionHeader) : Prop where
  type : fieldAt? file offset 1 = some 1
  flags : fieldAt? file (offset + 1) 1 = some h.flags.byte.toNat
  contents : fieldAt? file (offset + 2) 4 = some (h.offset % 0x100000000)
  address : fieldAt? file (offset + 6) 4 = some h.address.toNat
  size : fieldAt? file (offset + 10) 4 = some (h.size % 0x100000000)
  name : bytesAt? file (offset + 14) 16 = some (nameField h.name)

theorem headerAt_encode (before after : List UInt8) (h : SectionHeader) :
    HeaderAt (before ++ h.encode ++ after) before.length h := by
  have bytes {offset size : Nat} (inside : offset + size ≤ 30) :
      bytesAt? (before ++ h.encode ++ after) (before.length + offset) size =
      some ((h.encode.drop offset).take size) :=
    bytesAt?_within _ _ _ (by simpa using inside)
  have number {offset n : Nat} (inside : offset + 4 ≤ 30) (here : (h.encode.drop offset).take 4 = littleEndian 4 n) :
      fieldAt? (before ++ h.encode ++ after) (before.length + offset) 4 = some (n % 0x100000000) := by
    rw [fieldAt?, bytes inside, here, Option.map_some, ofLittleEndian_littleEndian]
    rfl
  have name : (h.encode.drop 14).take 16 = nameField h.name := List.take_of_length_le (by simp)
  refine ⟨?_, ?_, number (by decide) rfl, ?_, number (by decide) rfl, ?_⟩
  · rw [fieldAt?, ← Nat.add_zero before.length, bytes (by decide)]
    rfl
  · rw [fieldAt?, bytes (by decide)]
    rfl
  · rw [number (n := h.address.toNat) (by decide) rfl, Nat.mod_eq_of_lt h.address.toNat_lt]
  · rw [bytes (by decide), name]

/-- An entry that has room for its numbers is read as it is. -/
theorem HeaderAt.read {file : List UInt8} {offset : Nat} {h : SectionHeader} (stands : HeaderAt file offset h)
    (named : nameIn? (nameField h.name) = some h.name) (near : h.offset < 0x100000000)
    (small : h.size < 0x100000000) :
    readHeader? file offset = some h := by
  simp [readHeader?, stands.type, stands.flags, stands.contents, stands.address, stands.size, stands.name, named,
    Nat.mod_eq_of_lt near, Nat.mod_eq_of_lt small, SectionFlags.ofBits_byte]

theorem readHeaders?_encode {hs : List SectionHeader} (named : ∀ h ∈ hs, nameIn? (nameField h.name) = some h.name)
    (near : ∀ h ∈ hs, h.offset < 0x100000000) (small : ∀ h ∈ hs, h.size < 0x100000000) (before after : List UInt8) :
    readHeaders? (before ++ hs.flatMap SectionHeader.encode ++ after) hs.length before.length = some hs := by
  induction hs generalizing before with
  | nil => rfl
  | cons h hs ih =>
    have first := (headerAt_encode before (hs.flatMap SectionHeader.encode ++ after) h).read
      (named h List.mem_cons_self)
      (near h List.mem_cons_self) (small h List.mem_cons_self)
    have rest := ih (fun g member => named g (List.mem_cons_of_mem _ member))
      (fun g member => near g (List.mem_cons_of_mem _ member))
      (fun g member => small g (List.mem_cons_of_mem _ member)) (before ++ h.encode)
    have split : before ++ (h :: hs).flatMap SectionHeader.encode ++ after =
        before ++ h.encode ++ (hs.flatMap SectionHeader.encode ++ after) := by simp
    have next : (before ++ h.encode).length = before.length + 30 := by simp
    rw [List.append_assoc (before ++ h.encode), next] at rest
    simp only [split, List.length_cons, readHeaders?, first, rest, bind, Option.bind, pure]

theorem adjoin_headersFrom (start : Nat) (is : List SectionImage) :
    Adjoin start (headersFrom start is) (start + (is.flatMap SectionImage.bytes).length) := by
  induction is generalizing start with
  | nil => rfl
  | cons i is ih =>
    refine ⟨rfl, ?_⟩
    rw [List.flatMap_cons, List.length_append, ← Nat.add_assoc]
    exact ih _

namespace Adjoin

variable {start stop : Nat} {hs : List SectionHeader}

theorem le (ranges : Adjoin start hs stop) : start ≤ stop := by
  induction hs generalizing start with
  | nil => exact Nat.le_of_eq ranges
  | cons h hs ih =>
    have := ih ranges.2
    omega

theorem inside (ranges : Adjoin start hs stop) : ∀ h ∈ hs, start ≤ h.offset ∧ h.offset + h.size ≤ stop := by
  induction hs generalizing start with
  | nil => simp
  | cons g hs ih =>
    obtain ⟨here, later⟩ := ranges
    intro h member
    rcases List.mem_cons.mp member with rfl | member
    · have := later.le
      omega
    · have := ih later h member
      omega

/-- Ranges that adjoin do not overlap. -/
theorem apart (ranges : Adjoin start hs stop) : hs.Pairwise fun g h => g.offset + g.size ≤ h.offset := by
  induction hs generalizing start with
  | nil => exact .nil
  | cons g hs ih =>
    obtain ⟨here, later⟩ := ranges
    refine .cons (fun h member => ?_) (ih later)
    have := (later.inside h member).1
    omega

end Adjoin

/-- The contents are read where the entries say. -/
theorem readImages?_bytes (is : List SectionImage) (before : List UInt8) :
    (headersFrom before.length is).mapM (readImage? (before ++ is.flatMap SectionImage.bytes)) = some is := by
  induction is generalizing before with
  | nil => rfl
  | cons i is ih =>
    have first : bytesAt? (before ++ (i.bytes ++ is.flatMap SectionImage.bytes)) before.length i.bytes.length =
        some i.bytes := by
      rw [← List.append_assoc]
      exact bytesAt?_whole _ _ _
    have rest := ih (before ++ i.bytes)
    rw [List.length_append, List.append_assoc] at rest
    rw [headersFrom, List.mapM_cons, List.flatMap_cons, rest, readImage?, first]
    rfl

/-! ## Whole files -/

namespace ObjectFile

variable {f : ObjectFile}

private theorem header_bytes {offset size : Nat} (inside : offset + size ≤ 16) :
    bytesAt? f.encode offset size = some ((f.header.drop offset).take size) := by
  rw [encode, List.append_assoc]
  simpa using bytesAt?_within [] f.header
    (f.table.flatMap SectionHeader.encode ++ f.sections.flatMap SectionImage.bytes) (by simpa using inside)

/-- The number of sections in the header is cut to its field. -/
theorem count_field (f : ObjectFile) : fieldAt? f.encode 14 2 = some (f.sections.length % 65536) := by
  have here : (f.header.drop 14).take 2 = littleEndian 2 f.sections.length := rfl
  rw [fieldAt?, header_bytes (by decide), here, Option.map_some, ofLittleEndian_littleEndian]
  rfl

private theorem header_fields (f : ObjectFile) : bytesAt? f.encode 0 6 = some [0x42, 0x49, 0x53, 0x43, 0xB1, 0] ∧
    fieldAt? f.encode 6 4 = some f.entry.toNat ∧ fieldAt? f.encode 10 4 = some 16 := by
  have entry : (f.header.drop 6).take 4 = littleEndian 4 f.entry.toNat := rfl
  have start : (f.header.drop 10).take 4 = littleEndian 4 16 := rfl
  refine ⟨header_bytes (by decide), ?_, ?_⟩
  · rw [fieldAt?, header_bytes (by decide), entry, Option.map_some, ofLittleEndian_littleEndian]
    exact congrArg some (Nat.mod_eq_of_lt f.entry.toNat_lt)
  · rw [fieldAt?, header_bytes (by decide), start]
    rfl

private theorem names_read (fits : f.Representable) : ∀ h ∈ f.table, nameIn? (nameField h.name) = some h.name := by
  have names (is : List SectionImage) (offset : Nat) : ∀ h ∈ headersFrom offset is, ∃ i ∈ is, i.name = h.name := by
    induction is generalizing offset with
    | nil => simp [headersFrom]
    | cons i is ih =>
      intro h member
      rcases List.mem_cons.mp member with rfl | member
      · exact ⟨i, List.mem_cons_self, rfl⟩
      · obtain ⟨j, later, same⟩ := ih _ h member
        exact ⟨j, List.mem_cons_of_mem _ later, same⟩
  intro h member
  rw [table_eq] at member
  obtain ⟨i, listed, same⟩ := names _ _ h member
  obtain ⟨pos, made⟩ := fits.made i listed
  have short : Text.utf8Length i.name.toList ≤ 16 := by
    unfold SectionImage.make at made
    split at made
    · assumption
    · cases made
  rw [← same]
  exact nameIn?_nameField short (fits.named i listed)

theorem adjoin_table (f : ObjectFile) : Adjoin (16 + 30 * f.sections.length) f.table f.encode.length := by
  rw [table_eq, encode_length]
  exact adjoin_headersFrom _ _

/-- The table is read as it was made. -/
theorem readTable?_encode (fits : f.Representable) : readTable? f.encode = some f.table := by
  obtain ⟨-, -, start⟩ := header_fields f
  have count : fieldAt? f.encode 14 2 = some f.table.length := by
    have few := fits.count
    rw [count_field, table_eq, headersFrom_length, Nat.mod_eq_of_lt (by omega)]
  have room : ∀ h ∈ f.table, h.offset < 0x100000000 ∧ h.size < 0x100000000 := by
    intro h member
    have range := f.adjoin_table.inside h member
    have size := fits.size
    rw [encode_length] at range
    omega
  have read := readHeaders?_encode (names_read fits) (fun h member => (room h member).1)
    (fun h member => (room h member).2)
    f.header (f.sections.flatMap SectionImage.bytes)
  rw [header_length] at read
  simp only [readTable?, count, start, bind, Option.bind]
  exact read

/-- An object file with a place in the format is read as it is. -/
theorem readObject?_encode (fits : f.Representable) : readObject? f.encode = some f := by
  obtain ⟨magic, entry, -⟩ := header_fields f
  have images : f.table.mapM (readImage? f.encode) = some f.sections := by
    have start : (f.header ++ f.table.flatMap SectionHeader.encode).length = 16 + 30 * f.sections.length := by
      rw [List.length_append, header_length, flatMap_encode_length, table_eq, headersFrom_length]
    have read := readImages?_bytes f.sections (f.header ++ f.table.flatMap SectionHeader.encode)
    rw [start, ← table_eq] at read
    exact read
  simp [readObject?, magic, entry, readTable?_encode fits, images]

end ObjectFile

/-- Object files can be read back: the reader gives the file, the ranges of the contents adjoin from the
    end of the table to the end of the file and do not overlap, and no other file has the same bytes. -/
theorem object_read_back {f : ObjectFile} (fits : f.Representable) :
    readObject? f.encode = some f ∧
      (∃ table, readTable? f.encode = some table ∧ table.length = f.sections.length ∧
        Adjoin (16 + 30 * f.sections.length) table f.encode.length ∧
        table.Pairwise fun g h => g.offset + g.size ≤ h.offset) ∧
      ∀ g : ObjectFile, g.Representable → g.encode = f.encode → g = f := by
  refine ⟨f.readObject?_encode fits, ⟨f.table, f.readTable?_encode fits, ?_, f.adjoin_table,
    f.adjoin_table.apart⟩, ?_⟩
  · rw [f.table_eq, headersFrom_length]
  · intro g other same
    have read := g.readObject?_encode other
    rw [same, f.readObject?_encode fits, Option.some.injEq] at read
    exact read.symm

/-- An object file with an empty section between two others; the name of the first fills its field. -/
def threeSections : ObjectFile := ⟨3, [⟨"sixteen_bytes_ok", .ofName "sixteen_bytes_ok", 0, [1, 2, 3]⟩,
  ⟨".bss", .ofName ".bss", 3, []⟩, ⟨".text", .ofName ".text", 3, [1, 0, 0, 0]⟩]⟩

theorem object_read_back_threeSections :
    threeSections.Representable ∧ readObject? threeSections.encode = some threeSections := by
  have fits : threeSections.Representable := by
    constructor
    · intro image member
      refine ⟨⟨1, 1⟩, ?_⟩
      revert image
      decide
    · decide
    · decide
    · decide
  exact ⟨fits, (object_read_back fits).1⟩

end Bisc
