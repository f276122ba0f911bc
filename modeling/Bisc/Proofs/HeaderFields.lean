import Bisc.Proofs.Images
import Bisc.Proofs.ObjectReader

/-!
What the numbers in the header and in the table of an object file say. Each is cut to its field, so
it is the true number exactly if that has room there. The layout of a program bounds the contents of
all sections together, but neither the number of sections nor where the table moves the contents to,
and a program with too many sections gets a file that tells of fewer.
-/
namespace Bisc

namespace ObjectFile

/-- Where the contents of the `k`-th section begin: after the table and the contents before them. -/
def contentsOffset (f : ObjectFile) (k : Nat) : Nat :=
  16 + 30 * f.sections.length + ((f.sections.take k).flatMap SectionImage.bytes).length

/-- The header tells how many sections there are, and the table where the contents of each begin and
    how long they are. -/
structure TrueFields (f : ObjectFile) : Prop where
  count : fieldAt? f.encode 14 2 = some f.sections.length
  offsets : ∀ (k : Nat) (image : SectionImage), f.sections[k]? = some image →
    fieldAt? f.encode (16 + 30 * k + 2) 4 = some (f.contentsOffset k)
  sizes : ∀ (k : Nat) (image : SectionImage), f.sections[k]? = some image →
    fieldAt? f.encode (16 + 30 * k + 10) 4 = some image.bytes.length

/-- The numbers have room in their fields. -/
structure Narrow (f : ObjectFile) : Prop where
  count : f.sections.length < 0x10000
  offsets : ∀ (k : Nat) (image : SectionImage), f.sections[k]? = some image → f.contentsOffset k < 0x100000000
  sizes : ∀ (k : Nat) (image : SectionImage), f.sections[k]? = some image → image.bytes.length < 0x100000000

/-! ## Fields -/

theorem headersFrom_getElem? (offset : Nat) (is : List SectionImage) (k : Nat) : (headersFrom offset is)[k]? =
    is[k]?.map fun i => ⟨i.flags, offset + ((is.take k).flatMap SectionImage.bytes).length, i.address,
      i.bytes.length, i.name⟩ := by
  induction is generalizing offset k with
  | nil => rfl
  | cons i is ih =>
    cases k with
    | zero => simp [headersFrom]
    | succ k => simp [headersFrom, ih, Nat.add_assoc]

private theorem flatMap_split {α β : Type} (g : α → List β) {xs : List α} {k : Nat} {x : α}
    (found : xs[k]? = some x) :
    xs.flatMap g = (xs.take k).flatMap g ++ g x ++ (xs.drop (k + 1)).flatMap g := by
  obtain ⟨inside, here⟩ := List.getElem?_eq_some_iff.mp found
  conv => lhs; rw [← List.take_append_drop k xs, List.drop_eq_getElem_cons inside, here]
  simp

variable {f : ObjectFile} {k : Nat} {image : SectionImage}

/-- The entry of a section stands in its place of the table. -/
theorem headerAt_section (found : f.sections[k]? = some image) : HeaderAt f.encode (16 + 30 * k)
    ⟨image.flags, f.contentsOffset k, image.address, image.bytes.length, image.name⟩ := by
  have entry : f.table[k]? = some ⟨image.flags, f.contentsOffset k, image.address,
    image.bytes.length, image.name⟩ := by
    rw [table_eq, headersFrom_getElem?, found]
    rfl
  have inside := (List.getElem?_eq_some_iff.mp entry).1
  have place : (f.header ++ (f.table.take k).flatMap SectionHeader.encode).length = 16 + 30 * k := by
    rw [List.length_append, header_length, flatMap_encode_length, List.length_take, Nat.min_eq_left (by omega)]
  have stands := headerAt_encode (f.header ++ (f.table.take k).flatMap SectionHeader.encode)
    ((f.table.drop (k + 1)).flatMap SectionHeader.encode ++ f.sections.flatMap SectionImage.bytes)
    ⟨image.flags, f.contentsOffset k, image.address, image.bytes.length, image.name⟩
  rw [encode, flatMap_split SectionHeader.encode entry, ← place]
  simpa only [List.append_assoc] using stands

/-- The contents of a section begin where they should. -/
theorem contents_at (found : f.sections[k]? = some image) :
    bytesAt? f.encode (f.contentsOffset k) image.bytes.length = some image.bytes := by
  have place : (f.header ++ f.table.flatMap SectionHeader.encode ++
    (f.sections.take k).flatMap SectionImage.bytes).length =
      f.contentsOffset k := by
    rw [List.length_append, List.length_append, header_length, flatMap_encode_length, table_eq,
      headersFrom_length, contentsOffset]
  rw [encode, flatMap_split SectionImage.bytes found, ← List.append_assoc, ← List.append_assoc, ← place]
  exact bytesAt?_whole _ _ _

/-- A field has its number exactly if the number has room in it. -/
private theorem mod_eq_iff {n bound : Nat} (positive : 0 < bound) : some (n % bound) = some n ↔ n < bound := by
  rw [Option.some.injEq]
  exact Nat.mod_eq_iff_lt (Nat.ne_of_gt positive)

theorem trueFields_iff (f : ObjectFile) : f.TrueFields ↔ f.Narrow := by
  have count : fieldAt? f.encode 14 2 = some f.sections.length ↔ f.sections.length < 0x10000 := by
    rw [count_field]
    exact mod_eq_iff (by decide)
  have offset {k : Nat} {image : SectionImage} (found : f.sections[k]? = some image) :
      fieldAt? f.encode (16 + 30 * k + 2) 4 = some (f.contentsOffset k) ↔ f.contentsOffset k < 0x100000000 := by
    rw [(headerAt_section found).contents]
    exact mod_eq_iff (by decide)
  have size {k : Nat} {image : SectionImage} (found : f.sections[k]? = some image) :
      fieldAt? f.encode (16 + 30 * k + 10) 4 = some image.bytes.length ↔ image.bytes.length < 0x100000000 := by
    rw [(headerAt_section found).size]
    exact mod_eq_iff (by decide)
  constructor
  · intro tells
    exact ⟨count.mp tells.count, fun k image found => (offset found).mp (tells.offsets k image found),
      fun k image found => (size found).mp (tells.sizes k image found)⟩
  · intro narrow
    exact ⟨count.mpr narrow.count, fun k image found => (offset found).mpr (narrow.offsets k image found),
      fun k image found => (size found).mpr (narrow.sizes k image found)⟩

end ObjectFile

/-! ## Programs -/

/-- The address space bounds the items of a program together. -/
theorem itemsSize_le_of_analyze {p p' : Program} {symbols : SymbolTable} (analyzed : analyze p = .ok (p', symbols)) :
    itemsSize p.items ≤ 0x100000000 := by
  obtain ⟨symbols', run, -⟩ := analyze_outcome p
  have clear := (Option.or_eq_none_iff.mp (outcome_eq_ok (run.symm.trans analyzed)).1).1
  rcases List.eq_nil_or_concat p.items with none | ⟨before, last, split⟩
  · simp [none]
  · rw [List.concat_eq_append] at split
    have room := of_placementFault?_eq_none (placementFault?_of_split clear split)
    rw [split]
    simpa using room.2.1

/-- The contents of the sections of a program are its items. -/
theorem contents_length {p p' : Program} {symbols : SymbolTable} {object : ObjectFile}
    (analyzed : analyze p = .ok (p', symbols)) (generated : generate p' symbols = .ok object) :
    (object.sections.flatMap SectionImage.bytes).length = itemsSize p.items := by
  have laid := laidOut_of_analyze analyzed
  obtain ⟨bss, encoded, bytes⟩ := bytes_of_images (generate_eq_ok generated)
  have all := laid.itemsSize_take p.items.length
  rw [← laid.length, List.take_length, Program.offset, laid.length, List.take_length] at all
  rw [bytes, flatten_length_of_encode encoded, all]

theorem sections_length {p p' : Program} {symbols : SymbolTable} {object : ObjectFile}
    (analyzed : analyze p = .ok (p', symbols)) (generated : generate p' symbols = .ok object) :
    object.sections.length = p.length := by
  have images := congrArg List.length (generate_eq_ok generated)
  have names := congrArg List.length (laidOut_of_analyze analyzed).names
  simp only [List.length_map] at images names
  rw [← images, names]

/-- The numbers of a program's object file are cut to their fields: they are the true ones exactly if
    there are fewer than 65536 sections and all contents begin and are measured below 2^32. The layout
    gives no more than a bound on the contents of all sections together. -/
theorem header_fields_exact {p p' : Program} {symbols : SymbolTable} {object : ObjectFile}
    (analyzed : analyze p = .ok (p', symbols)) (generated : generate p' symbols = .ok object) :
    object.sections.length = p.length ∧ (object.sections.flatMap SectionImage.bytes).length ≤ 0x100000000 ∧
      fieldAt? object.encode 14 2 = some (p.length % 0x10000) ∧
      (∀ (k : Nat) (image : SectionImage), object.sections[k]? = some image →
        bytesAt? object.encode (object.contentsOffset k) image.bytes.length = some image.bytes ∧
        fieldAt? object.encode (16 + 30 * k + 2) 4 = some (object.contentsOffset k % 0x100000000) ∧
        fieldAt? object.encode (16 + 30 * k + 10) 4 = some (image.bytes.length % 0x100000000)) ∧
      (object.TrueFields ↔ object.Narrow) := by
  have count := sections_length analyzed generated
  refine ⟨count, ?_, ?_, fun k image found => ?_, object.trueFields_iff⟩
  · rw [contents_length analyzed generated]
    exact itemsSize_le_of_analyze analyzed
  · rw [← count]
    exact object.count_field
  · have entry := ObjectFile.headerAt_section found
    exact ⟨ObjectFile.contents_at found, entry.contents, entry.size⟩

/-- The program of a label and a jump, laid out. -/
private def labelledJump : Program :=
  [⟨".text", [⟨.label "a", ⟨1, 1⟩, 0⟩, ⟨.instruction ⟨0x0A, .reg 1⟩, ⟨1, 4⟩, 0⟩]⟩]

theorem header_fields_exact_jump : analyze labelledJump = .ok (labelledJump, ⟨[("a", ⟨0, 1⟩)]⟩) ∧
    ∃ object, generate labelledJump ⟨[("a", ⟨0, 1⟩)]⟩ = .ok object ∧
      fieldAt? object.encode 14 2 = some (1 % 0x10000) ∧ (object.TrueFields ↔ object.Narrow) := by
  have analyzed : analyze labelledJump = .ok (labelledJump, ⟨[("a", ⟨0, 1⟩)]⟩) := rfl
  obtain ⟨-, -, count, -, exact⟩ := header_fields_exact analyzed rfl
  exact ⟨analyzed, _, rfl, count, exact⟩

/-! ## Too many sections -/

/-- A section that has an item and no bytes. -/
def emptySpace : Section := ⟨".bss", [⟨.sectionStart ".bss", ⟨1, 1⟩, 0⟩, ⟨.data (.zeros 0), ⟨2, 1⟩, 0⟩]⟩

private theorem mem_emptySpace {n : Nat} {i : Item} (member : i ∈ Program.items (List.replicate n emptySpace)) :
    i ∈ emptySpace.items := by
  obtain ⟨s, listed, inside⟩ := List.mem_flatMap.mp member
  rwa [List.eq_of_mem_replicate listed] at inside

/-- Items without bytes and labels always find a place at the start of the address space. -/
private theorem firstFault?_light {is before : List Item}
    (each : ∀ i ∈ is, i.node.size = 0 ∧ ∀ name, i.node ≠ .label name)
    (light : itemsSize before = 0) : firstFault? before is = none := by
  induction is generalizing before with
  | nil => rfl
  | cons i is ih =>
    obtain ⟨size, unlabelled⟩ := each i List.mem_cons_self
    have own : placementFault? before i = none := by
      unfold placementFault?
      rw [if_neg (by simp [size32?, light, size])]
      split
      · rename_i name label
        exact absurd label (unlabelled name)
      · rfl
    have later : firstFault? (before ++ [i]) is = none :=
      ih (fun j member => each j (List.mem_cons_of_mem _ member)) (by simp [light, size])
    rw [firstFault?, own, later]
    rfl

private theorem placedSections_replicate (n : Nat) {before : List Item} (light : itemsSize before = 0) :
    placedSections before (List.replicate n emptySpace) = List.replicate n emptySpace := by
  induction n generalizing before with
  | zero => rfl
  | succ n ih =>
    have later : placedSections (before ++ emptySpace.items) (List.replicate n emptySpace) =
        List.replicate n emptySpace :=
      ih (by rw [itemsSize_append, light]; rfl)
    rw [List.replicate_succ, placedSections, later]
    simp [placedItems, emptySpace, light, Node.size]

/-- Any number of such sections is laid out as it is. -/
theorem analyze_replicate (n : Nat) : ∃ symbols,
    analyze (List.replicate n emptySpace) = .ok (List.replicate n emptySpace, symbols) := by
  obtain ⟨symbols, run, -⟩ := analyze_outcome (List.replicate n emptySpace)
  have placed : Program.placementFault? (List.replicate n emptySpace) = none := by
    have each : ∀ i ∈ emptySpace.items, i.node.size = 0 ∧ ∀ name, i.node ≠ .label name := by
      simp [emptySpace, Node.size, Data.size]
    rw [← firstFault?_eq]
    exact firstFault?_light (fun i member => each i (mem_emptySpace member)) rfl
  have plain : Program.constantFault? .checked (List.replicate n emptySpace) = none := by
    have none : Program.constants (List.replicate n emptySpace) = [] := by
      rw [Program.constants, List.flatMap_eq_nil_iff]
      have each : ∀ i ∈ emptySpace.items, i.node.constants = [] := by decide
      intro i member
      rw [each i (mem_emptySpace member)]
      rfl
    rw [Program.constantFault?, none]
    rfl
  refine ⟨symbols, ?_⟩
  rw [run, placed, plain, placedSections_replicate n rfl, List.map_replicate]
  rfl

theorem generate_replicate (n : Nat) (symbols : SymbolTable) : ∃ entry,
    generate (List.replicate n emptySpace) symbols = .ok ⟨entry,
      List.replicate n ⟨".bss", .ofName ".bss", 0, []⟩⟩ := by
  have image : emptySpace.image = .ok ⟨".bss", .ofName ".bss", 0, []⟩ := rfl
  have made : (images (List.replicate n emptySpace)).result =
      .ok (List.replicate n ⟨".bss", .ofName ".bss", 0, []⟩) := by
    rw [images, Run.each_result, mapM_eq_ok_iff, List.map_replicate, List.map_replicate, image]
  exact ⟨_, by rw [generate, made]; rfl⟩

/-- A program of 65536 sections is assembled without an error, and its file says that it has none. -/
theorem section_count_wraps : ∃ p p' symbols object, analyze p = .ok (p', symbols) ∧
    generate p' symbols = .ok object ∧
    object.sections.length = 65536 ∧ fieldAt? object.encode 14 2 = some 0 ∧ ¬object.TrueFields := by
  obtain ⟨symbols, analyzed⟩ := analyze_replicate 65536
  obtain ⟨entry, generated⟩ := generate_replicate 65536 symbols
  refine ⟨_, _, symbols, _, analyzed, generated, List.length_replicate, ?_, fun tells => ?_⟩
  · rw [ObjectFile.count_field, List.length_replicate]
  · have count := ((ObjectFile.trueFields_iff _).mp tells).count
    rw [List.length_replicate] at count
    omega

end Bisc
