import Bisc.Program.Parser
import Bisc.Proofs.Layout

/-!
The images of an object file: sizes, addresses and bytes are computed apart, and agree. What an
item's address says is where its bytes are.
-/
namespace Bisc

/-- Every section has an item. -/
def Program.NoEmptySection (p : Program) : Prop := ∀ s ∈ p, s.items ≠ []

/-- The object file has the program `p`, laid out as `p'` with the labels `symbols`, in its images. -/
structure Coherent (p p' : Program) (symbols : SymbolTable) (object : ObjectFile) : Prop where
  /-- There is one image for each section. -/
  names : object.sections.map SectionImage.name = p.map Section.name
  /-- An image is loaded after the bytes of the images before it. -/
  addresses : ∀ (k : Nat) (image : SectionImage), object.sections[k]? = some image →
    image.address.toNat = ((object.sections.take k).flatMap SectionImage.bytes).length
  /-- The bytes of an item are in the image where its address says. -/
  items : ∀ (k : Nat) (s : Section), p[k]? = some s → ∃ s' image, p'[k]? = some s' ∧
    object.sections[k]? = some image ∧ s'.items.length = s.items.length ∧
      ∀ i ∈ s'.items, ∃ before bytes after, i.encode = .ok bytes ∧
        image.bytes = before ++ bytes ++ after ∧ s'.address.toNat + before.length = i.address.toNat
  /-- A label has the address of the first byte after those of the items before it. -/
  labels : ∀ (k : Nat) (i : Item) (name : String), p.items[k]? = some i → i.node = .label name →
    ∃ address bytes, symbols.address? name = some address ∧
      (p'.items.take k).mapM Item.encode = .ok bytes ∧
      bytes.flatten <+: object.sections.flatMap SectionImage.bytes ∧ address.toNat = bytes.flatten.length

/-! ## Sizes -/

@[simp] theorem Node.valued_size (symbols : SymbolTable) (n : Node) : (n.valued symbols).size = n.size := by
  cases n with
  | data d => cases d <;> simp [valued, mapConstants, size, Data.size]
  | _ => rfl

private theorem itemsSize_eq_foldr (is : List Item) :
    itemsSize is = (is.map fun i => i.node.size).foldr (· + ·) 0 := by
  rw [itemsSize, List.foldr_map]

theorem LaidOut.sizes {p p' : Program} {symbols : SymbolTable} (laid : LaidOut p p' symbols) :
    p'.items.map (fun i => i.node.size) = p.items.map fun i => i.node.size := by
  refine List.ext_getElem? fun k => ?_
  rw [List.getElem?_map, List.getElem?_map]
  cases found : p.items[k]? with
  | none =>
    have outside := List.getElem?_eq_none_iff.mp found
    rw [← laid.length] at outside
    rw [List.getElem?_eq_none outside]
  | some i =>
    obtain ⟨address, -, placed⟩ := laid.items k i found
    simp [placed]

/-- Places are the same before and after the constants are numbers. -/
theorem LaidOut.itemsSize_take {p p' : Program} {symbols : SymbolTable} (laid : LaidOut p p' symbols) (k : Nat) :
    itemsSize (p'.items.take k) = p.offset k := by
  rw [Program.offset, itemsSize_eq_foldr, itemsSize_eq_foldr, List.map_take, List.map_take, laid.sizes]

/-- The address of an item is the number of bytes before it. -/
theorem LaidOut.address_toNat {p p' : Program} {symbols : SymbolTable} (laid : LaidOut p p' symbols)
    {before after : List Item} {i : Item} (split : p'.items = before ++ i :: after) :
    i.address.toNat = itemsSize before := by
  have found : p'.items[before.length]? = some i := by simp [split]
  have inside : before.length < p.items.length := by rw [← laid.length, split]; simp
  obtain ⟨address, here, placed⟩ := laid.items _ _ (List.getElem?_eq_getElem inside)
  rw [found, Option.some.injEq] at placed
  rw [placed, here, ← laid.itemsSize_take, split, List.take_left]

theorem flatten_length_of_encode {is : List Item} {bss : List (List UInt8)}
    (encoded : is.mapM Item.encode = .ok bss) :
    bss.flatten.length = itemsSize is := by
  have each := mapM_eq_ok_iff.mp encoded
  clear encoded
  induction is generalizing bss with
  | nil => cases bss <;> simp_all
  | cons i is ih =>
    cases bss with
    | nil => simp at each
    | cons bs bss =>
      simp only [List.map_cons, List.cons.injEq] at each
      rw [List.flatten_cons, List.length_append, ih each.2, Item.encode_length each.1, itemsSize_cons]

/-! ## Bytes -/

/-- The items of the sections of images have bytes, which are those of the images. -/
theorem bytes_of_images {q : Program} {images : List SectionImage} (made : q.map Section.image = images.map .ok) :
    ∃ bss, q.items.mapM Item.encode = .ok bss ∧ images.flatMap SectionImage.bytes = bss.flatten := by
  induction q generalizing images with
  | nil =>
    cases images with
    | nil => exact ⟨[], rfl, rfl⟩
    | cons image images => simp at made
  | cons s ss ih =>
    cases images with
    | nil => simp at made
    | cons image images =>
      simp only [List.map_cons, List.cons.injEq] at made
      obtain ⟨first, encoded, rfl⟩ := Section.image_eq_ok made.1
      obtain ⟨rest, others, bytes⟩ := ih made.2
      refine ⟨first ++ rest, ?_, by simp [bytes]⟩
      rw [mapM_eq_ok_iff] at encoded others ⊢
      rw [Program.items_cons, List.map_append, encoded, others, List.map_append]

section Generated

variable {p p' : Program} {symbols : SymbolTable} {object : ObjectFile}

private theorem section_split {k : Nat} {s : Section} (found : p'[k]? = some s) :
    p'.items = Program.items (p'.take k) ++ (s.items ++ Program.items (p'.drop (k + 1))) := by
  obtain ⟨inside, rfl⟩ := List.getElem?_eq_some_iff.mp found
  have split : p' = p'.take k ++ p'[k] :: p'.drop (k + 1) := by
    rw [← List.drop_eq_getElem_cons inside, List.take_append_drop]
  conv => lhs; rw [Program.items, split, List.flatMap_append, List.flatMap_cons]
  rfl

private theorem LaidOut.section_address (laid : LaidOut p p' symbols) {k : Nat} {s : Section}
    (found : p'[k]? = some s) (filled : s.items ≠ []) :
    s.address.toNat = itemsSize (Program.items (p'.take k)) := by
  obtain ⟨i, rest, items⟩ := List.exists_cons_of_ne_nil filled
  have split := section_split found
  rw [items] at split
  rw [Section.address, items]
  exact laid.address_toNat split

private theorem image_at (generated : generate p' symbols = .ok object) {k : Nat} {s : Section}
    (found : p'[k]? = some s) : ∃ image, object.sections[k]? = some image ∧ s.image = .ok image := by
  have made := congrArg (·[k]?) (generate_eq_ok generated)
  simp only [List.getElem?_map, found, Option.map_some] at made
  obtain ⟨image, here, same⟩ := Option.map_eq_some_iff.mp made.symm
  exact ⟨image, here, same.symm⟩

private theorem section_at (generated : generate p' symbols = .ok object) {k : Nat} {image : SectionImage}
    (found : object.sections[k]? = some image) : ∃ s, p'[k]? = some s ∧ s.image = .ok image := by
  have made := congrArg (·[k]?) (generate_eq_ok generated)
  simp only [List.getElem?_map, found, Option.map_some] at made
  exact Option.map_eq_some_iff.mp made

private theorem generated_names (generated : generate p' symbols = .ok object) :
    object.sections.map SectionImage.name = p'.map Section.name := by
  refine List.ext_getElem? fun k => ?_
  rw [List.getElem?_map, List.getElem?_map]
  cases found : p'[k]? with
  | some s =>
    obtain ⟨image, here, made⟩ := image_at generated found
    obtain ⟨bss, -, rfl⟩ := Section.image_eq_ok made
    simp [here]
  | none =>
    cases here : object.sections[k]? with
    | none => rfl
    | some image =>
      obtain ⟨s, found', -⟩ := section_at generated here
      rw [found] at found'
      cases found'

private theorem generated_addresses (laid : LaidOut p p' symbols) (filled : p'.NoEmptySection)
    (generated : generate p' symbols = .ok object) {k : Nat} {image : SectionImage}
    (here : object.sections[k]? = some image) :
    image.address.toNat = ((object.sections.take k).flatMap SectionImage.bytes).length := by
  obtain ⟨s, found, made⟩ := section_at generated here
  obtain ⟨bss, -, rfl⟩ := Section.image_eq_ok made
  have earlier : (p'.take k).map Section.image = (object.sections.take k).map .ok := by
    rw [List.map_take, List.map_take, generate_eq_ok generated]
  obtain ⟨before, encoded, bytes⟩ := bytes_of_images earlier
  rw [bytes, flatten_length_of_encode encoded]
  exact laid.section_address found (filled s (List.mem_of_getElem? found))

/-- The bytes of an item lie after those of the items before it in its section. -/
private theorem generated_item (laid : LaidOut p p' symbols) (filled : p'.NoEmptySection) {k : Nat} {s : Section}
    {image : SectionImage} (found : p'[k]? = some s) (made : s.image = .ok image) {i : Item} (member : i ∈ s.items) :
    ∃ before bytes after, i.encode = .ok bytes ∧ image.bytes = before ++ bytes ++ after ∧
      s.address.toNat + before.length = i.address.toNat := by
  obtain ⟨bss, encoded, rfl⟩ := Section.image_eq_ok made
  obtain ⟨front, back, items⟩ := List.append_of_mem member
  have start := laid.section_address found (filled s (List.mem_of_getElem? found))
  have place : i.address.toNat = itemsSize (Program.items (p'.take k)) + itemsSize front := by
    have split := section_split found
    rw [items, List.append_assoc, ← List.append_assoc] at split
    rw [laid.address_toNat split, itemsSize_append]
  rw [items, mapM_eq_ok_iff, List.map_append, List.map_cons] at encoded
  obtain ⟨first, rest, rfl, frontBytes, restBytes⟩ := List.map_eq_append_iff.mp encoded.symm
  obtain ⟨bytes, last, rfl, own, -⟩ := List.map_eq_cons_iff.mp restBytes
  refine ⟨first.flatten, bytes, last.flatten, own.symm, by simp, ?_⟩
  rw [start, place, flatten_length_of_encode (mapM_eq_ok_iff.mpr frontBytes.symm)]

private theorem generated_label (laid : LaidOut p p' symbols) (generated : generate p' symbols = .ok object)
    {k : Nat} {i : Item} {name : String} (found : p.items[k]? = some i) (label : i.node = .label name) :
    ∃ address bytes, symbols.address? name = some address ∧ (p'.items.take k).mapM Item.encode = .ok bytes ∧
      bytes.flatten <+: object.sections.flatMap SectionImage.bytes ∧ address.toNat = bytes.flatten.length := by
  obtain ⟨address, here, -⟩ := laid.items k i found
  obtain ⟨bss, encoded, bytes⟩ := bytes_of_images (generate_eq_ok generated)
  have earlier : (p'.items.take k).mapM Item.encode = .ok (bss.take k) := by
    rw [mapM_eq_ok_iff] at encoded ⊢
    rw [List.map_take, encoded, List.map_take]
  refine ⟨address, bss.take k, (laid.labels name address).mpr ⟨k, i, found, label, here⟩, earlier, ?_, ?_⟩
  · refine ⟨(bss.drop k).flatten, ?_⟩
    rw [bytes, ← List.flatten_append, List.take_append_drop]
  · rw [here, flatten_length_of_encode earlier, laid.itemsSize_take]

end Generated

/-! ## Coherence -/

private theorem contentSections_hasContent (blocks : List Block) (carried : List Item) :
    ∀ s ∈ contentSections carried blocks, s.hasContent := by
  induction blocks generalizing carried with
  | nil => simp [contentSections]
  | cons b bs ih =>
    intro s member
    rw [contentSections] at member
    split at member
    · rename_i content
      rcases List.mem_cons.mp member with rfl | member
      · exact content
      · exact ih _ s member
    · exact ih _ s member

theorem noEmptySection_of_parse {isa : InstructionSet} {ts : List Token} {p : Program}
    (parsed : parse isa ts = .ok p) : p.NoEmptySection := by
  obtain ⟨ss, -, parsed⟩ := bind_eq_ok.mp parsed
  cases parsed
  intro s member empty
  have content := contentSections_hasContent _ _ s member
  simp [Section.hasContent, empty] at content

theorem LaidOut.noEmptySection {p p' : Program} {symbols : SymbolTable} (laid : LaidOut p p' symbols)
    (filled : p.NoEmptySection) : p'.NoEmptySection := by
  intro s member empty
  have zero : 0 ∈ p'.map fun s => s.items.length := List.mem_map.mpr ⟨s, member, by simp [empty]⟩
  rw [laid.lengths] at zero
  obtain ⟨t, member, none⟩ := List.mem_map.mp zero
  exact filled t member (List.length_eq_zero_iff.mp none)

private theorem LaidOut.section_length {p p' : Program} {symbols : SymbolTable} (laid : LaidOut p p' symbols)
    {k : Nat} {s : Section} (found : p[k]? = some s) : ∃ s', p'[k]? = some s' ∧ s'.items.length = s.items.length := by
  have lengths := congrArg (·[k]?) laid.lengths
  simp only [List.getElem?_map, found, Option.map_some] at lengths
  exact Option.map_eq_some_iff.mp lengths

/-- Whatever is assembled, the images are coherent with the program; a program that was read from
    tokens has no empty section. -/
theorem images_coherent :
    (∀ (isa : InstructionSet) (ts : List Token) (p : Program), parse isa ts = .ok p → p.NoEmptySection) ∧
    ∀ (p p' : Program) (symbols : SymbolTable) (object : ObjectFile), p.NoEmptySection →
      analyze p = .ok (p', symbols) → generate p' symbols = .ok object → Coherent p p' symbols object := by
  refine ⟨fun isa ts p => noEmptySection_of_parse, fun p p' symbols object filled analyzed generated => ?_⟩
  have laid := laidOut_of_analyze analyzed
  have filled' := laid.noEmptySection filled
  refine ⟨(generated_names generated).trans laid.names, fun k image => generated_addresses laid filled' generated,
    fun k s found => ?_, fun k i name => generated_label laid generated⟩
  obtain ⟨s', found', length⟩ := laid.section_length found
  obtain ⟨image, here, made⟩ := image_at generated found'
  exact ⟨s', image, found', here, length, fun i member => generated_item laid filled' found' made member⟩

/-- A program whose first section refers to a label of the second. -/
private def crossing : Program := [
  ⟨".text", [⟨.instruction ⟨lui, .regImm 1 (.symbol "end")⟩, ⟨1, 1⟩, 0⟩]⟩,
  ⟨".data", [⟨.sectionStart ".data", ⟨2, 1⟩, 0⟩, ⟨.data (.zeros 3), ⟨3, 1⟩, 0⟩, ⟨.label "end", ⟨4, 1⟩, 0⟩,
    ⟨.instruction ⟨1, .bare⟩, ⟨4, 6⟩, 0⟩]⟩]

private def crossingLaidOut : Program := [
  ⟨".text", [⟨.instruction ⟨lui, .regImm 1 (.number 7)⟩, ⟨1, 1⟩, 0⟩]⟩,
  ⟨".data", [⟨.sectionStart ".data", ⟨2, 1⟩, 4⟩, ⟨.data (.zeros 3), ⟨3, 1⟩, 4⟩, ⟨.label "end", ⟨4, 1⟩, 7⟩,
    ⟨.instruction ⟨1, .bare⟩, ⟨4, 6⟩, 7⟩]⟩]

private def crossingObject : ObjectFile :=
  ⟨0, [⟨".text", .ofName ".text", 0, [lui, 1, 0, 0]⟩, ⟨".data", .ofName ".data", 4, [0, 0, 0, 1, 0, 0, 0]⟩]⟩

theorem images_coherent_crossing :
    parse bisc (tokenize bisc "lui r1, end\n.data\n.zero 3\nend: halt") = .ok crossing ∧
      Coherent crossing crossingLaidOut ⟨[("end", ⟨7, 4⟩)]⟩ crossingObject := by
  have parsed : parse bisc (tokenize bisc "lui r1, end\n.data\n.zero 3\nend: halt") = .ok crossing := by cbv
  have analyzed : analyze crossing = .ok (crossingLaidOut, ⟨[("end", ⟨7, 4⟩)]⟩) := by cbv
  have generated : generate crossingLaidOut ⟨[("end", ⟨7, 4⟩)]⟩ = .ok crossingObject := by cbv
  exact ⟨parsed, images_coherent.2 _ _ _ _ (images_coherent.1 _ _ _ parsed) analyzed generated⟩

end Bisc
