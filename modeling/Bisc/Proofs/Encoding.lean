import Bisc.ObjectFile.Generate
import Bisc.Proofs.Outcome

/-!
The bytes of items and sections: every item has as many bytes as its size says, an image is the
bytes of its items, and a program has no object file only because of an item or a section name.
-/
namespace Bisc

@[simp] theorem littleEndian_length (width n : Nat) : (littleEndian width n).length = width := by
  induction width generalizing n with
  | zero => rfl
  | succ width ih => simp [littleEndian, ih]

private theorem encodeImmediate_length {pos : Position} {code : UInt8} {v : UInt32} {bs : List UInt8}
    (encoded : encodeImmediate pos code v = .ok bs) : bs.length = 2 := by
  unfold encodeImmediate at encoded
  split at encoded
  · cases encoded; rfl
  · split at encoded
    · cases encoded; rfl
    · cases encoded

private theorem encodeOffset_length {pos : Position} {code : UInt8} {v : UInt32} {bs : List UInt8}
    (encoded : encodeOffset pos code v = .ok bs) : bs.length = 1 := by
  unfold encodeOffset at encoded
  split at encoded
  · cases encoded; rfl
  · cases encoded

theorem Instruction.encode_length {pos : Position} {i : Instruction} {bs : List UInt8}
    (encoded : i.encode pos = .ok bs) : bs.length = 4 := by
  obtain ⟨code, operands⟩ := i
  cases operands with
  | regImm r imm =>
    obtain ⟨v, -, encoded⟩ := bind_eq_ok.mp encoded
    obtain ⟨field, immediate, encoded⟩ := bind_eq_ok.mp encoded
    cases encoded
    simp [encodeImmediate_length immediate]
  | regMem dst base offset =>
    obtain ⟨v, -, encoded⟩ := bind_eq_ok.mp encoded
    obtain ⟨field, displacement, encoded⟩ := bind_eq_ok.mp encoded
    cases encoded
    simp [encodeOffset_length displacement]
  | _ => cases encoded; rfl

private theorem encodeDatum_length {pos : Position} {width : Width} {c : Constant} {bs : List UInt8}
    (encoded : encodeDatum pos width c = .ok bs) : bs.length = width.size := by
  obtain ⟨v, -, encoded⟩ := bind_eq_ok.mp encoded
  split at encoded
  · cases encoded; simp
  · cases encoded

theorem Data.encode_length {pos : Position} {d : Data} {bs : List UInt8} (encoded : d.encode pos = .ok bs) :
    bs.length = d.size := by
  cases d with
  | bytes _ => cases encoded; rfl
  | zeros count => cases encoded; simp [size]
  | values width cs =>
    obtain ⟨bss, each, encoded⟩ := bind_eq_ok.mp encoded
    cases encoded
    have same : ∀ b ∈ bss, b.length = width.size := by
      intro b member
      have found : .ok b ∈ cs.map (encodeDatum pos width) := by
        rw [mapM_eq_ok_iff.mp each]
        exact List.mem_map_of_mem member
      obtain ⟨c, -, datum⟩ := List.mem_map.mp found
      exact encodeDatum_length datum
    have count : bss.length = cs.length := by
      simpa using (congrArg List.length (mapM_eq_ok_iff.mp each)).symm
    rw [List.length_flatten, List.map_congr_left same, List.map_const', List.sum_replicate_nat, count]
    rfl

/-- The bytes of an item are as many as its size. -/
theorem Item.encode_length {i : Item} {bs : List UInt8} (encoded : i.encode = .ok bs) :
    bs.length = i.node.size := by
  unfold encode at encoded
  cases node : i.node with
  | instruction ins => rw [node] at encoded; exact Instruction.encode_length encoded
  | data d => rw [node] at encoded; exact Data.encode_length encoded
  | _ => rw [node] at encoded; cases encoded; rfl

theorem Run.each_result {α β : Type} (f : β → Except Error α) (bs : List β) : (Run.each f bs).result = bs.mapM f := by
  induction bs with
  | nil => rfl
  | cons b bs ih =>
    rw [List.mapM_cons, ← ih, Run.each]
    cases f b with
    | error e => rfl
    | ok a =>
      simp only [Run.result, Run.cons, bind, Except.bind]
      cases (Run.each f bs).failure <;> rfl

/-- The image of a section is the bytes of its items, one after the other. -/
theorem Section.image_eq_ok {s : Section} {image : SectionImage} (made : s.image = .ok image) :
    ∃ bss, s.items.mapM Item.encode = .ok bss ∧ image = ⟨s.name, .ofName s.name, s.address, bss.flatten⟩ := by
  obtain ⟨bss, encoded, made⟩ := bind_eq_ok.mp made
  unfold SectionImage.make at made
  split at made
  · cases made; exact ⟨bss, encoded, rfl⟩
  · cases made

/-- A section without an image has an item without bytes or a name that is too long. -/
theorem Section.image_eq_error {s : Section} {e : Error} (refused : s.image = .error e) :
    (∃ i ∈ s.items, i.encode = .error e) ∨ e.cause = .outOfRange (.sectionName s.name) := by
  rcases bind_eq_error.mp refused with unencoded | ⟨bss, -, unmade⟩
  · exact .inl (mapM_eq_error unencoded)
  · unfold SectionImage.make at unmade
    split at unmade
    · cases unmade
    · cases unmade; exact .inr rfl

theorem generate_eq_ok {p : Program} {symbols : SymbolTable} {object : ObjectFile}
    (generated : generate p symbols = .ok object) : p.map Section.image = object.sections.map .ok := by
  obtain ⟨sections, made, generated⟩ := bind_eq_ok.mp generated
  cases generated
  rw [images, Run.each_result] at made
  exact mapM_eq_ok_iff.mp made

theorem image_error_of_generate {p : Program} {symbols : SymbolTable} {e : Error}
    (refused : generate p symbols = .error e) : ∃ s ∈ p, s.image = .error e := by
  rcases bind_eq_error.mp refused with unmade | ⟨sections, -, impossible⟩
  · rw [images, Run.each_result] at unmade
    exact mapM_eq_error unmade
  · cases impossible

theorem generate_eq_error {p : Program} {symbols : SymbolTable} {e : Error}
    (refused : generate p symbols = .error e) :
    ∃ s ∈ p, (∃ i ∈ s.items, i.encode = .error e) ∨ e.cause = .outOfRange (.sectionName s.name) := by
  obtain ⟨s, member, here⟩ := image_error_of_generate refused
  exact ⟨s, member, s.image_eq_error here⟩

end Bisc
