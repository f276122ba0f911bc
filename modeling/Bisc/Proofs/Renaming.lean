import Bisc.Proofs.Layout

/-!
Labels by other names. Sizes, places and values do not depend on what labels are called, as long as
different labels have different names; so a program whose labels are renamed has the object file it
had, although its symbol table is in another order.
-/
namespace Bisc

/-- The constant with its symbol renamed. -/
def Constant.rename (f : String → String) : Constant → Constant
  | number v => number v
  | symbol name => symbol (f name)
  | part inner selector => part (inner.rename f) selector

/-- The node with its label, or the symbols of its constants, renamed. -/
def Node.rename (f : String → String) : Node → Node
  | label name => label (f name)
  | other => other.mapConstants (Constant.rename f)

def Item.rename (f : String → String) (i : Item) : Item := { i with node := i.node.rename f }

def Section.rename (f : String → String) (s : Section) : Section := { s with items := s.items.map (Item.rename f) }

/-- The program with its labels renamed, and the symbols that refer to them. -/
def Program.rename (f : String → String) (p : Program) : Program := p.map (Section.rename f)

/-- The object file of a program. -/
def Program.object (p : Program) : Except Error ObjectFile := do
  let (laid, symbols) ← analyze p
  generate laid symbols

variable {f : String → String}

theorem Program.rename_items (f : String → String) (p : Program) :
    (p.rename f).items = p.items.map (Item.rename f) := by
  rw [Program.items, Program.items, Program.rename, List.flatMap_map, List.map_flatMap]
  rfl

/-! ## Places -/

@[simp] theorem Node.rename_size (f : String → String) (n : Node) : (n.rename f).size = n.size := by
  cases n with
  | data d => cases d <;> simp [rename, mapConstants, size, Data.size]
  | _ => rfl

@[simp] theorem itemsSize_rename (f : String → String) (is : List Item) :
    itemsSize (is.map (Item.rename f)) = itemsSize is := by
  induction is with
  | nil => rfl
  | cons i is ih => rw [List.map_cons, itemsSize_cons, itemsSize_cons, ih, Item.rename, Node.rename_size]

/-- Labels come from labels. -/
theorem Node.rename_eq_label {n : Node} {name : String} :
    n.rename f = .label name ↔ ∃ old, n = .label old ∧ f old = name := by
  cases n with
  | data d => cases d <;> simp [rename, mapConstants]
  | _ => simp [rename, mapConstants]

section Injective

variable (injective : Function.Injective f)
include injective

theorem Node.rename_eq_label_of_injective {n : Node} {name : String} :
    n.rename f = .label (f name) ↔ n = .label name := by
  rw [rename_eq_label]
  constructor
  · rintro ⟨old, label, same⟩
    rw [label, injective same]
  · intro label
    exact ⟨name, label, rfl⟩

theorem defines_rename (is : List Item) (name : String) :
    defines (is.map (Item.rename f)) (f name) = defines is name := by
  rw [Bool.eq_iff_iff, defines_iff, defines_iff]
  constructor
  · rintro ⟨_, member, label⟩
    obtain ⟨i, inside, rfl⟩ := List.mem_map.mp member
    exact ⟨i, inside, (Node.rename_eq_label_of_injective injective).mp label⟩
  · rintro ⟨i, member, label⟩
    exact ⟨i.rename f, List.mem_map_of_mem member, (Node.rename_eq_label_of_injective injective).mpr label⟩

/-- An item finds its place under any names of the labels. -/
theorem placementFault?_rename (before : List Item) (i : Item) :
    placementFault? (before.map (Item.rename f)) (i.rename f) = none ↔ placementFault? before i = none := by
  unfold placementFault?
  simp only [itemsSize_rename, Item.rename, Node.rename_size]
  split
  · simp
  · cases i.node with
    | label name =>
      simp only [Node.rename, defines_rename injective]
      split <;> simp
    | data d => cases d <;> simp [Node.rename, Node.mapConstants]
    | _ => simp [Node.rename, Node.mapConstants]

theorem firstFault?_rename (before is : List Item) :
    firstFault? (before.map (Item.rename f)) (is.map (Item.rename f)) = none ↔ firstFault? before is = none := by
  induction is generalizing before with
  | nil => simp [firstFault?]
  | cons i is ih =>
    have rest := ih (before ++ [i])
    rw [List.map_append, List.map_singleton] at rest
    rw [List.map_cons, firstFault?, firstFault?, Option.or_eq_none_iff, Option.or_eq_none_iff, rest,
      placementFault?_rename injective]

theorem Program.placementFault?_rename (p : Program) : (p.rename f).placementFault? = none ↔
    p.placementFault? = none := by
  rw [← firstFault?_eq, ← firstFault?_eq, Program.rename_items]
  exact firstFault?_rename injective [] p.items

/-- A label is where it was under its new name. -/
theorem label_at_rename (is : List Item) (name : String) (address : UInt32) :
    (∃ pre i post, is.map (Item.rename f) = pre ++ i :: post ∧ i.node = .label (f name) ∧
      address = .ofNat (itemsSize pre)) ↔
      ∃ pre i post, is = pre ++ i :: post ∧ i.node = .label name ∧ address = .ofNat (itemsSize pre) := by
  constructor
  · rintro ⟨_, _, _, split, label, here⟩
    obtain ⟨pre, rest, rfl, rfl, behind⟩ := List.map_eq_append_iff.mp split
    obtain ⟨i, post, rfl, rfl, -⟩ := List.map_eq_cons_iff.mp behind
    exact ⟨pre, i, post, rfl, (Node.rename_eq_label_of_injective injective).mp label, by rw [here, itemsSize_rename]⟩
  · rintro ⟨pre, i, post, rfl, label, here⟩
    refine ⟨pre.map (Item.rename f), i.rename f, post.map (Item.rename f),
      by simp, ?_, by rw [here, itemsSize_rename]⟩
    exact (Node.rename_eq_label_of_injective injective).mpr label

/-! ## Values -/

omit injective in
theorem Constant.rename_symbol? (f : String → String) (c : Constant) : (c.rename f).symbol? = c.symbol?.map f := by
  induction c with
  | number v => rfl
  | symbol name => rfl
  | part inner selector ih => exact ih

omit injective in
theorem Constant.rename_misnested? (f : String → String) (c : Constant) :
    (c.rename f).misnested? = c.misnested?.map (Constant.rename f) := by
  have plain (c : Constant) : (c.rename f).isPlain = c.isPlain := by cases c <;> rfl
  cases c with
  | number v => rfl
  | symbol name => rfl
  | part inner selector =>
    cases inner with
    | number v => rfl
    | symbol name => rfl
    | part inner slice =>
      cases slice with
      | lo => rfl
      | hi => rfl
      | bytes first last =>
        cases selector with
        | bytes _ _ => rfl
        | lo | hi =>
          simp only [rename, misnested?, plain]
          split <;> rfl

omit injective in
@[simp] theorem Constant.rename_overflows (f : String → String) (c : Constant) :
    (c.rename f).overflows = c.overflows := by
  induction c with
  | number v => rfl
  | symbol name => rfl
  | part inner selector ih => rw [rename, overflows, overflows, ih]

/-- A constant has a value under any names of the labels. -/
theorem Constant.faultIn?_rename (arithmetic : Arithmetic) (is : List Item) (pos : Position) (c : Constant) :
    (c.rename f).faultIn? arithmetic (is.map (Item.rename f)) pos = none ↔ c.faultIn? arithmetic is pos = none := by
  unfold faultIn? fault?
  rw [rename_misnested?, rename_symbol?, rename_overflows]
  cases c.misnested? with
  | some inner => simp
  | none =>
    cases c.symbol? with
    | none => simp
    | some name =>
      simp only [Option.map_none, Option.map_some, defines_rename injective]
      split <;> simp

omit injective in
theorem Node.rename_constants (f : String → String) (n : Node) :
    (n.rename f).constants = n.constants.map (Constant.rename f) := by
  cases n with
  | instruction i =>
    obtain ⟨code, operands⟩ := i
    cases operands <;> rfl
  | data d => cases d <;> rfl
  | _ => rfl

theorem Program.constantFault?_rename (arithmetic : Arithmetic) (p : Program) :
    (p.rename f).constantFault? arithmetic = none ↔ p.constantFault? arithmetic = none := by
  have constants : (p.rename f).constants = p.constants.map fun c => (c.1.rename f, c.2) := by
    simp only [Program.constants, rename_items, List.flatMap_map, List.map_flatMap, Item.rename,
      Node.rename_constants, List.map_map]
    rfl
  rw [constantFault?, constantFault?, constants, rename_items, List.findSome?_map, List.findSome?_eq_none_iff,
    List.findSome?_eq_none_iff]
  constructor
  · intro clear c member
    exact (Constant.faultIn?_rename injective arithmetic p.items c.2 c.1).mp (clear c member)
  · intro clear c member
    exact (Constant.faultIn?_rename injective arithmetic p.items c.2 c.1).mpr (clear c member)

end Injective

section Values

variable {symbols symbols' : SymbolTable} (table : ∀ name, symbols'.address? (f name) = symbols.address? name)
include table

theorem Constant.valueIn_rename (c : Constant) : (c.rename f).valueIn symbols' = c.valueIn symbols := by
  induction c with
  | number v => rfl
  | symbol name => rw [rename, valueIn, valueIn, table]
  | part inner selector ih => rw [rename, valueIn, valueIn, ih]

/-- Once constants are numbers, the names of labels are all that is renamed, and they have no bytes. -/
theorem encode_rename (i : Item) (address : UInt32) :
    Item.encode ⟨(i.node.rename f).valued symbols', i.pos, address⟩ =
    Item.encode ⟨i.node.valued symbols, i.pos, address⟩ := by
  have constant := Constant.valueIn_rename table
  cases i.node with
  | instruction ins =>
    obtain ⟨code, operands⟩ := ins
    cases operands <;> simp [Node.rename, Node.valued, Node.mapConstants, Operands.mapConstants, constant]
  | data d => cases d <;> simp [Node.rename, Node.valued, Node.mapConstants, Function.comp_def, constant]
  | _ => rfl

theorem image_rename (s : Section) : ((s.rename f).valued symbols').image = (s.valued symbols).image := by
  have bytes : ((s.rename f).valued symbols').items.mapM Item.encode = (s.valued symbols).items.mapM Item.encode := by
    simp only [Section.rename, Section.valued, List.mapM_map, Function.comp_def]
    exact congrArg (fun g => s.items.mapM g) (funext fun i => encode_rename table i i.address)
  have address : ((s.rename f).valued symbols').address = (s.valued symbols).address := by
    simp [Section.address, Section.rename, Section.valued, Item.rename, Function.comp_def]
  have place : ((s.rename f).valued symbols').items.head?.map Item.pos =
      (s.valued symbols).items.head?.map Item.pos := by
    simp [Section.rename, Section.valued, Item.rename, Function.comp_def]
  rw [Section.image, Section.image, bytes, address, place]
  rfl

end Values

/-! ## Objects -/

theorem placedItems_rename (before is : List Item) :
    placedItems (before.map (Item.rename f)) (is.map (Item.rename f)) = (placedItems before is).map
      (Item.rename f) := by
  induction is generalizing before with
  | nil => rfl
  | cons i is ih =>
    have rest := ih (before ++ [i])
    rw [List.map_append, List.map_singleton] at rest
    rw [List.map_cons, placedItems, placedItems, List.map_cons, rest, itemsSize_rename]
    rfl

theorem placedSections_rename (before : List Item) (p : Program) :
    placedSections (before.map (Item.rename f)) (p.rename f) = (placedSections before p).map (Section.rename f) := by
  induction p generalizing before with
  | nil => rfl
  | cons s ss ih =>
    have rest := ih (before ++ s.items)
    rw [List.map_append] at rest
    rw [Program.rename, List.map_cons, placedSections, placedSections, List.map_cons]
    simp only [Section.rename, placedItems_rename]
    exact congrArg _ rest

/-- An object file takes from the symbol table where the entry symbol is, and nothing else. -/
theorem generate_eq_bind (p : Program) (symbols : SymbolTable) :
    generate p symbols = p.mapM Section.image >>= fun sections => pure ⟨entryPoint symbols sections, sections⟩ := by
  rw [generate, images, Run.each_result]

/-- Label names do not leak: under any other names for its labels, different ones for different
    labels and the same for the entry, a program has an object file if and only if it had one, and
    the same. -/
theorem object_of_renamed (injective : Function.Injective f) (entry : f entrySymbol = entrySymbol) (p : Program)
    (object : ObjectFile) : (p.rename f).object = .ok object ↔ p.object = .ok object := by
  obtain ⟨symbols, run, labels⟩ := analyze_outcome p
  obtain ⟨symbols', run', labels'⟩ := analyze_outcome (p.rename f)
  have clears : (p.rename f).placementFault?.or ((p.rename f).constantFault? .checked) = none ↔
      p.placementFault?.or (p.constantFault? .checked) = none := by
    rw [Option.or_eq_none_iff, Option.or_eq_none_iff, Program.placementFault?_rename injective,
      Program.constantFault?_rename injective]
  unfold Program.object
  rw [run, run']
  cases fault : p.placementFault?.or (p.constantFault? .checked) with
  | some e =>
    cases fault' : (p.rename f).placementFault?.or ((p.rename f).constantFault? .checked) with
    | none => simp [clears.mp fault'] at fault
    | some e' => simp [bind, Except.bind]
  | none =>
    rw [clears.mpr fault]
    have placed := (Option.or_eq_none_iff.mp fault).1
    have table : ∀ name, symbols'.address? (f name) = symbols.address? name := by
      intro name
      refine Option.ext fun address => ?_
      rw [labels' ((Program.placementFault?_rename injective p).mpr placed), labels placed, Program.rename_items,
        label_at_rename injective]
    have sections : ((placedSections [] (p.rename f)).map (Section.valued symbols')).mapM Section.image =
        ((placedSections [] p).map (Section.valued symbols)).mapM Section.image := by
      have renamed := placedSections_rename (f := f) [] p
      rw [List.map_nil] at renamed
      rw [renamed, List.mapM_map, List.mapM_map, List.mapM_map]
      exact congrArg (fun g => (placedSections [] p).mapM g) (funext (image_rename table))
    have start : symbols'.address? entrySymbol = symbols.address? entrySymbol := by rw [← table, entry]
    simp only [outcome_none, bind, Except.bind]
    rw [generate_eq_bind, generate_eq_bind, sections]
    simp only [entryPoint, start]

private def mirrored : Program :=
  [⟨".text", [⟨.label "alpha", ⟨1, 1⟩, 0⟩, ⟨.instruction ⟨0x10, .regImm 1 (.part (.symbol "zeta") .lo)⟩, ⟨1, 8⟩, 0⟩,
    ⟨.label "_start", ⟨2, 1⟩, 0⟩, ⟨.data (.values .word [.symbol "alpha", .symbol "_start"]), ⟨2, 9⟩, 0⟩]⟩,
   ⟨".data", [⟨.label "zeta", ⟨3, 1⟩, 0⟩, ⟨.data (.values .half [.part (.symbol "zeta") (.bytes 0 1)]), ⟨3, 7⟩, 0⟩]⟩]

/-- Two labels take each other's names, and with them each other's places in the symbol table. -/
theorem object_of_renamed_mirrored : Function.Injective (Equiv.swap "alpha" "zeta") ∧
    Equiv.swap "alpha" "zeta" entrySymbol = entrySymbol ∧
    (mirrored.rename (Equiv.swap "alpha" "zeta")).object = .ok ⟨4,
      [⟨".text", .ofName ".text", 0, [0x10, 1, 12, 0, 0, 0, 0, 0, 4, 0, 0, 0]⟩,
        ⟨".data", .ofName ".data", 12, [12, 0]⟩]⟩ := by
  have injective := (Equiv.swap "alpha" "zeta").injective
  have entry : Equiv.swap "alpha" "zeta" entrySymbol = entrySymbol :=
    Equiv.swap_apply_of_ne_of_ne (by decide) (by decide)
  refine ⟨injective, entry, (object_of_renamed injective entry mirrored _).mpr ?_⟩
  decide +kernel

end Bisc
