import Bisc.Proofs.Contents
import Bisc.Proofs.Images

/-!
Analysis of a program that was analyzed before. A number takes as many bytes as the constant that it
stands for, and a label is still a label, so every item is given the address that it has; and a
number stands for itself. What addresses the items came with is of no account.
-/
namespace Bisc

/-- What an analysis leaves as it is: the name of a section, and of every item its size, whether it
    is content, and its place in the source. -/
def Section.outline (s : Section) : String × List (Nat × Bool × Position) :=
  (s.name, s.items.map fun i => (i.node.size, i.node.isContent, i.pos))

/-- The section with the addresses of its items forgotten. -/
def Section.unaddressed (s : Section) : Section := { s with items := s.items.map fun i => { i with address := 0 } }

/-- The program with the addresses of its items forgotten. -/
def Program.unaddressed (p : Program) : Program := p.map Section.unaddressed

/-! ## Addresses from before -/

theorem placeSection_unaddressed (s : Section) : placeSection s.unaddressed = placeSection s := by
  rw [placeSection, placeSection, Section.unaddressed, List.mapM_map]
  rfl

theorem analyze_unaddressed (p : Program) : analyze p.unaddressed = analyze p := by
  have sections : p.unaddressed.mapM placeSection = p.mapM placeSection := by
    rw [Program.unaddressed, List.mapM_map]
    exact congrArg (fun f => p.mapM f) (funext placeSection_unaddressed)
  rw [analyze, analyze, place, place, sections]

/-- Programs that differ in addresses only have the same analysis, or fail with the same error. -/
theorem analyze_congr {p q : Program} (same : q.unaddressed = p.unaddressed) : analyze q = analyze p := by
  rw [← analyze_unaddressed q, same, analyze_unaddressed]

/-! ## Places again -/

section Pass

variable {σ α β : Type} {f : α → StateT σ (Except Error) β}

/-- A pass over a list that keeps a state: it goes over the first member, and from the state after
    it over the others. -/
theorem pass_cons_eq_ok {x : α} {xs : List α} {ys : List β} {first last : σ} :
    (x :: xs).mapM f first = .ok (ys, last) ↔
    ∃ y middle rest, f x first = .ok (y, middle) ∧ xs.mapM f middle = .ok (rest, last) ∧ ys = y :: rest := by
  rw [List.mapM_cons]
  constructor
  · intro passed
    obtain ⟨⟨y, middle⟩, own, passed⟩ := bind_eq_ok.mp passed
    obtain ⟨⟨rest, final⟩, others, same⟩ := bind_eq_ok.mp passed
    cases same
    exact ⟨y, middle, rest, own, others, rfl⟩
  · rintro ⟨y, middle, rest, own, others, rfl⟩
    exact bind_eq_ok.mpr ⟨(y, middle), own, bind_eq_ok.mpr ⟨(rest, last), others, rfl⟩⟩

/-- Where a step gives the same again on what it gave, so does the pass. -/
theorem pass_again {g : β → α} {h : β → β}
    (step : ∀ x y first last, f x first = .ok (y, last) → f (g y) first = .ok (h y, last))
    {xs : List α} {ys : List β} {first last : σ} (passed : xs.mapM f first = .ok (ys, last)) :
    (ys.map g).mapM f first = .ok (ys.map h, last) := by
  induction xs generalizing ys first with
  | nil =>
    cases passed
    rfl
  | cons x xs ih =>
    obtain ⟨y, middle, rest, own, others, rfl⟩ := pass_cons_eq_ok.mp passed
    exact pass_cons_eq_ok.mpr ⟨h y, middle, rest.map h, step x y first middle own, ih others, rfl⟩

end Pass

/-- The item with every constant replaced by its value. -/
def Item.settled (symbols : SymbolTable) (i : Item) : Item := { i with node := i.node.valued symbols }

/-- An item that was given its address is given the same again, with numbers for its constants. -/
theorem placeItem_settled (symbols : SymbolTable) {i i' : Item} {st st' : Placement}
    (placed : placeItem i st = .ok (i', st')) :
    placeItem (i'.settled symbols) st = .ok (i'.settled symbols, st') := by
  obtain ⟨node, pos, address⟩ := i
  unfold placeItem at placed
  split at placed
  · rename_i room
    cases node with
    | label name =>
      obtain ⟨table, inserted, same⟩ := bind_eq_ok.mp placed
      cases same
      rw [placeItem, Item.settled, if_pos (by simpa using room)]
      exact bind_eq_ok.mpr ⟨table, inserted, rfl⟩
    | data d =>
      cases placed
      rw [placeItem, Item.settled, if_pos (by simpa using room)]
      cases d <;> simp [Node.valued, Node.mapConstants, Node.size, Data.size]
    | _ =>
      cases placed
      rw [placeItem, Item.settled, if_pos (by simpa using room)]
      rfl
  · cases placed

theorem placeSection_settled (symbols : SymbolTable) {s s' : Section} {st st' : Placement}
    (placed : placeSection s st = .ok (s', st')) :
    placeSection (s'.valued symbols) st = .ok (s'.valued symbols, st') := by
  obtain ⟨⟨items, last⟩, run, same⟩ := bind_eq_ok.mp placed
  cases same
  have again := pass_again (fun _ _ _ _ => placeItem_settled symbols) run
  exact bind_eq_ok.mpr ⟨_, again, rfl⟩

theorem place_settled (labels : SymbolTable) {p p' : Program} {symbols : SymbolTable}
    (placed : place p = .ok (p', symbols)) :
    place (p'.map (Section.valued labels)) = .ok (p'.map (Section.valued labels), symbols) := by
  obtain ⟨⟨sections, last⟩, run, same⟩ := bind_eq_ok.mp placed
  cases same
  have again := pass_again (fun _ _ _ _ => placeSection_settled labels) run
  exact bind_eq_ok.mpr ⟨_, again, rfl⟩

/-! ## Values again -/

/-- Where no constant but numbers is left, nothing is replaced. -/
theorem Node.resolved_valued (symbols labels : SymbolTable) (pos : Position) (n : Node) :
    (n.valued labels).resolved symbols pos = .ok (n.valued labels) := by
  cases n with
  | instruction i =>
    obtain ⟨code, operands⟩ := i
    cases operands <;> rfl
  | data d =>
    cases d with
    | values width cs =>
      have numbers : (cs.map fun c => Constant.number (c.valueIn labels)).mapM (Constant.resolved symbols pos) =
          .ok (cs.map fun c => .number (c.valueIn labels)) := by
        rw [mapM_eq_ok_iff, List.map_map, List.map_map]
        rfl
      exact bind_eq_ok.mpr ⟨_, numbers, rfl⟩
    | _ => rfl
  | _ => rfl

theorem resolved_settled (symbols labels : SymbolTable) (p : Program) :
    (p.map (Section.valued labels)).mapM (Section.resolved symbols) = .ok (p.map (Section.valued labels)) := by
  have item (i : Item) : (i.settled labels).resolved symbols = .ok (i.settled labels) :=
    bind_eq_ok.mpr ⟨_, Node.resolved_valued symbols labels i.pos i.node, rfl⟩
  have items (s : Section) : (s.valued labels).resolved symbols = .ok (s.valued labels) := by
    refine bind_eq_ok.mpr ⟨s.items.map (Item.settled labels), ?_, rfl⟩
    rw [mapM_eq_ok_iff]
    change (s.items.map (Item.settled labels)).map _ = _
    rw [List.map_map, List.map_map]
    exact List.map_congr_left fun i _ => item i
  rw [mapM_eq_ok_iff, List.map_map, List.map_map]
  exact List.map_congr_left fun s _ => items s

/-! ## Analysis again -/

theorem placedItems_outline (before is : List Item) :
    (placedItems before is).map (fun i => (i.node.size, i.node.isContent, i.pos)) =
      is.map fun i => (i.node.size, i.node.isContent, i.pos) := by
  induction is generalizing before with
  | nil => rfl
  | cons i is ih => rw [placedItems, List.map_cons, ih, List.map_cons]

theorem placedSections_outline (before : List Item) (p : Program) :
    (placedSections before p).map Section.outline = p.map Section.outline := by
  induction p generalizing before with
  | nil => rfl
  | cons s ss ih =>
    rw [placedSections, List.map_cons, ih, List.map_cons, Section.outline, placedItems_outline]
    rfl

theorem Section.valued_outline (symbols : SymbolTable) (s : Section) : (s.valued symbols).outline = s.outline := by
  rw [outline, outline, valued, List.map_map]
  refine congrArg (Prod.mk s.name) (List.map_congr_left fun i _ => ?_)
  simp [Node.valued_isContent]

/-- The two passes of an analysis that succeeds. -/
theorem passes_of_analyze {p p' : Program} {symbols : SymbolTable} (analyzed : analyze p = .ok (p', symbols)) :
    place p = .ok (placedSections [] p, symbols) ∧ p' = (placedSections [] p).map (Section.valued symbols) := by
  obtain ⟨⟨placed, labels⟩, first, second⟩ := bind_eq_ok.mp analyzed
  obtain ⟨_, -, same⟩ := bind_eq_ok.mp second
  cases same
  obtain ⟨labels, run, -⟩ := place_outcome p
  obtain ⟨-, same⟩ := outcome_eq_ok (run.symm.trans first)
  cases same
  obtain ⟨labels, run, -⟩ := analyze_outcome p
  obtain ⟨-, same⟩ := outcome_eq_ok (run.symm.trans analyzed)
  cases same
  exact ⟨first, rfl⟩

/-- An analysis keeps what a program looks like, and there is nothing left for another to do:
    analyzed again, the program stays as it is and its labels are the same. Addresses that were in
    the program before make no difference. -/
theorem analysis_idempotent {p p' : Program} {symbols : SymbolTable} (analyzed : analyze p = .ok (p', symbols)) :
    p'.map Section.outline = p.map Section.outline ∧ analyze p' = .ok (p', symbols) ∧
      ∀ q : Program, q.unaddressed = p.unaddressed → analyze q = .ok (p', symbols) := by
  obtain ⟨placed, rfl⟩ := passes_of_analyze analyzed
  refine ⟨?_, ?_, fun q same => (analyze_congr same).trans analyzed⟩
  · rw [List.map_map, ← placedSections_outline [] p]
    exact List.map_congr_left fun s _ => s.valued_outline symbols
  · have again := place_settled symbols placed
    exact bind_eq_ok.mpr ⟨_, again, bind_eq_ok.mpr ⟨_, resolved_settled symbols symbols _, rfl⟩⟩

/-- A program that takes all of the address space, with addresses that mean nothing. Its constants
    are a half of a slice of a label that is defined later, and labels in data. -/
def brimful : Program := [
  ⟨".text", [⟨.sectionStart ".text", ⟨1, 1⟩, 9⟩, ⟨.label "start", ⟨2, 1⟩, 0⟩,
    ⟨.instruction ⟨4, .regImm 1 (.part (.part (.symbol "end") (.bytes 1 2)) .lo)⟩, ⟨2, 8⟩, 0xFFFFFFFF⟩,
    ⟨.data (.zeros 0xFFFFFFF4), ⟨3, 1⟩, 2⟩]⟩,
  ⟨".data", [⟨.label "end", ⟨5, 1⟩, 7⟩,
    ⟨.data (.values .word [.symbol "start", .part (.symbol "end") .hi]), ⟨5, 6⟩, 0⟩]⟩]

/-- The full program laid out. -/
def brimfulLaidOut : Program := [
  ⟨".text", [⟨.sectionStart ".text", ⟨1, 1⟩, 0⟩, ⟨.label "start", ⟨2, 1⟩, 0⟩,
    ⟨.instruction ⟨4, .regImm 1 (.number 0xFFFF)⟩, ⟨2, 8⟩, 0⟩, ⟨.data (.zeros 0xFFFFFFF4), ⟨3, 1⟩, 4⟩]⟩,
  ⟨".data", [⟨.label "end", ⟨5, 1⟩, 0xFFFFFFF8⟩,
    ⟨.data (.values .word [.number 0, .number 0xFFFF]), ⟨5, 6⟩, 0xFFFFFFF8⟩]⟩]

/-- The full program laid out is laid out the same again. -/
theorem brimful_idempotent :
    analyze brimful = .ok (brimfulLaidOut, ⟨[("end", ⟨0xFFFFFFF8, 5⟩), ("start", ⟨0, 2⟩)]⟩) ∧
      analyze brimfulLaidOut = .ok (brimfulLaidOut, ⟨[("end", ⟨0xFFFFFFF8, 5⟩), ("start", ⟨0, 2⟩)]⟩) := by
  have analyzed : analyze brimful = .ok (brimfulLaidOut, ⟨[("end", ⟨0xFFFFFFF8, 5⟩), ("start", ⟨0, 2⟩)]⟩) := by decide
  exact ⟨analyzed, (analysis_idempotent analyzed).2.1⟩

end Bisc
