import Bisc.Proofs.Layout
import Bisc.Proofs.Lines

/-!
The content of a program: its labels, instructions and data. Sections and their records do not change
its order, so the content is what the steps of the source added, one item after the other; and the
layout gives every item of it a value and an address and no other place.
-/
namespace Bisc

def contentOf (is : List Item) : List Item := is.filter fun i => i.node.isContent

@[simp] theorem contentOf_append (is js : List Item) : contentOf (is ++ js) = contentOf is ++ contentOf js :=
  List.filter_append ..

def Program.contents (p : Program) : List Item := contentOf p.items

/-- The items that steps add. -/
def Step.added : List Step → List Item
  | [] => []
  | item i :: ss => i :: added ss
  | _ :: ss => added ss

@[simp] theorem Step.added_append (ss us : List Step) : added (ss ++ us) = added ss ++ added us := by
  induction ss with
  | nil => rfl
  | cons s ss ih => cases s <;> simp [added, ih]
@[simp] theorem Step.added_items (is : List Item) : added (is.map item) = is := by
  induction is with
  | nil => rfl
  | cons i is ih => simp [added, ih]

/-! ## Sections -/

/-- The items of a block are those of the steps, and its start is no content. -/
private theorem blocksFrom_added (ss : List Step) :
    Step.added ss = (blocksFrom ss).1 ++ (blocksFrom ss).2.flatMap Block.items ∧
      ∀ b ∈ (blocksFrom ss).2, contentOf b.start.toList = [] := by
  induction ss with
  | nil => exact ⟨rfl, by simp [blocksFrom]⟩
  | cons s ss ih =>
    obtain ⟨same, starts⟩ := ih
    cases s with
    | item i => exact ⟨by simp [Step.added, blocksFrom, same], starts⟩
    | newSection name pos =>
      refine ⟨by simp [Step.added, blocksFrom, same], ?_⟩
      simpa [blocksFrom, contentOf, Node.isContent] using starts
    | unfolded pos name operands form => exact ⟨same, starts⟩

private theorem contentSections_contents (bs : List Block) (starts : ∀ b ∈ bs, contentOf b.start.toList = [])
    (carried : List Item)
    (records : contentOf carried = []) :
    Program.contents (contentSections carried bs) = contentOf (bs.flatMap Block.items) := by
  induction bs generalizing carried with
  | nil => rfl
  | cons b bs ih =>
    have start := starts b List.mem_cons_self
    have later := fun c member => starts c (List.mem_cons_of_mem _ member)
    rw [contentSections]
    split
    · have rest := ih later [] rfl
      rw [Program.contents] at rest
      rw [Program.contents, Program.items_cons]
      simp [start, records, rest]
    · rename_i empty
      -- A block without content gives its records to the next, and nothing else is lost.
      have none : contentOf b.items = [] := by
        simp only [Section.hasContent, Bool.not_eq_true, List.any_eq_false, List.mem_append] at empty
        exact List.filter_eq_nil_iff.mpr fun i member => by simp [empty i (.inr member)]
      rw [ih later _ (by simp [records, none]), List.flatMap_cons, contentOf_append, none, List.nil_append]

/-- The content of a program is the content that the steps added. -/
theorem contents_of_programOf {r : Run Step} {p : Program} (made : programOf r = .ok p) :
    r.failure = none ∧ p.contents = contentOf (Step.added r.out) := by
  unfold programOf Run.result at made
  cases failure : r.failure with
  | some e => simp [failure, bind, Except.bind] at made
  | none =>
    simp only [failure, bind, Except.bind, pure, Except.pure, Except.ok.injEq] at made
    obtain ⟨same, starts⟩ := blocksFrom_added r.out
    refine ⟨rfl, ?_⟩
    rw [← made, blocks, contentSections_contents _ ?_ [] rfl, same]
    · rfl
    · simpa [contentOf] using starts

/-! ## Layout -/

/-- What an item is and where it came from, with every constant as its value. -/
def Item.valued (symbols : SymbolTable) (i : Item) : Node × Position := (i.node.valued symbols, i.pos)

/-- What an item is and where it came from. -/
def Item.origin (i : Item) : Node × Position := (i.node, i.pos)

theorem Node.valued_isContent (symbols : SymbolTable) (n : Node) : (n.valued symbols).isContent = n.isContent := by
  cases n with
  | data d => cases d <;> rfl
  | _ => rfl

theorem LaidOut.origins {p p' : Program} {symbols : SymbolTable} (laid : LaidOut p p' symbols) :
    p'.items.map Item.origin = p.items.map (Item.valued symbols) := by
  refine List.ext_getElem? fun k => ?_
  rw [List.getElem?_map, List.getElem?_map]
  cases found : p.items[k]? with
  | none =>
    have outside : p'.items[k]? = none := by
      rw [List.getElem?_eq_none_iff, laid.length]
      exact List.getElem?_eq_none_iff.mp found
    rw [outside]
    rfl
  | some i =>
    obtain ⟨address, -, placed⟩ := laid.items k i found
    rw [placed]
    rfl

/-- The layout keeps the content in its order. -/
theorem LaidOut.contents {p p' : Program} {symbols : SymbolTable} (laid : LaidOut p p' symbols) :
    p'.contents.map Item.origin = p.contents.map (Item.valued symbols) := by
  have filtered := congrArg (List.filter fun o => o.1.isContent) laid.origins
  rw [List.filter_map, List.filter_map] at filtered
  have own : (fun o : Node × Position => o.1.isContent) ∘ Item.valued symbols = fun i => i.node.isContent := by
    funext i
    exact Node.valued_isContent symbols i.node
  rw [own] at filtered
  exact filtered

end Bisc
