import Bisc.Proofs.Contents
import Bisc.Proofs.Placeless

/-!
Sections and the items in them. Built one step at a time, a program is its finished sections and the
current one, which is finished when the next starts if it has content, and else gives its
definitions to the next. The items of the sections are at every moment those that were added, in
order, so that definitions are lost at the end only, and only from a last section that has no
content.
-/
namespace Bisc

/-- The record of the start of a section. -/
def Node.isStart : Node → Bool
  | sectionStart _ => true
  | _ => false

/-- The record of a constant or of a macro. -/
def Node.isDefinition : Node → Bool
  | constantRecord .. | macroRecord .. => true
  | _ => false

theorem Node.isDefinition_of {n : Node} (content : n.isContent = false)
    (plain : n.isStart = false) : n.isDefinition := by
  cases n with
  | constantRecord | macroRecord => rfl
  | sectionStart => cases plain
  | _ => cases content

/-- The items other than starts of sections. -/
def unstarted (is : List Item) : List Item := is.filter fun i => !i.node.isStart

theorem unstarted_append (is js : List Item) : unstarted (is ++ js) = unstarted is ++ unstarted js :=
  List.filter_append ..
theorem unstarted_of_plain {is : List Item} (plain : ∀ i ∈ is, i.node.isStart = false) : unstarted is = is :=
  List.filter_eq_self.mpr fun i member => by simp [plain i member]

namespace Section

/-- The first item is the start of the section, under its name, and no other is a start. -/
def Headed (s : Section) : Prop :=
  ∃ start rest, s.items = start :: rest ∧ start.node = .sectionStart s.name ∧ ∀ i ∈ rest, i.node.isStart = false

/-- The section before any directive: no item is a start. -/
def Unheaded (s : Section) : Prop := s.name = ".text" ∧ ∀ i ∈ s.items, i.node.isStart = false

/-- The section with one more item. -/
def add (s : Section) (i : Item) : Section := { s with items := s.items ++ [i] }

theorem hasContent_add (s : Section) (i : Item) : (s.add i).hasContent = (s.hasContent || i.node.isContent) := by
  simp [hasContent, add]

variable {s : Section} {i : Item} (plain : i.node.isStart = false)
include plain

theorem Headed.add (headed : s.Headed) : (s.add i).Headed := by
  obtain ⟨start, rest, items, named, others⟩ := headed
  refine ⟨start, rest ++ [i], by simp [Section.add, items], named, ?_⟩
  exact List.forall_mem_append.mpr ⟨others, by simpa using plain⟩
theorem Unheaded.add (unheaded : s.Unheaded) : (s.add i).Unheaded :=
  ⟨unheaded.1, List.forall_mem_append.mpr ⟨unheaded.2, by simpa using plain⟩⟩

end Section

/-! ## Sections in the making -/

/-- The sections that are finished, and the current one. -/
structure Building where
  finished : Program
  current : Section

namespace Building

def initial : Building := ⟨[], ⟨".text", []⟩⟩

/-- The start of another section. A current section without content is not kept, and its definitions
    go on to the next. -/
def startSection (b : Building) (name : String) (pos : Position) : Building :=
  let start : Item := { node := .sectionStart name, pos }
  if b.current.hasContent then ⟨b.finished ++ [b.current], ⟨name, [start]⟩⟩
  else ⟨b.finished, ⟨name, start :: unstarted b.current.items⟩⟩

def step (b : Building) : Step → Building
  | .item i => ⟨b.finished, b.current.add i⟩
  | .newSection name pos => b.startSection name pos
  | .unfolded .. => b

/-- The building after steps. -/
def after (ss : List Step) : Building := ss.foldl step initial

theorem after_concat (ss : List Step) (s : Step) : after (ss ++ [s]) = (after ss).step s := by simp [after]

/-- The finished sections, and the current one if it has content. -/
def program (b : Building) : Program := if b.current.hasContent then b.finished ++ [b.current] else b.finished

end Building

/-- No step adds the start of a section. -/
abbrev Unstarting (ss : List Step) : Prop := ∀ s ∈ ss, s.Adds fun n => n.isStart = false

/-- Steps from the middle of a section on, which has some of its items and those carried over from
    sections before it. -/
private theorem program_foldl (ss : List Step) (unstarting : Unstarting ss) (finished : Program)
    (name : String) (start : Option Item)
    (carried items : List Item) (started : ∀ i, start = some i → i.node.isStart)
    (records : ∀ i ∈ carried, i.node.isStart = false)
    (plain : ∀ i ∈ items, i.node.isStart = false) :
    (ss.foldl Building.step ⟨finished, ⟨name, start.toList ++ carried ++ items⟩⟩).program =
      finished ++ contentSections carried (⟨name, start, items ++ (blocksFrom ss).1⟩ :: (blocksFrom ss).2) := by
  induction ss generalizing finished name start carried items with
  | nil =>
    rw [List.foldl_nil, Building.program, blocksFrom, List.append_nil, contentSections]
    split
    · rfl
    · exact (List.append_nil _).symm
  | cons s ss ih =>
    obtain ⟨here, later⟩ := List.forall_mem_cons.mp unstarting
    rw [List.foldl_cons]
    cases s with
    | item i =>
      have more : ∀ j ∈ items ++ [i], j.node.isStart = false := by
        refine List.forall_mem_append.mpr ⟨plain, fun j member => ?_⟩
        rw [List.mem_singleton.mp member]
        exact here
      have rest := ih later finished name start carried (items ++ [i]) started records more
      rw [List.append_assoc items, List.singleton_append, ← List.append_assoc] at rest
      exact rest
    | unfolded pos op operands form => exact ih later finished name start carried items started records plain
    | newSection name' pos =>
      have next (finished : Program) (carried : List Item) (records : ∀ i ∈ carried, i.node.isStart = false) :=
        ih later finished name' (some { node := .sectionStart name', pos }) carried []
          (by rintro _ ⟨⟩; rfl) records (by simp)
      have cut : blocksFrom (.newSection name' pos :: ss) =
          ([], ⟨name', some { node := .sectionStart name', pos }, (blocksFrom ss).1⟩ :: (blocksFrom ss).2) := rfl
      rw [cut, contentSections, List.append_nil, Building.step, Building.startSection]
      simp only [List.append_nil, List.nil_append] at next
      split
      · have rest := next (finished ++ [⟨name, start.toList ++ carried ++ items⟩]) [] (by simp)
        rw [List.append_assoc finished] at rest
        exact rest
      · have own : unstarted start.toList = [] := by
          refine List.filter_eq_nil_iff.mpr fun i member => ?_
          simp [started i (Option.mem_toList.mp member)]
        have moved : unstarted (start.toList ++ carried ++ items) = carried ++ items := by
          rw [unstarted_append, unstarted_append, own, unstarted_of_plain records,
            unstarted_of_plain plain, List.nil_append]
        rw [moved]
        exact next finished (carried ++ items) (List.forall_mem_append.mpr ⟨records, plain⟩)

/-- The sections that are built one step at a time are the sections of the steps that have content. -/
theorem program_after {ss : List Step} (unstarting : Unstarting ss) :
    (Building.after ss).program = contentSections [] (blocks ss) :=
  program_foldl ss unstarting [] ".text" none [] [] (by simp) (by simp) (by simp)

/-! ## What was added, and what is kept -/

/-- The step starts a section. -/
def Step.isSection : Step → Bool
  | newSection .. => true
  | _ => false

/-- The section that is open after the steps has content: some was added since its start, or since the beginning. -/
def openHasContent (ss : List Step) : Bool :=
  (Step.added (ss.rtakeWhile fun s => !s.isSection)).any fun i => i.node.isContent

theorem openHasContent_item (ss : List Step) (i : Item) :
    openHasContent (ss ++ [.item i]) = (openHasContent ss || i.node.isContent) := by
  rw [openHasContent, List.rtakeWhile_concat_pos _ _ _ (by rfl)]
  simp [Step.added, openHasContent]
theorem openHasContent_newSection (ss : List Step) (name : String) (pos : Position) :
    openHasContent (ss ++ [.newSection name pos]) = false := by
  rw [openHasContent, List.rtakeWhile_concat_neg _ _ _ (by simp [Step.isSection])]
  rfl
theorem openHasContent_unfolded (ss : List Step) (pos : Position) (name : String) (operands : List String)
    (form : PseudoForm) :
    openHasContent (ss ++ [.unfolded pos name operands form]) = openHasContent ss := by
  rw [openHasContent, List.rtakeWhile_concat_pos _ _ _ (by rfl)]
  simp [Step.added, openHasContent]

/-- Steps are cut where the last section with content was closed, or at the beginning if none was. -/
structure CutAtClosing (before since : List Step) : Prop where
  closed : before = [] ∨ ∃ earlier name pos, before = earlier ++ [.newSection name pos] ∧ openHasContent earlier
  last : ∀ front name pos back, since = front ++ .newSection name pos :: back →
  openHasContent (before ++ front) = false

namespace CutAtClosing

variable {before since : List Step}

theorem refl : CutAtClosing [] [] := ⟨.inl rfl, by simp⟩

/-- Another step that closes no section with content. -/
theorem concat (cut : CutAtClosing before since) {s : Step}
    (open_ : s.isSection → openHasContent (before ++ since) = false) :
    CutAtClosing before (since ++ [s]) := by
  refine ⟨cut.closed, fun front name pos back split => ?_⟩
  rcases List.eq_nil_or_concat back with rfl | ⟨back, b, rfl⟩
  · obtain ⟨rfl, last⟩ := List.append_inj' split rfl
    cases last
    exact open_ rfl
  · rw [List.concat_eq_append, ← List.cons_append, ← List.append_assoc] at split
    exact cut.last front name pos back (List.append_inj' split rfl).1

theorem close {ss : List Step} (content : openHasContent ss) (name : String) (pos : Position) :
    CutAtClosing (ss ++ [.newSection name pos]) [] := ⟨.inr ⟨ss, name, pos, rfl, content⟩, by simp⟩

end CutAtClosing

/-- The history of a building: its finished sections and the current one hold what was added, in
    order, and are well headed. -/
structure Building.Records (b : Building) (ss : List Step) : Prop where
  finished : ∀ k s, b.finished[k]? = some s → s.hasContent ∧ (s.Headed ∨ k = 0 ∧ s.Unheaded)
  current : b.current.Headed ∨ b.finished = [] ∧ b.current.Unheaded
  content : b.current.hasContent = openHasContent ss
  cut : ∃ before since, ss = before ++ since ∧ unstarted b.finished.items = Step.added before ∧
    unstarted b.current.items = Step.added since ∧ CutAtClosing before since

namespace Building.Records

variable {b : Building} {ss : List Step}

theorem initial : Building.initial.Records [] where
  finished := by simp [Building.initial]
  current := .inr ⟨rfl, rfl, by simp [Building.initial]⟩
  content := rfl
  cut := ⟨[], [], rfl, rfl, rfl, .refl⟩

/-- The finished sections with the current one. -/
theorem sections (records : b.Records ss) (content : b.current.hasContent) :
    ∀ k s, (b.finished ++ [b.current])[k]? = some s → s.hasContent ∧ (s.Headed ∨ k = 0 ∧ s.Unheaded) := by
  intro k s found
  rw [List.getElem?_append] at found
  split at found
  · exact records.finished k s found
  · obtain ⟨rfl, rfl⟩ : s = b.current ∧ k = b.finished.length := by
      rw [List.getElem?_singleton] at found
      split at found
      · cases found
        exact ⟨rfl, by omega⟩
      · cases found
    refine ⟨content, records.current.imp_right ?_⟩
    rintro ⟨none, unheaded⟩
    exact ⟨by rw [none]; rfl, unheaded⟩

theorem item (records : b.Records ss) {i : Item} (plain : i.node.isStart = false) :
    (b.step (.item i)).Records (ss ++ [.item i]) where
  finished := records.finished
  current := records.current.imp (·.add plain) (And.imp_right (·.add plain))
  content := by rw [openHasContent_item, ← records.content]; exact Section.hasContent_add ..
  cut := by
    obtain ⟨before, since, rfl, kept, current, cut⟩ := records.cut
    refine ⟨before, since ++ [.item i], by simp, kept, ?_, cut.concat (by simp [Step.isSection])⟩
    change unstarted (b.current.items ++ [i]) = _
    rw [unstarted_append, current, Step.added_append, unstarted_of_plain (by simpa using plain)]
    rfl

theorem unfolded (records : b.Records ss) (pos : Position) (name : String) (operands : List String)
    (form : PseudoForm) :
    (b.step (.unfolded pos name operands form)).Records (ss ++ [.unfolded pos name operands form]) where
  finished := records.finished
  current := records.current
  content := by rw [openHasContent_unfolded]; exact records.content
  cut := by
    obtain ⟨before, since, rfl, kept, current, cut⟩ := records.cut
    refine ⟨before, since ++ [.unfolded pos name operands form],
      by simp, kept, ?_, cut.concat (by simp [Step.isSection])⟩
    rw [Step.added_append]
    exact current.trans (List.append_nil _).symm

theorem newSection (records : b.Records ss) (name : String) (pos : Position) :
    (b.step (.newSection name pos)).Records (ss ++ [.newSection name pos]) := by
  obtain ⟨before, since, rfl, kept, current, cut⟩ := records.cut
  change (b.startSection name pos).Records _
  unfold Building.startSection
  dsimp only
  split
  · rename_i content
    refine ⟨records.sections content, .inl ⟨_, [], rfl, rfl, by simp⟩, ?_, _, [],
      (List.append_nil _).symm, ?_, rfl, ?_⟩
    · rw [openHasContent_newSection]
      rfl
    · rw [Program.items, List.flatMap_append, unstarted_append, List.flatMap_singleton, current, Step.added_append,
        Step.added_append]
      exact (congrArg (· ++ Step.added since) kept).trans (List.append_nil _).symm
    · exact .close (records.content ▸ content) name pos
  · rename_i empty
    have none : b.current.hasContent = false := by simpa using empty
    have moved : ∀ i ∈ unstarted b.current.items, i.node.isStart = false := fun i member => by
      simpa using (List.mem_filter.mp member).2
    refine ⟨records.finished, .inl ⟨_, _, rfl, rfl, moved⟩, ?_, before, since ++ [.newSection name pos],
      by simp, kept, ?_, ?_⟩
    · rw [openHasContent_newSection, Section.hasContent, List.any_cons, Bool.or_eq_false_iff]
      refine ⟨rfl, List.any_eq_false.mpr fun i member => ?_⟩
      exact List.any_eq_false.mp none i (List.mem_filter.mp member).1
    · change unstarted (unstarted b.current.items) = _
      rw [unstarted_of_plain moved, current, Step.added_append]
      exact (List.append_nil _).symm
    · exact cut.concat fun _ => records.content ▸ none

theorem step (records : b.Records ss) {s : Step} (plain : s.Adds fun n => n.isStart = false) :
    (b.step s).Records (ss ++ [s]) := by
  cases s with
  | item i => exact records.item plain
  | newSection name pos => exact records.newSection name pos
  | unfolded pos name operands form => exact records.unfolded pos name operands form

/-- A building records the whole history of its steps. -/
theorem after {ss : List Step} (unstarting : Unstarting ss) : (Building.after ss).Records ss := by
  induction ss using List.reverseRecOn with
  | nil => exact initial
  | append_singleton ss s ih =>
    obtain ⟨earlier, last⟩ := List.forall_mem_append.mp unstarting
    rw [after_concat]
    exact (ih earlier).step (last s (List.mem_singleton_self s))

end Building.Records

/-! ## Programs -/

theorem Node.Written.isStart {isa : InstructionSet} {P : Token → Prop} {n : Node} (written : n.Written isa P) :
    n.isStart = false := by
  cases written <;> rfl

theorem Step.mem_of_added {ss : List Step} {i : Item} (member : i ∈ added ss) : .item i ∈ ss := by
  induction ss with
  | nil => cases member
  | cons s ss ih =>
    cases s with
    | item j =>
      rcases List.mem_cons.mp member with rfl | later
      · exact List.mem_cons_self
      · exact List.mem_cons_of_mem _ (ih later)
    | _ => exact List.mem_cons_of_mem _ (ih member)

/-- The content of a program is written in its tokens. -/
theorem written_of_parse {isa : InstructionSet} {P : Token → Prop} (producible : Producible isa P) {ts : List Token}
    (holds : ∀ t ∈ ts, P t) {p : Program} (parsed : parse isa ts = .ok p) {i : Item} (member : i ∈ p.items)
    (content : i.node.isContent) : i.node.Written isa P := by
  obtain ⟨ended, contents⟩ := contents_of_programOf (r := steps isa ts) parsed
  have result : (steps isa ts).result = .ok (steps isa ts).out := by rw [Run.result, ended]
  have own : i ∈ p.contents := List.mem_filter.mpr ⟨member, content⟩
  rw [contents] at own
  exact written_of_steps producible holds result _ (Step.mem_of_added (List.mem_filter.mp own).1)

theorem unstarting_steps {isa : InstructionSet} {ts : List Token} {ss : List Step}
    (read : (steps isa ts).result = .ok ss) :
    Unstarting ss := by
  have producible : Producible isa fun _ => True := fun _ _ _ _ _ => trivial
  have adds := written_of_steps producible (fun _ _ => trivial) read
  intro s member
  have written := adds s member
  cases s with
  | item i => exact Node.Written.isStart written
  | _ => trivial

/-- Sections have content and are headed by their start, except that the first may be the one before
    any. Their other items are those that were added, in order, up to a rest of definitions: those
    since the last section with content was closed, if the last section has none. -/
theorem sections_conserve {isa : InstructionSet} {ts : List Token} {p : Program} (parsed : parse isa ts = .ok p) :
    (∀ k s, p[k]? = some s → s.hasContent ∧ (s.Headed ∨ k = 0 ∧ s.Unheaded)) ∧
    ∃ ss, (steps isa ts).result = .ok ss ∧ ∃ kept dropped, ss = kept ++ dropped ∧
      unstarted p.items = Step.added kept ∧ (∀ i ∈ Step.added dropped, i.node.isDefinition) ∧
      (openHasContent ss → dropped = []) ∧ (openHasContent ss = false → CutAtClosing kept dropped) := by
  obtain ⟨ss, read, made⟩ := bind_eq_ok.mp parsed
  cases made
  have unstarting := unstarting_steps read
  have records := Building.Records.after unstarting
  rw [← program_after unstarting, Building.program]
  generalize Building.after ss = b at records
  obtain ⟨before, since, split, kept, current, cut⟩ := records.cut
  split
  · rename_i content
    refine ⟨records.sections content, ss, read, ss, [], (List.append_nil _).symm, ?_,
      by simp [Step.added], fun _ => rfl, ?_⟩
    · rw [Program.items, List.flatMap_append, unstarted_append, List.flatMap_singleton, current,
        split, Step.added_append]
      exact congrArg (· ++ Step.added since) kept
    · intro empty
      rw [← records.content, content] at empty
      cases empty
  · rename_i empty
    have none : b.current.hasContent = false := by simpa using empty
    refine ⟨records.finished, ss, read, before, since, split, kept, ?_, ?_, fun _ => cut⟩
    · intro i member
      rw [← current] at member
      obtain ⟨inside, plain⟩ := List.mem_filter.mp member
      refine Node.isDefinition_of ?_ (by simpa using plain)
      simpa using List.any_eq_false.mp none i inside
    · intro content
      rw [← records.content, none] at content
      cases content

/-- `.define A 1`, then `.data` with another definition and a label, then `.bss` with a third definition only. -/
private def threeDefinitions : List Token :=
  let dot (line : Nat) : Token := ⟨.directive, ".", none, ⟨line, 1⟩, 0⟩
  let word (name : String) (line column : Nat) : Token := ⟨.identifier, name, none, ⟨line, column⟩, 0⟩
  let number (raw : String) (value : UInt32) (line : Nat) : Token := ⟨.immediate, raw, some value, ⟨line, 11⟩, 0⟩
  [dot 1, word "define" 1 2, word "A" 1 9, number "1" 1 1, Token.separator ⟨1, 12⟩ 0,
    dot 2, word "data" 2 2, Token.separator ⟨2, 6⟩ 0,
    dot 3, word "define" 3 2, word "B" 3 9, number "2" 2 3, Token.separator ⟨3, 12⟩ 0,
    word "x" 4 1, ⟨.colon, ":", none, ⟨4, 2⟩, 0⟩, Token.separator ⟨4, 3⟩ 0,
    dot 5, word "bss" 5 2, Token.separator ⟨5, 5⟩ 0,
    dot 6, word "define" 6 2, word "C" 6 9, number "3" 3 6]

/-- The first two definitions are in the section of the label, and the third is lost with the
    section that it is in. -/
theorem sections_conserve_threeDefinitions : ∃ p, parse bisc threeDefinitions = .ok p ∧
    (∀ k s, p[k]? = some s → s.hasContent ∧ (s.Headed ∨ k = 0 ∧ s.Unheaded)) ∧
    p.map (fun s => (s.name, s.items.map Item.node)) =
      [(".data", [.sectionStart ".data", .constantRecord "A" "1", .constantRecord "B" "2", .label "x"])] ∧
    ∃ kept dropped, CutAtClosing kept dropped ∧ unstarted p.items = Step.added kept ∧
      (Step.added dropped).map Item.node = [.constantRecord "C" "3"] := by
  have parsed : ∃ p, parse bisc threeDefinitions = .ok p ∧ p.map (fun s => (s.name, s.items.map Item.node)) =
      [(".data", [.sectionStart ".data", .constantRecord "A" "1", .constantRecord "B" "2", .label "x"])] := by
    refine ⟨_, rfl, ?_⟩
    decide +kernel
  obtain ⟨p, parsed, shown⟩ := parsed
  have added : ∃ ss, (steps bisc threeDefinitions).result = .ok ss ∧ openHasContent ss = false ∧
      (Step.added ss).map Item.node =
        [.constantRecord "A" "1", .constantRecord "B" "2", .label "x", .constantRecord "C" "3"] := by
    refine ⟨_, rfl, ?_⟩
    decide +kernel
  obtain ⟨ss, read, empty, nodes⟩ := added
  obtain ⟨headed, _, read', kept, dropped, rfl, conserved, -, -, cut⟩ := sections_conserve parsed
  cases read.symm.trans read'
  refine ⟨p, parsed, headed, shown, kept, dropped, cut empty, conserved, ?_⟩
  have front : (Step.added kept).map Item.node = [.constantRecord "A" "1", .constantRecord "B" "2", .label "x"] := by
    have flat : p.items.map Item.node = (p.map fun s => (s.name, s.items.map Item.node)).flatMap Prod.snd := by
      simp [Program.items, List.map_flatMap, List.flatMap_map]
    have filtered : (unstarted p.items).map Item.node = (p.items.map Item.node).filter fun n => !n.isStart := by
      rw [List.filter_map]
      rfl
    rw [← conserved, filtered, flat, shown]
    rfl
  rw [Step.added_append, List.map_append, front] at nodes
  simpa using nodes

end Bisc
