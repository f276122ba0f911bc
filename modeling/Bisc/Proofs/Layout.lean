import Bisc.Program.Layout
import Bisc.Proofs.Encoding
import Bisc.Proofs.SelectedParts
import Mathlib

/-!
The layout of a program, said without a pass over it: every item lies after the bytes of all items
before it, and every constant is the value it has where labels have these places. The first item
that finds no place, and then the first constant without a value, is the error of an analysis.
-/
namespace Bisc

/-- The items of a program, section after section. -/
def Program.items (p : Program) : List Item := p.flatMap Section.items

/-- The bytes that items occupy. -/
def itemsSize (is : List Item) : Nat := is.foldr (fun i n => i.node.size + n) 0

/-- The place of the `k`-th item of a program. -/
def Program.offset (p : Program) (k : Nat) : Nat := itemsSize (p.items.take k)

/-- A label of this name is among the items. -/
def defines (is : List Item) (name : String) : Bool := is.any fun i => i.node = .label name

/-- What keeps an item from its place after the items `before`. A label whose name is taken is
    refused only if there is room for it. -/
def placementFault? (before : List Item) (i : Item) : Option Error :=
  if size32? i.node.size = none ∨ 0x100000000 ≤ itemsSize before ∨
      0x100000000 < itemsSize before + i.node.size then
    some ⟨.outOfRange (.addressSpace (Text.trim i.node.text)), i.pos⟩
  else match i.node with
    | .label name => if defines before name then some ⟨.duplicateSymbol name, i.pos⟩ else none
    | _ => none

/-- The first item without a place. -/
def Program.placementFault? (p : Program) : Option Error :=
  p.items.zipIdx.findSome? fun (i, k) => Bisc.placementFault? (p.items.take k) i

def Node.constants : Node → List Constant
  | instruction ⟨_, .regImm _ imm⟩ => [imm]
  | instruction ⟨_, .regMem _ _ offset⟩ => [offset]
  | data (.values _ cs) => cs
  | _ => []

/-- The constants of a program with the places of their items. -/
def Program.constants (p : Program) : List (Constant × Position) :=
  p.items.flatMap fun i => i.node.constants.map (·, i.pos)

def Constant.isPlain : Constant → Bool
  | part .. => false
  | _ => true

/-- The part that a constant takes a part of against the rule: there are parts of numbers and of
    symbols, and halves of slices of these. -/
def Constant.misnested? : Constant → Option Constant
  | part (part inner (.bytes first last)) (.bytes _ _) => some (part inner (.bytes first last))
  | part (part inner (.bytes _ _)) _ => if inner.isPlain then none else some inner
  | part (part inner selector) _ => some (part inner selector)
  | _ => none

/-- The symbol that a constant depends on. -/
def Constant.symbol? : Constant → Option String
  | number _ => none
  | symbol name => some name
  | part inner _ => inner.symbol?

/-- A part in the constant cannot be selected in 32 bits. -/
def Constant.overflows : Constant → Bool
  | part inner selector => inner.overflows || selector.overflows
  | _ => false

/-- What keeps a constant from a value where the items `is` define the labels. -/
def Constant.fault? (is : List Item) (pos : Position) (c : Constant) : Option Error :=
  match c.misnested?, c.symbol? with
  | some inner, _ => some ⟨.unexpected .plainConstant (.spelled inner.text), pos⟩
  | none, some name => if defines is name then none else some ⟨.unresolvedSymbol name, pos⟩
  | none, none => none

/-- What keeps a constant from a value in an arithmetic. If nothing else does, a part that overflows
    is no fault where arithmetic wraps around, and ends the run where it is checked. -/
def Constant.faultIn? (arithmetic : Arithmetic) (is : List Item) (pos : Position) (c : Constant) : Option Error :=
  (c.fault? is pos).or
    (if arithmetic = .checked ∧ c.overflows then some ⟨.aborted .arithmetic, pos⟩ else none)

/-- The first constant without a value in an arithmetic. -/
def Program.constantFault? (arithmetic : Arithmetic) (p : Program) : Option Error :=
  p.constants.findSome? fun (c, pos) => c.faultIn? arithmetic p.items pos

/-- The value of a constant under a symbol table. -/
def Constant.valueIn (symbols : SymbolTable) : Constant → UInt32
  | number v => v
  | symbol name => (symbols.address? name).getD 0
  | part inner selector => selector.select (inner.valueIn symbols)

def Operands.mapConstants (f : Constant → Constant) : Operands → Operands
  | regImm r imm => regImm r (f imm)
  | regMem dst base offset => regMem dst base (f offset)
  | other => other

def Node.mapConstants (f : Constant → Constant) : Node → Node
  | instruction i => instruction { i with operands := i.operands.mapConstants f }
  | data (.values width cs) => data (.values width (cs.map f))
  | other => other

/-- The node with every constant replaced by its value. -/
def Node.valued (symbols : SymbolTable) (n : Node) : Node :=
  n.mapConstants fun c => .number (c.valueIn symbols)

/-- The value of a constant that stands at `pos`, in an arithmetic. -/
def Constant.resolveIn (arithmetic : Arithmetic) (symbols : SymbolTable) (pos : Position) :
    Constant → Except Error UInt32
  | number v => .ok v
  | symbol name =>
    match symbols.address? name with
    | some address => .ok address
    | none => .error ⟨.unresolvedSymbol name, pos⟩
  | part inner selector =>
    if inner.nests selector then
      .error ⟨.unexpected .plainConstant (.spelled inner.text), pos⟩
    else
      inner.resolveIn arithmetic symbols pos >>= fun v =>
        match selector.applyIn arithmetic v with
        | some selected => .ok selected
        | none => .error ⟨.aborted .arithmetic, pos⟩

def Operands.traverse (f : Constant → Except Error Constant) : Operands → Except Error Operands
  | regImm r imm => return regImm r (← f imm)
  | regMem dst base offset => return regMem dst base (← f offset)
  | other => .ok other

def Node.traverse (f : Constant → Except Error Constant) : Node → Except Error Node
  | instruction i => return instruction { i with operands := ← i.operands.traverse f }
  | data (.values width cs) => return data (.values width (← cs.mapM f))
  | other => .ok other

/-- The program with every constant replaced, in its order, by what `f` makes of it at its place. -/
def Program.traverse (f : Position → Constant → Except Error Constant) (p : Program) : Except Error Program :=
  p.mapM fun s => return { s with items := ← s.items.mapM fun i =>
    return { i with node := ← i.node.traverse (f i.pos) } }

/-- The program laid out with values in an arithmetic, with its labels. -/
def analyzeIn (arithmetic : Arithmetic) (p : Program) : Except Error (Program × SymbolTable) := do
  let (placed, symbols) ← place p
  return (← Program.traverse (fun pos c => (c.resolveIn arithmetic symbols pos).map .number) placed, symbols)

/-- The program `p'` with the labels `symbols` is the layout of `p`. -/
structure LaidOut (p p' : Program) (symbols : SymbolTable) : Prop where
  /-- Sections stay what they are. -/
  names : p'.map Section.name = p.map Section.name
  lengths : p'.map (fun s => s.items.length) = p.map (fun s => s.items.length)
  /-- The table has the labels at their places, and nothing else. -/
  labels : ∀ name address, symbols.address? name = some address ↔
    ∃ (k : Nat) (i : Item), p.items[k]? = some i ∧ i.node = .label name ∧ address.toNat = p.offset k
  /-- Every item has its place, and numbers for constants. -/
  items : ∀ (k : Nat) (i : Item), p.items[k]? = some i → ∃ address : UInt32,
    address.toNat = p.offset k ∧ p'.items[k]? = some ⟨i.node.valued symbols, i.pos, address⟩

/-! ## Places -/

theorem Program.items_cons (s : Section) (p : Program) : Program.items (s :: p) = s.items ++ Program.items p := rfl

@[simp] theorem itemsSize_nil : itemsSize [] = 0 := rfl
@[simp] theorem itemsSize_cons (i : Item) (is : List Item) :
    itemsSize (i :: is) = i.node.size + itemsSize is := rfl
@[simp] theorem itemsSize_append (is js : List Item) :
    itemsSize (is ++ js) = itemsSize is + itemsSize js := by
  induction is with
  | nil => simp
  | cons i is ih => simp [ih, Nat.add_assoc]

theorem defines_iff {is : List Item} {name : String} :
    defines is name = true ↔ ∃ i ∈ is, i.node = .label name := by
  simp [defines]

private theorem lookup_cons_ite (e : String × Symbol) (es : List (String × Symbol)) (name : String) :
    (e :: es).lookup name = if name = e.1 then some e.2 else es.lookup name := by
  obtain ⟨key, symbol⟩ := e
  by_cases same : name = key
  · simp [same]
  · have differ : (name == key) = false := beq_eq_false_iff_ne.mpr same
    simp [List.lookup_cons, differ, same]

/-- A new name is found where it was put, and no other name is moved. -/
theorem lookup_insertByName {name : String} {symbol : Symbol} {entries : List (String × Symbol)}
    (fresh : entries.lookup name = none) (other : String) :
    (insertByName name symbol entries).lookup other =
      if other = name then some symbol else entries.lookup other := by
  induction entries with
  | nil => rw [insertByName, lookup_cons_ite]
  | cons e es ih =>
    rw [lookup_cons_ite] at fresh
    have apart : name ≠ e.1 := fun same => by simp [same] at fresh
    rw [if_neg apart] at fresh
    rw [insertByName]
    by_cases less : name < e.1
    · rw [if_pos less, lookup_cons_ite]
    · rw [if_neg less, lookup_cons_ite, ih fresh, lookup_cons_ite]
      by_cases same : other = name
      · rw [if_pos same, if_pos same, if_neg (same ▸ apart)]
      · rw [if_neg same, if_neg same]

/-- What the pass knows after it has placed the items `before`. -/
structure Placement.Holds (st : Placement) (before : List Item) : Prop where
  next : st.next = itemsSize before
  labels : ∀ name address, st.symbols.address? name = some address ↔
    ∃ pre i post, before = pre ++ i :: post ∧ i.node = .label name ∧ address = .ofNat (itemsSize pre)

/-- The items after the items `before`, with their addresses. -/
def placedItems (before : List Item) : List Item → List Item
  | [] => []
  | i :: is => { i with address := .ofNat (itemsSize before) } :: placedItems (before ++ [i]) is

/-- The sections after the items `before`, with the addresses of their items. -/
def placedSections (before : List Item) : Program → Program
  | [] => []
  | s :: ss => { s with items := placedItems before s.items } :: placedSections (before ++ s.items) ss

/-- The first of the items after `before` that has no place. -/
def firstFault? (before : List Item) : List Item → Option Error
  | [] => none
  | i :: is => (placementFault? before i).or (firstFault? (before ++ [i]) is)

namespace Placement.Holds

variable {st : Placement} {before : List Item}

theorem empty : Placement.Holds ⟨0, .empty⟩ [] := by
  refine ⟨rfl, fun name address => ⟨fun found => ?_, ?_⟩⟩
  · simp [SymbolTable.address?, SymbolTable.get?, SymbolTable.empty] at found
  · rintro ⟨pre, i, post, split, -⟩
    simp at split

theorem isSome_get? (inv : st.Holds before) (name : String) :
    (st.symbols.get? name).isSome = defines before name := by
  rw [Bool.eq_iff_iff, defines_iff]
  constructor
  · intro found
    obtain ⟨symbol, found⟩ := Option.isSome_iff_exists.mp found
    obtain ⟨pre, i, post, rfl, label, -⟩ :=
      (inv.labels name symbol.address).mp (by simp [SymbolTable.address?, found])
    exact ⟨i, by simp, label⟩
  · rintro ⟨i, member, label⟩
    obtain ⟨pre, post, rfl⟩ := List.append_of_mem member
    have found := (inv.labels name _).mpr ⟨pre, i, post, rfl, label, rfl⟩
    cases symbol : st.symbols.get? name <;> simp_all [SymbolTable.address?]

private theorem snoc_split {i : Item} {name : String} {address : UInt32} :
    (∃ pre j post, before ++ [i] = pre ++ j :: post ∧ j.node = .label name ∧ address = .ofNat (itemsSize pre)) ↔
      (∃ pre j post, before = pre ++ j :: post ∧ j.node = .label name ∧ address = .ofNat (itemsSize pre)) ∨
        (i.node = .label name ∧ address = .ofNat (itemsSize before)) := by
  constructor
  · rintro ⟨pre, j, post, split, label, here⟩
    rcases List.eq_nil_or_concat post with rfl | ⟨front, last, rfl⟩
    · obtain ⟨rfl, same⟩ := List.append_inj' split rfl
      cases same
      exact .inr ⟨label, here⟩
    · have split' : before ++ [i] = (pre ++ j :: front) ++ [last] := by simp [split]
      obtain ⟨rfl, -⟩ := List.append_inj' split' rfl
      exact .inl ⟨pre, j, front, rfl, label, here⟩
  · rintro (⟨pre, j, post, rfl, label, here⟩ | ⟨label, here⟩)
    · exact ⟨pre, j, post ++ [i], by simp, label, here⟩
    · exact ⟨before, i, [], rfl, label, here⟩

theorem snoc_other (inv : st.Holds before) {i : Item} (other : ∀ name, i.node ≠ .label name) :
    Placement.Holds ⟨st.next + i.node.size, st.symbols⟩ (before ++ [i]) := by
  refine ⟨by simp [inv.next], fun name address => ?_⟩
  rw [snoc_split, inv.labels name address]
  simp [other name]

theorem snoc_label (inv : st.Holds before) {i : Item} {name : String} (label : i.node = .label name)
    (fresh : defines before name = false) (line : Nat) :
    Placement.Holds ⟨st.next + i.node.size,
      ⟨insertByName name ⟨.ofNat st.next, line⟩ st.symbols.entries⟩⟩ (before ++ [i]) := by
  have absent : st.symbols.entries.lookup name = none := by
    have none := inv.isSome_get? name
    rw [fresh] at none
    simpa [SymbolTable.get?] using none
  refine ⟨by simp [inv.next], fun other address => ?_⟩
  have table : SymbolTable.address? ⟨insertByName name ⟨.ofNat st.next, line⟩ st.symbols.entries⟩ other =
      if other = name then some (.ofNat st.next) else st.symbols.address? other := by
    simp only [SymbolTable.address?, SymbolTable.get?, lookup_insertByName absent]
    split <;> rfl
  rw [table, snoc_split]
  by_cases same : other = name
  · subst same
    rw [if_pos rfl, inv.next]
    constructor
    · rintro ⟨⟩
      exact .inr ⟨label, rfl⟩
    · rintro (⟨pre, j, post, rfl, other, -⟩ | ⟨-, rfl⟩)
      · simp [defines, other] at fresh
      · rfl
  · rw [if_neg same, inv.labels other address]
    constructor
    · exact .inl
    · rintro (found | ⟨here, -⟩)
      · exact found
      · rw [label] at here
        exact absurd (Node.label.inj here).symm same

end Placement.Holds

theorem size32?_eq_none {n : Nat} : size32? n = none ↔ 0x100000000 ≤ n := by
  simp [size32?]

/-- One item: it is refused for its fault, or it lies after the items before it. -/
theorem placeItem_outcome {st : Placement} {before : List Item} (inv : st.Holds before) (i : Item) :
    ∃ st', placeItem i st =
        outcome (placementFault? before i) ({ i with address := .ofNat (itemsSize before) }, st') ∧
      (placementFault? before i = none → st'.Holds (before ++ [i])) := by
  unfold placeItem placementFault?
  by_cases room : i.node.size < 0x100000000 ∧ itemsSize before < 0x100000000 ∧
      itemsSize before + i.node.size ≤ 0x100000000
  · have fits : ¬(size32? i.node.size = none ∨ 0x100000000 ≤ itemsSize before ∨
        0x100000000 < itemsSize before + i.node.size) := by
      rw [size32?_eq_none]
      omega
    rw [inv.next, if_pos room, if_neg fits]
    cases node : i.node with
    | label name =>
      have taken := inv.isSome_get? name
      by_cases duplicate : defines before name
      · refine ⟨st, ?_, by simp [duplicate]⟩
        simp [SymbolTable.insert, taken, duplicate, bind, Except.bind]
      · have fresh : defines before name = false := by simpa using duplicate
        have added := inv.snoc_label node fresh i.pos.line
        rw [node, inv.next] at added
        refine ⟨_, ?_, fun _ => added⟩
        simp [SymbolTable.insert, taken, fresh, bind, Except.bind, pure, Except.pure]
    | _ =>
      have kept := inv.snoc_other (i := i) (by simp [node])
      rw [node, inv.next] at kept
      exact ⟨_, rfl, fun _ => kept⟩
  · have full : size32? i.node.size = none ∨ 0x100000000 ≤ itemsSize before ∨
        0x100000000 < itemsSize before + i.node.size := by
      rw [size32?_eq_none]
      omega
    rw [inv.next, if_neg room, if_pos full]
    exact ⟨st, rfl, by simp⟩

/-- Items in a row: the first without a place is refused, or all lie one after the other. -/
theorem placeItems_outcome (is : List Item) {st : Placement} {before : List Item} (inv : st.Holds before) :
    ∃ st', is.mapM placeItem st = outcome (firstFault? before is) (placedItems before is, st') ∧
      (firstFault? before is = none → st'.Holds (before ++ is)) := by
  induction is generalizing st before with
  | nil => exact ⟨st, rfl, fun _ => by simpa using inv⟩
  | cons i is ih =>
    obtain ⟨middle, first, placed⟩ := placeItem_outcome inv i
    rw [List.mapM_cons]
    cases fault : placementFault? before i with
    | some e =>
      refine ⟨st, ?_, by simp [firstFault?, fault]⟩
      simp [bind, StateT.bind, first, fault, firstFault?, Except.bind]
    | none =>
      obtain ⟨last, rest, holds⟩ := ih (placed fault)
      refine ⟨last, ?_, fun clear => ?_⟩
      · simp only [bind, StateT.bind, first, fault, outcome_none, Except.bind, rest, firstFault?, Option.none_or]
        cases firstFault? (before ++ [i]) is <;> rfl
      · rw [List.append_cons]
        exact holds (by simpa [firstFault?, fault] using clear)

private theorem firstFault?_append (before is js : List Item) :
    firstFault? before (is ++ js) = (firstFault? before is).or (firstFault? (before ++ is) js) := by
  induction is generalizing before with
  | nil => simp [firstFault?]
  | cons i is ih => simp [firstFault?, ih, Option.or_assoc]

/-- Sections in a row, as their items in a row. -/
theorem placeSections_outcome (p : Program) {st : Placement} {before : List Item} (inv : st.Holds before) :
    ∃ st', p.mapM placeSection st = outcome (firstFault? before p.items) (placedSections before p, st') ∧
      (firstFault? before p.items = none → st'.Holds (before ++ p.items)) := by
  induction p generalizing st before with
  | nil => exact ⟨st, rfl, fun _ => by simpa [Program.items] using inv⟩
  | cons s ss ih =>
    obtain ⟨middle, first, placed⟩ := placeItems_outcome s.items inv
    rw [List.mapM_cons, Program.items_cons, firstFault?_append]
    cases fault : firstFault? before s.items with
    | some e =>
      refine ⟨st, ?_, by simp⟩
      simp [bind, StateT.bind, placeSection, first, fault, Except.bind]
    | none =>
      obtain ⟨last, rest, holds⟩ := ih (placed fault)
      refine ⟨last, ?_, fun clear => ?_⟩
      · simp only [bind, StateT.bind, placeSection, first, fault, outcome_none, Except.bind, rest, Option.none_or,
          pure, StateT.pure, Except.pure]
        cases firstFault? (before ++ s.items) (Program.items ss) <;> rfl
      · rw [← List.append_assoc]
        exact holds (by simpa using clear)

private theorem firstFault?_eq_findSome? (before is : List Item) :
    firstFault? before is =
      (is.zipIdx before.length).findSome? fun (i, k) => placementFault? ((before ++ is).take k) i := by
  induction is generalizing before with
  | nil => rfl
  | cons i is ih =>
    have rest := ih (before ++ [i])
    rw [List.append_assoc, List.length_append] at rest
    rw [firstFault?, rest, List.zipIdx_cons, List.findSome?_cons]
    cases fault : placementFault? before i <;> simp [fault]

theorem firstFault?_eq (p : Program) : firstFault? [] p.items = p.placementFault? := by
  rw [firstFault?_eq_findSome?]
  rfl

/-- The first pass: the first item without a place is the error, else the table holds the labels. -/
theorem place_outcome (p : Program) : ∃ symbols,
    place p = outcome p.placementFault? (placedSections [] p, symbols) ∧
      (p.placementFault? = none → ∀ name address, symbols.address? name = some address ↔
        ∃ pre i post, p.items = pre ++ i :: post ∧ i.node = .label name ∧ address = .ofNat (itemsSize pre)) := by
  obtain ⟨last, run, holds⟩ := placeSections_outcome p Placement.Holds.empty
  rw [firstFault?_eq] at run holds
  refine ⟨last.symbols, ?_, fun clear => (holds clear).labels⟩
  simp only [place, StateT.run, run]
  cases p.placementFault? <;> rfl

theorem placementFault?_of_split {p : Program} (clear : p.placementFault? = none) {pre post : List Item} {i : Item}
    (split : p.items = pre ++ i :: post) : placementFault? pre i = none := by
  rw [← firstFault?_eq, split, firstFault?_append, firstFault?] at clear
  simp only [Option.or_eq_none_iff] at clear
  exact clear.2.1

/-- An item without fault ends in the address space, and its name is new if it is a label. -/
theorem of_placementFault?_eq_none {before : List Item} {i : Item} (clear : placementFault? before i = none) :
    itemsSize before < 0x100000000 ∧ itemsSize before + i.node.size ≤ 0x100000000 ∧
      ∀ name, i.node = .label name → defines before name = false := by
  unfold placementFault? at clear
  split at clear
  · cases clear
  · rename_i room
    refine ⟨by omega, by omega, fun name label => ?_⟩
    rw [label] at clear
    simpa using clear

/-! ## Values -/

private theorem findSome?_flatMap {α β γ : Type} (f : α → List β) (g : β → Option γ) (xs : List α) :
    (xs.flatMap f).findSome? g = xs.findSome? fun x => (f x).findSome? g := by
  induction xs with
  | nil => rfl
  | cons x xs ih =>
    rw [List.flatMap_cons, List.findSome?_append, ih, List.findSome?_cons]
    cases (f x).findSome? g <;> rfl

section Values

variable {arithmetic : Arithmetic} {symbols : SymbolTable} {is : List Item}

/-- Checked arithmetic is that of the model. -/
theorem Constant.resolveIn_checked (pos : Position) (c : Constant) :
    c.resolveIn .checked symbols pos = c.resolve symbols pos := by
  induction c with
  | number v => rfl
  | symbol name => rfl
  | part inner selector ih => rw [resolveIn, ih]; rfl

/-- A constant has its fault, or the value that the table gives it. -/
private def Constant.Settled (arithmetic : Arithmetic) (symbols : SymbolTable) (is : List Item) (pos : Position)
    (c : Constant) : Prop :=
  c.resolveIn arithmetic symbols pos = outcome (c.faultIn? arithmetic is pos) (c.valueIn symbols)

private theorem Constant.plain_settled (table : ∀ name, (symbols.address? name).isSome = defines is name)
    (pos : Position) {c : Constant} (plain : c.isPlain) : c.Settled arithmetic symbols is pos := by
  cases c with
  | number v => simp [Settled, resolveIn, faultIn?, fault?, misnested?, symbol?, overflows, valueIn]
  | symbol name =>
    have defined := table name
    unfold Settled
    cases found : symbols.address? name with
    | none => simp_all [resolveIn, faultIn?, fault?, misnested?, symbol?]
    | some address => simp_all [resolveIn, faultIn?, fault?, misnested?, symbol?, overflows, valueIn]
  | part inner selector => simp [isPlain] at plain

/-- Selecting overflows where the arithmetic is checked and the selector names no bytes. -/
theorem Selector.applyIn_eq (selector : Selector) (v : UInt32) : selector.applyIn arithmetic v =
    if arithmetic = .checked ∧ selector.overflows then none else some (selector.select v) := by
  cases arithmetic with
  | checked => simp [applyIn, Selector.apply?_eq]
  | wrapping => simp [applyIn]

private theorem Constant.part_settled {pos : Position} {c : Constant} {selector : Selector}
    (settled : c.Settled arithmetic symbols is pos) (allowed : c.nests selector = false)
    (same : (part c selector).misnested? = c.misnested?) : (part c selector).Settled arithmetic symbols is pos := by
  have fault : (part c selector).fault? is pos = c.fault? is pos := by
    simp only [fault?, same, symbol?]
  rw [Settled, resolveIn, if_neg (by simp [allowed]), settled, valueIn]
  simp only [Selector.applyIn_eq, faultIn?, fault, overflows, Bool.or_eq_true]
  cases c.fault? is pos with
  | some e => rfl
  | none =>
    by_cases checked : arithmetic = .checked
    · by_cases inner : c.overflows <;> by_cases outer : selector.overflows <;>
        simp [checked, inner, outer, bind, Except.bind, outcome]
    · simp [checked, bind, Except.bind]

theorem Constant.resolve_outcome (table : ∀ name, (symbols.address? name).isSome = defines is name) (pos : Position)
    (c : Constant) :
    c.resolveIn arithmetic symbols pos = outcome (c.faultIn? arithmetic is pos) (c.valueIn symbols) := by
  have plainPart (inner : Constant) (plain : inner.isPlain) (selector : Selector) :
      (part inner selector).Settled arithmetic symbols is pos := by
    refine part_settled (plain_settled table pos plain) ?_ ?_ <;> cases inner <;> simp_all [isPlain, nests, misnested?]
  cases c with
  | number v => exact plain_settled table pos (c := .number v) rfl
  | symbol name => exact plain_settled table pos (c := .symbol name) rfl
  | part inner selector =>
    cases inner with
    | number v => exact plainPart (.number v) rfl selector
    | symbol name => exact plainPart (.symbol name) rfl selector
    | part inner slice =>
      -- A part of a part: only the halves of a slice are left, and what the slice is of decides.
      cases slice with
      | lo => simp [resolveIn, nests, faultIn?, fault?, misnested?]
      | hi => simp [resolveIn, nests, faultIn?, fault?, misnested?]
      | bytes first last =>
        by_cases plain : inner.isPlain
        · have sliced := plainPart inner plain (.bytes first last)
          cases selector with
          | bytes _ _ => simp [resolveIn, nests, faultIn?, fault?, misnested?]
          | _ => refine part_settled sliced rfl ?_; cases inner <;> simp_all [isPlain, misnested?]
        · cases inner with
          | part innermost other =>
            cases selector <;> cases other <;>
              simp [resolveIn, nests, faultIn?, fault?, misnested?, isPlain, bind, Except.bind]
          | _ => simp [isPlain] at plain

variable {f : Constant → Except Error Constant} {fault : Constant → Option Error}

/-- Constants are replaced up to the first that has a fault. -/
theorem Node.traverse_outcome (each : ∀ c, f c = outcome (fault c) (.number (c.valueIn symbols))) (n : Node) :
    n.traverse f = outcome (n.constants.findSome? fault) (n.valued symbols) := by
  cases n with
  | instruction i =>
    obtain ⟨code, operands⟩ := i
    cases operands with
    | regImm r imm =>
      simp only [traverse, Operands.traverse, each, constants, List.findSome?_singleton]
      cases fault imm <;> rfl
    | regMem dst base offset =>
      simp only [traverse, Operands.traverse, each, constants, List.findSome?_singleton]
      cases fault offset <;> rfl
    | _ => rfl
  | data d =>
    cases d with
    | values width cs =>
      simp only [traverse, mapM_outcome fun c (_ : c ∈ cs) => each c, outcome_bind_pure, constants]
      rfl
    | _ => rfl
  | _ => rfl

def Section.valued (symbols : SymbolTable) (s : Section) : Section :=
  { s with items := s.items.map fun i => { i with node := i.node.valued symbols } }

/-- The second pass: the first constant without a value is the error. -/
theorem traverse_outcome (table : ∀ name, (symbols.address? name).isSome = defines is name) (p : Program) :
    p.traverse (fun pos c => (c.resolveIn arithmetic symbols pos).map .number) =
      outcome (p.constants.findSome? fun (c, pos) => c.faultIn? arithmetic is pos)
        (p.map (Section.valued symbols)) := by
  have constant (pos : Position) (c : Constant) : (c.resolveIn arithmetic symbols pos).map Constant.number =
      outcome (c.faultIn? arithmetic is pos) (.number (c.valueIn symbols)) := by
    rw [Constant.resolve_outcome table, outcome_map]
  have item (i : Item) :
      (do return { i with node := ← i.node.traverse fun c => (c.resolveIn arithmetic symbols i.pos).map .number } :
        Except Error Item) =
      outcome (i.node.constants.findSome? fun c => c.faultIn? arithmetic is i.pos)
        { i with node := i.node.valued symbols } := by
    rw [Node.traverse_outcome (constant i.pos), outcome_bind_pure]
  have items (s : Section) :
      (do return { s with items := ← s.items.mapM fun i => do
        return { i with node := ← i.node.traverse fun c => (c.resolveIn arithmetic symbols i.pos).map .number } } :
        Except Error Section) =
      outcome (s.items.findSome? fun i => i.node.constants.findSome? fun c => c.faultIn? arithmetic is i.pos)
        (s.valued symbols) := by
    rw [mapM_outcome fun i (_ : i ∈ s.items) => item i, outcome_bind_pure]
    rfl
  rw [Program.traverse, mapM_outcome fun s (_ : s ∈ p) => items s]
  simp only [Program.constants, Program.items, findSome?_flatMap, List.findSome?_map]
  rfl

/-- The analysis of the model is the one in checked arithmetic. -/
theorem analyzeIn_checked (p : Program) : analyzeIn .checked p = analyze p := by
  have constant (symbols : SymbolTable) (pos : Position) :
      (fun c => (c.resolveIn .checked symbols pos).map .number) = Constant.resolved symbols pos := by
    funext c
    rw [Constant.resolveIn_checked, Constant.resolved]
  have node (symbols : SymbolTable) (pos : Position) (n : Node) :
      n.traverse (Constant.resolved symbols pos) = n.resolved symbols pos := by
    cases n with
    | instruction i => obtain ⟨code, operands⟩ := i; cases operands <;> rfl
    | data d => cases d <;> rfl
    | _ => rfl
  have sections (symbols : SymbolTable) (placed : Program) :
      placed.traverse (fun pos c => (c.resolveIn .checked symbols pos).map .number) =
        placed.mapM (Section.resolved symbols) := by
    simp only [Program.traverse, constant, node]
    rfl
  simp only [analyzeIn, analyze, sections]

end Values

/-! ## The layout -/

@[simp] theorem placedItems_length (before is : List Item) : (placedItems before is).length = is.length := by
  induction is generalizing before with
  | nil => rfl
  | cons i is ih => simp [placedItems, ih]

private theorem placedItems_append (before is js : List Item) :
    placedItems before (is ++ js) = placedItems before is ++ placedItems (before ++ is) js := by
  induction is generalizing before with
  | nil => simp [placedItems]
  | cons i is ih => simp [placedItems, ih]

private theorem placedSections_items (before : List Item) (p : Program) :
    Program.items (placedSections before p) = placedItems before p.items := by
  induction p generalizing before with
  | nil => rfl
  | cons s ss ih =>
    rw [Program.items_cons, placedItems_append, ← ih]
    rfl

private theorem placedItems_getElem? (before is : List Item) (k : Nat) :
    (placedItems before is)[k]? =
      is[k]?.map fun i => { i with address := .ofNat (itemsSize (before ++ is.take k)) } := by
  induction is generalizing before k with
  | nil => simp [placedItems]
  | cons i is ih =>
    cases k with
    | zero => simp [placedItems]
    | succ k => simp [placedItems, ih]

private theorem placedItems_flatMap {α : Type} (f : Node → Position → List α) (before is : List Item) :
    (placedItems before is).flatMap (fun i => f i.node i.pos) = is.flatMap fun i => f i.node i.pos := by
  induction is generalizing before with
  | nil => rfl
  | cons i is ih => simp [placedItems, ih]

private theorem placedSections_constants (before : List Item) (p : Program) :
    Program.constants (placedSections before p) = p.constants := by
  rw [Program.constants, placedSections_items]
  exact placedItems_flatMap (fun n pos => n.constants.map (·, pos)) before p.items

private theorem placedSections_map {α : Type} (f : String → Nat → α) (before : List Item) (p : Program) :
    (placedSections before p).map (fun s => f s.name s.items.length) = p.map fun s => f s.name s.items.length := by
  induction p generalizing before with
  | nil => rfl
  | cons s ss ih => simp [placedSections, ih]

private theorem valued_items (symbols : SymbolTable) (p : Program) :
    Program.items (p.map (Section.valued symbols)) = p.items.map fun i =>
      { i with node := i.node.valued symbols } := by
  induction p with
  | nil => rfl
  | cons s ss ih =>
    rw [Program.items_cons, List.map_append, ← ih]
    rfl

/-- The two passes of an analysis, with the table that joins them. -/
theorem analyzeIn_outcome (arithmetic : Arithmetic) (p : Program) : ∃ symbols,
    analyzeIn arithmetic p = outcome (p.placementFault?.or (p.constantFault? arithmetic))
        ((placedSections [] p).map (Section.valued symbols), symbols) ∧
      (p.placementFault? = none → ∀ name address, symbols.address? name = some address ↔
        ∃ pre i post, p.items = pre ++ i :: post ∧ i.node = .label name ∧ address = .ofNat (itemsSize pre)) := by
  obtain ⟨symbols, placed, labels⟩ := place_outcome p
  refine ⟨symbols, ?_, labels⟩
  unfold analyzeIn
  rw [placed]
  cases fault : p.placementFault? with
  | some e => rfl
  | none =>
    have table (name : String) : (symbols.address? name).isSome = defines p.items name := by
      rw [Bool.eq_iff_iff, Option.isSome_iff_exists, defines_iff]
      constructor
      · rintro ⟨address, found⟩
        obtain ⟨pre, i, post, split, label, -⟩ := (labels fault name address).mp found
        exact ⟨i, by simp [split], label⟩
      · rintro ⟨i, member, label⟩
        obtain ⟨pre, post, split⟩ := List.append_of_mem member
        exact ⟨_, (labels fault name _).mpr ⟨pre, i, post, split, label, rfl⟩⟩
    simp only [outcome_none, bind, Except.bind, Option.none_or]
    rw [traverse_outcome table, placedSections_constants]
    exact outcome_bind_pure (p.constantFault? arithmetic) _ fun q => (q, symbols)

theorem analyze_outcome (p : Program) : ∃ symbols,
    analyze p = outcome (p.placementFault?.or (p.constantFault? .checked))
        ((placedSections [] p).map (Section.valued symbols), symbols) ∧
      (p.placementFault? = none → ∀ name address, symbols.address? name = some address ↔
        ∃ pre i post, p.items = pre ++ i :: post ∧ i.node = .label name ∧ address = .ofNat (itemsSize pre)) := by
  rw [← analyzeIn_checked]
  exact analyzeIn_outcome .checked p

private theorem split_of_getElem? {α : Type} {xs : List α} {k : Nat} {x : α} (found : xs[k]? = some x) :
    xs = xs.take k ++ x :: xs.drop (k + 1) := by
  obtain ⟨inside, rfl⟩ := List.getElem?_eq_some_iff.mp found
  rw [← List.drop_eq_getElem_cons inside, List.take_append_drop]

private theorem offset_toNat {p : Program} (clear : p.placementFault? = none) {k : Nat} {i : Item}
    (found : p.items[k]? = some i) : (UInt32.ofNat (p.offset k)).toNat = p.offset k := by
  have room := of_placementFault?_eq_none (placementFault?_of_split clear (split_of_getElem? found))
  exact UInt32.toNat_ofNat_of_lt' room.1

theorem laidOut_of_analyzeIn {arithmetic : Arithmetic} {p p' : Program} {symbols : SymbolTable}
    (analyzed : analyzeIn arithmetic p = .ok (p', symbols)) : LaidOut p p' symbols := by
  obtain ⟨symbols, run, labels⟩ := analyzeIn_outcome arithmetic p
  obtain ⟨clear, same⟩ := outcome_eq_ok (run.symm.trans analyzed)
  cases same
  have placed := (Option.or_eq_none_iff.mp clear).1
  refine ⟨?_, ?_, fun name address => (labels placed name address).trans ⟨?_, ?_⟩, fun k i found => ?_⟩
  · simpa [Section.valued, Function.comp_def] using placedSections_map (fun name _ => name) [] p
  · simpa [Section.valued, Function.comp_def] using placedSections_map (fun _ length => length) [] p
  · rintro ⟨pre, i, post, split, label, rfl⟩
    have found : p.items[pre.length]? = some i := by simp [split]
    have here : p.offset pre.length = itemsSize pre := by simp [Program.offset, split]
    exact ⟨pre.length, i, found, label, here ▸ offset_toNat placed found⟩
  · rintro ⟨k, i, found, label, here⟩
    refine ⟨_, i, _, split_of_getElem? found, label, ?_⟩
    rw [← UInt32.toNat_inj, here]
    exact (offset_toNat placed found).symm
  · refine ⟨_, offset_toNat placed found, ?_⟩
    rw [valued_items, placedSections_items, List.getElem?_map, placedItems_getElem?, found]
    rfl

theorem laidOut_of_analyze {p p' : Program} {symbols : SymbolTable} (analyzed : analyze p = .ok (p', symbols)) :
    LaidOut p p' symbols :=
  laidOut_of_analyzeIn ((analyzeIn_checked p).trans analyzed)

private theorem outOfRange_of_encodeImmediate {pos : Position} {code : UInt8} {v : UInt32} {e : Error}
    (refused : encodeImmediate pos code v = .error e) : ∃ fault, e.cause = .outOfRange fault := by
  unfold encodeImmediate at refused
  split at refused
  · cases refused
  · split at refused
    · cases refused
    · cases refused; exact ⟨_, rfl⟩

private theorem outOfRange_of_encodeOffset {pos : Position} {code : UInt8} {v : UInt32} {e : Error}
    (refused : encodeOffset pos code v = .error e) : ∃ fault, e.cause = .outOfRange fault := by
  unfold encodeOffset at refused
  split at refused
  · cases refused
  · cases refused; exact ⟨_, rfl⟩

private theorem outOfRange_of_encodeDatum {pos : Position} {width : Width} {v : UInt32} {e : Error}
    (refused : encodeDatum pos width (.number v) = .error e) : ∃ fault, e.cause = .outOfRange fault := by
  simp only [encodeDatum, Constant.known, Constant.value?, bind, Except.bind] at refused
  split at refused
  · cases refused
  · cases refused; exact ⟨_, rfl⟩

/-- Once constants are numbers, only their range can be wrong. -/
theorem outOfRange_of_encode {n : Node} {symbols : SymbolTable} {pos : Position} {address : UInt32} {e : Error}
    (refused : Item.encode ⟨n.valued symbols, pos, address⟩ = .error e) : ∃ fault, e.cause = .outOfRange fault := by
  cases n with
  | instruction i =>
    obtain ⟨code, operands⟩ := i
    cases operands with
    | regImm r imm =>
      rcases bind_eq_error.mp refused with impossible | ⟨v, -, refused⟩
      · cases impossible
      · rcases bind_eq_error.mp refused with refused | ⟨bs, -, impossible⟩
        · exact outOfRange_of_encodeImmediate refused
        · cases impossible
    | regMem dst base offset =>
      rcases bind_eq_error.mp refused with impossible | ⟨v, -, refused⟩
      · cases impossible
      · rcases bind_eq_error.mp refused with refused | ⟨bs, -, impossible⟩
        · exact outOfRange_of_encodeOffset refused
        · cases impossible
    | _ => cases refused
  | data d =>
    cases d with
    | values width cs =>
      rcases bind_eq_error.mp refused with refused | ⟨bss, -, impossible⟩
      · obtain ⟨c, member, refused⟩ := mapM_eq_error refused
        obtain ⟨c, -, rfl⟩ := List.mem_map.mp member
        exact outOfRange_of_encodeDatum refused
      · cases impossible
    | _ => cases refused
  | _ => cases refused

theorem LaidOut.length {p p' : Program} {symbols : SymbolTable} (laid : LaidOut p p' symbols) :
    p'.items.length = p.items.length := by
  have lengths := congrArg List.sum laid.lengths
  simpa [Program.items, List.length_flatMap] using lengths

/-- A laid out program has no object file only because something is out of range. -/
theorem LaidOut.generate_eq_error {p p' : Program} {symbols : SymbolTable} (laid : LaidOut p p' symbols) {e : Error}
    (refused : generate p' symbols = .error e) : ∃ fault, e.cause = .outOfRange fault := by
  obtain ⟨s, listed, ⟨i, member, refused⟩ | long⟩ := Bisc.generate_eq_error refused
  · have item : i ∈ p'.items := List.mem_flatMap.mpr ⟨s, listed, member⟩
    obtain ⟨k, found⟩ := List.mem_iff_getElem?.mp item
    have inside : k < p.items.length := by
      rw [← laid.length]
      exact (List.getElem?_eq_some_iff.mp found).1
    obtain ⟨address, -, placed⟩ := laid.items k _ (List.getElem?_eq_getElem inside)
    rw [found, Option.some.injEq] at placed
    exact outOfRange_of_encode (placed ▸ refused)
  · exact ⟨_, long⟩

end Bisc
