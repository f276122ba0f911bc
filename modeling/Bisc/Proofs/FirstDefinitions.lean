import Bisc.Proofs.Layout
import Bisc.Text.Utf8

/-!
Symbol tables over a history of definitions. A name keeps its first definition, and every later one
is refused and leaves the table as it is. The names come in the order of their bytes: they are put
in by code points, and UTF-8 keeps that order.
-/
namespace Bisc

/-! ## The order of bytes -/

namespace Text

/-- Two strings of bytes differ at some place, and at the first such place the first has the smaller
    byte. Neither begins with the other, so what follows them does not matter. -/
inductive Below : List UInt8 → List UInt8 → Prop
  | here {a b : UInt8} {xs ys : List UInt8} (less : a < b) : Below (a :: xs) (b :: ys)
  | later {a : UInt8} {xs ys : List UInt8} (rest : Below xs ys) : Below (a :: xs) (a :: ys)

theorem below_cons {a b : UInt8} {xs ys : List UInt8} : Below (a :: xs) (b :: ys) ↔ a < b ∨ a = b ∧ Below xs ys := by
  constructor
  · intro below
    cases below with
    | here less => exact .inl less
    | later rest => exact .inr ⟨rfl, rest⟩
  · rintro (less | ⟨rfl, rest⟩)
    · exact .here less
    · exact .later rest

theorem not_below_nil {ys : List UInt8} : ¬Below [] ys := by
  intro below
  cases below

theorem Below.append_lt {xs ys : List UInt8} (below : Below xs ys) (us vs : List UInt8) : xs ++ us < ys ++ vs := by
  induction below with
  | here less => exact List.cons_lt_cons_iff.mpr (.inl less)
  | later _ ih => exact List.cons_lt_cons_iff.mpr (.inr ⟨rfl, ih⟩)

/-- The bytes of a smaller character come first. -/
theorem below_utf8EncodeChar {c d : Char} (less : c < d) :
    Below (String.utf8EncodeChar c) (String.utf8EncodeChar d) := by
  have ordered : c.val.toNat < d.val.toNat := less
  have bound : d.val.toNat < 0x110000 := by
    rcases d.valid with small | large
    · exact small.trans (by decide)
    · exact large.2
  unfold String.utf8EncodeChar
  dsimp only
  generalize c.val.toNat = v at ordered ⊢
  generalize d.val.toNat = w at ordered bound ⊢
  -- The first byte tells how many there are and grows with their number; among as many, groups of
  -- six bits decide from the left.
  split_ifs <;>
    simp only [below_cons, not_below_nil, UInt8.lt_iff_toNat_lt, ← UInt8.toNat_inj, UInt8.toNat_ofNat'] <;>
    simp (disch := omega) only [Nat.mod_eq_of_lt] <;>
    omega

/-- Texts are in the order of their bytes. -/
theorem utf8_lt {cs ds : List Char} (less : cs < ds) : utf8 cs < utf8 ds := by
  induction cs generalizing ds with
  | nil =>
    cases ds with
    | nil => exact absurd less (List.lt_irrefl _)
    | cons d ds =>
      obtain ⟨b, bs, bytes⟩ := List.exists_cons_of_ne_nil (String.utf8EncodeChar_ne_nil (c := d))
      rw [utf8, utf8, List.flatMap_nil, List.flatMap_cons, bytes]
      exact List.nil_lt_cons _ _
  | cons c cs ih =>
    cases ds with
    | nil => exact absurd less (List.not_lt_nil _)
    | cons d ds =>
      rw [utf8, utf8, List.flatMap_cons, List.flatMap_cons]
      rcases List.cons_lt_cons_iff.mp less with first | ⟨rfl, rest⟩
      · exact (below_utf8EncodeChar first).append_lt _ _
      · exact List.append_left_lt (ih rest)

end Text

/-! ## Histories -/

/-- A definition of a label: its name, the symbol that it is to stand for, and its column. -/
structure LabelDefinition where
  name : String
  symbol : Symbol
  column : Nat

/-- The first definition of a name in a history. -/
def firstDefinition? (ds : List LabelDefinition) (name : String) : Option LabelDefinition :=
  ds.find? fun d => d.name = name

namespace SymbolTable

/-- What a table answers to a definition, and the table that it becomes; where it refuses it stays what it was. -/
def define (t : SymbolTable) (d : LabelDefinition) : Except Error Unit × SymbolTable :=
  match t.insert d.name d.symbol d.column with
  | .ok t' => (.ok (), t')
  | .error e => (.error e, t)

/-- The answers to the definitions of a history, one after the other, and the table at its end. -/
def defineAll (t : SymbolTable) : List LabelDefinition → List (Except Error Unit) × SymbolTable
  | [] => ([], t)
  | d :: ds =>
    let (answer, t') := t.define d
    let (answers, last) := t'.defineAll ds
    (answer :: answers, last)

end SymbolTable

/-- What the answers to a history are, and what is in the table at its end. -/
structure KeepsFirst (ds : List LabelDefinition) (answers : List (Except Error Unit)) (t : SymbolTable) : Prop where
  /-- Every definition has an answer: it is accepted exactly if no earlier one has its name, and
      refused at its own place. -/
  answered : answers.length = ds.length
  answer : ∀ (k : Nat) (d : LabelDefinition), ds[k]? = some d → answers[k]? = some
    (if ∃ e ∈ ds.take k, e.name = d.name then .error ⟨.duplicateSymbol d.name, ⟨d.symbol.line, d.column⟩⟩ else .ok ())
  /-- A name is found as it was first defined, and not at all if it was not. -/
  get? : ∀ name, t.get? name = (firstDefinition? ds name).map LabelDefinition.symbol
  address? : ∀ name, t.address? name = (firstDefinition? ds name).map fun d => d.symbol.address
  /-- There are as many names as accepted definitions. -/
  size : t.size = answers.countP Except.isOk
  /-- The entries are in strictly increasing order of the bytes of their names, with every name that
      was defined once and no other. -/
  ordered : t.entries.Pairwise fun a b => Text.utf8 a.1.toList < Text.utf8 b.1.toList
  once : ∀ name, (t.entries.map Prod.fst).count name = if ∃ d ∈ ds, d.name = name then 1 else 0
  entry : ∀ e ∈ t.entries, t.get? e.1 = some e.2

/-! ## One definition -/

/-- Names in strictly increasing order. -/
def Ascending (entries : List (String × Symbol)) : Prop := entries.Pairwise fun a b => a.1 < b.1

theorem insertByName_perm (name : String) (symbol : Symbol) (entries : List (String × Symbol)) :
    (insertByName name symbol entries).Perm ((name, symbol) :: entries) := by
  induction entries with
  | nil => exact .refl _
  | cons e es ih =>
    rw [insertByName]
    split
    · exact .refl _
    · exact (List.Perm.cons e ih).trans (.swap ..)

namespace Ascending

variable {name : String} {symbol : Symbol} {entries : List (String × Symbol)}

/-- A new name is put between the smaller ones and the greater ones. -/
theorem insertByName (ascending : Ascending entries) (fresh : entries.lookup name = none) :
    Ascending (insertByName name symbol entries) := by
  induction entries with
  | nil => exact List.pairwise_singleton _ _
  | cons e es ih =>
    obtain ⟨least, rest⟩ := List.pairwise_cons.mp ascending
    obtain ⟨apart, absent⟩ := List.forall_mem_cons.mp (List.lookup_eq_none_iff.mp fresh)
    rw [Bisc.insertByName]
    split
    · rename_i less
      refine List.pairwise_cons.mpr ⟨List.forall_mem_cons.mpr ⟨less, fun f member => ?_⟩, ascending⟩
      exact less.trans (least f member)
    · rename_i notLess
      have greater : e.1 < name := lt_of_le_of_ne (not_lt.mp notLess) fun same => by simp [same] at apart
      refine List.pairwise_cons.mpr ⟨fun f member => ?_, ih rest (List.lookup_eq_none_iff.mpr absent)⟩
      rcases List.mem_cons.mp ((insertByName_perm name symbol es).mem_iff.mp member) with rfl | old
      · exact greater
      · exact least f old

theorem nodup_names (ascending : Ascending entries) : (entries.map Prod.fst).Nodup := by
  rw [List.nodup_iff_pairwise_ne, List.pairwise_map]
  exact ascending.imp fun less => less.ne

/-- Where names are distinct, every entry is found by its name. -/
theorem lookup_of_mem (ascending : Ascending entries) {e : String × Symbol} (member : e ∈ entries) :
    entries.lookup e.1 = some e.2 := by
  obtain ⟨front, back, rfl⟩ := List.append_of_mem member
  obtain ⟨-, -, before⟩ := List.pairwise_append.mp ascending
  refine List.lookup_eq_some_iff.mpr ⟨front, back, rfl, fun f earlier => ?_⟩
  have less := before f earlier e List.mem_cons_self
  simpa using less.ne'

end Ascending

theorem firstDefinition?_isSome {ds : List LabelDefinition} {name : String} :
    (firstDefinition? ds name).isSome ↔ ∃ d ∈ ds, d.name = name := by
  simp [firstDefinition?]

theorem firstDefinition?_concat (ds : List LabelDefinition) (d : LabelDefinition) (name : String) :
    firstDefinition? (ds ++ [d]) name = (firstDefinition? ds name).or (if d.name = name then some d else none) := by
  rw [firstDefinition?, List.find?_append, List.find?_singleton]
  simp [firstDefinition?]

namespace SymbolTable

variable {t : SymbolTable} {ds : List LabelDefinition} {d : LabelDefinition}

/-- The table has the first definitions of a history, in the order of their names. -/
structure Holds (t : SymbolTable) (ds : List LabelDefinition) : Prop where
  found : ∀ name, t.get? name = (firstDefinition? ds name).map LabelDefinition.symbol
  ascending : Ascending t.entries

theorem Holds.empty : SymbolTable.empty.Holds [] := ⟨fun _ => rfl, List.Pairwise.nil⟩

theorem Holds.isSome_get? (holds : t.Holds ds) (name : String) : (t.get? name).isSome ↔ ∃ d ∈ ds, d.name = name := by
  rw [holds.found, Option.isSome_map, firstDefinition?_isSome]

/-- A name that is taken is refused, and the table stays as it is. -/
theorem Holds.define_taken (holds : t.Holds ds) (taken : ∃ e ∈ ds, e.name = d.name) :
    t.define d = (.error ⟨.duplicateSymbol d.name, ⟨d.symbol.line, d.column⟩⟩, t) := by
  rw [define, insert, if_pos ((holds.isSome_get? d.name).mpr taken)]

/-- A new name is accepted and put in its place. -/
theorem Holds.define_fresh (holds : t.Holds ds) (fresh : ¬∃ e ∈ ds, e.name = d.name) :
    t.define d = (.ok (), ⟨insertByName d.name d.symbol t.entries⟩) := by
  rw [define, insert, if_neg fun taken => fresh ((holds.isSome_get? d.name).mp taken)]

/-- One definition: the history goes on, and the table with it. -/
theorem Holds.define (holds : t.Holds ds) (d : LabelDefinition) : (t.define d).2.Holds (ds ++ [d]) := by
  by_cases taken : ∃ e ∈ ds, e.name = d.name
  · rw [holds.define_taken taken]
    refine ⟨fun name => ?_, holds.ascending⟩
    rw [holds.found, firstDefinition?_concat]
    by_cases same : d.name = name
    · obtain ⟨e, first⟩ := Option.isSome_iff_exists.mp (firstDefinition?_isSome.mpr (same ▸ taken))
      rw [first, Option.some_or]
    · rw [if_neg same, Option.or_none]
  · have absent : t.entries.lookup d.name = none := by
      rw [← Option.not_isSome_iff_eq_none]
      exact fun found => taken ((holds.isSome_get? d.name).mp found)
    rw [holds.define_fresh taken]
    refine ⟨fun name => ?_, holds.ascending.insertByName absent⟩
    rw [get?, lookup_insertByName absent, firstDefinition?_concat]
    by_cases same : d.name = name
    · have none : firstDefinition? ds name = none := by
        rw [← Option.not_isSome_iff_eq_none, firstDefinition?_isSome, ← same]
        exact taken
      rw [if_pos same.symm, if_pos same, none, Option.none_or, Option.map_some]
    · rw [if_neg (Ne.symm same), if_neg same, Option.or_none]
      exact holds.found name

theorem size_define (t : SymbolTable) (d : LabelDefinition) :
    (t.define d).2.size = t.size + if (t.define d).1.isOk then 1 else 0 := by
  unfold SymbolTable.define insert
  split
  · rename_i t' accepted
    split at accepted
    · cases accepted
    · cases accepted
      exact (insertByName_perm d.name d.symbol t.entries).length_eq
  · rfl

/-! ## Histories of definitions -/

theorem defineAll_cons (t : SymbolTable) (d : LabelDefinition) (ds : List LabelDefinition) :
    t.defineAll (d :: ds) = ((t.define d).1 :: ((t.define d).2.defineAll ds).1,
      ((t.define d).2.defineAll ds).2) := rfl

theorem defineAll_append (t : SymbolTable) (ds es : List LabelDefinition) :
    (t.defineAll (ds ++ es)).2 = ((t.defineAll ds).2.defineAll es).2 := by
  induction ds generalizing t with
  | nil => rfl
  | cons d ds ih => rw [List.cons_append, defineAll_cons, defineAll_cons, ih]

theorem length_defineAll (t : SymbolTable) (ds : List LabelDefinition) : (t.defineAll ds).1.length = ds.length := by
  induction ds generalizing t with
  | nil => rfl
  | cons d ds ih => rw [defineAll_cons, List.length_cons, ih, List.length_cons]

/-- An answer is that of the table after the definitions before. -/
theorem answer_defineAll (t : SymbolTable) {ds : List LabelDefinition} {k : Nat} {d : LabelDefinition}
    (there : ds[k]? = some d) :
    (t.defineAll ds).1[k]? = some ((t.defineAll (ds.take k)).2.define d).1 := by
  induction ds generalizing t k with
  | nil => cases there
  | cons e ds ih =>
    rw [defineAll_cons]
    cases k with
    | zero =>
      cases there
      rfl
    | succ k =>
      rw [List.getElem?_cons_succ] at there ⊢
      rw [ih _ there, List.take_succ_cons, defineAll_cons]

theorem size_defineAll (t : SymbolTable) (ds : List LabelDefinition) :
    (t.defineAll ds).2.size = t.size + (t.defineAll ds).1.countP Except.isOk := by
  induction ds generalizing t with
  | nil => rfl
  | cons d ds ih =>
    rw [defineAll_cons, ih, size_define, List.countP_cons]
    omega

/-- A whole history: the table at its end has its first definitions. -/
theorem holds_defineAll (ds : List LabelDefinition) : (SymbolTable.empty.defineAll ds).2.Holds ds := by
  induction ds using List.reverseRecOn with
  | nil => exact .empty
  | append_singleton ds d ih =>
    rw [defineAll_append]
    exact ih.define d

theorem Holds.count_names (holds : t.Holds ds) (name : String) :
    (t.entries.map Prod.fst).count name = if ∃ d ∈ ds, d.name = name then 1 else 0 := by
  have listed : name ∈ t.entries.map Prod.fst ↔ ∃ d ∈ ds, d.name = name := by
    rw [← holds.isSome_get?, get?, List.lookup_isSome_iff, List.mem_map]
    simp only [beq_iff_eq, @eq_comm _ name]
  by_cases defined : ∃ d ∈ ds, d.name = name
  · rw [if_pos defined]
    exact List.count_eq_one_of_mem holds.ascending.nodup_names (listed.mpr defined)
  · rw [if_neg defined]
    exact List.count_eq_zero_of_not_mem fun member => defined (listed.mp member)

end SymbolTable

/-- A table keeps first definitions, whatever it is asked to define from the start on: a definition
    is accepted exactly if its name is new, names are found as they were first defined and are
    listed once each by their bytes, and a definition that is refused could as well have been left
    out. -/
theorem first_definitions_kept (ds : List LabelDefinition) :
    KeepsFirst ds (SymbolTable.empty.defineAll ds).1 (SymbolTable.empty.defineAll ds).2 ∧
    ∀ front d back, ds = front ++ d :: back → (∃ e ∈ front, e.name = d.name) →
      (SymbolTable.empty.defineAll ds).2 = (SymbolTable.empty.defineAll (front ++ back)).2 := by
  have holds := SymbolTable.holds_defineAll ds
  refine ⟨⟨SymbolTable.length_defineAll _ ds, fun k d there => ?_, holds.found, fun name => ?_, ?_, ?_,
    holds.count_names, ?_⟩, ?_⟩
  · have before := SymbolTable.holds_defineAll (ds.take k)
    rw [SymbolTable.answer_defineAll _ there]
    by_cases taken : ∃ e ∈ ds.take k, e.name = d.name
    · rw [if_pos taken, before.define_taken taken]
    · rw [if_neg taken, before.define_fresh taken]
  · rw [SymbolTable.address?, holds.found, Option.map_map]
    rfl
  · rw [SymbolTable.size_defineAll]
    exact Nat.zero_add _
  · exact holds.ascending.imp fun less => Text.utf8_lt (String.lt_iff.mp less)
  · exact fun e member => holds.ascending.lookup_of_mem member
  · rintro front d back rfl taken
    have before := SymbolTable.holds_defineAll front
    rw [SymbolTable.defineAll_append, SymbolTable.defineAll_append, SymbolTable.defineAll_cons,
      before.define_taken taken]

/-- A history in which a name comes back, with a name outside of ASCII. -/
def revisited : List LabelDefinition :=
  [⟨"b", ⟨0, 1⟩, 1⟩, ⟨"é", ⟨4, 2⟩, 1⟩, ⟨"b", ⟨8, 3⟩, 5⟩, ⟨"a", ⟨12, 4⟩, 1⟩]

/-- The second definition of `b` is refused, and the table is as if it had not been asked for. -/
theorem first_definitions_kept_revisited :
    KeepsFirst revisited [.ok (), .ok (), .error ⟨.duplicateSymbol "b", ⟨3, 5⟩⟩, .ok ()]
      ⟨[("a", ⟨12, 4⟩), ("b", ⟨0, 1⟩), ("é", ⟨4, 2⟩)]⟩ ∧
    (SymbolTable.empty.defineAll revisited).2 = (SymbolTable.empty.defineAll (revisited.eraseIdx 2)).2 := by
  obtain ⟨kept, leaves⟩ := first_definitions_kept revisited
  have run : SymbolTable.empty.defineAll revisited = ([.ok (), .ok (), .error ⟨.duplicateSymbol "b", ⟨3, 5⟩⟩, .ok ()],
      ⟨[("a", ⟨12, 4⟩), ("b", ⟨0, 1⟩), ("é", ⟨4, 2⟩)]⟩) := by cbv
  rw [run] at kept
  refine ⟨kept, leaves (revisited.take 2) ⟨"b", ⟨8, 3⟩, 5⟩ (revisited.drop 3) rfl ?_⟩
  exact ⟨⟨"b", ⟨0, 1⟩, 1⟩, List.mem_cons_self, rfl⟩

end Bisc
