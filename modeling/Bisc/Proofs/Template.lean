import Bisc.InstructionSet.Table
import Bisc.PseudoForm
import Bisc.Proofs.Spelling

/-!
Templates. A template line is made of fixed tokens, blanks and slots. Where these can be told apart
whatever the slots hold, the text of the line with operands in its slots is read as its fixed tokens
with the tokens of the operands between them.
-/
namespace Bisc

/-- What a template line is made of. -/
inductive Piece
  | token (t : Token)
  | blank
  | slot (n : Nat)
deriving DecidableEq

/-- The operand whose placeholder a text is; no form has more than three operands. -/
def slotIndex? (text : String) : Option Nat := [0, 1, 2].find? fun n => text == slot n

/-- A token of a template, which gets its place with the line it stands in. -/
def Token.fixed (kind : TokenKind) (raw : String) (value : Option UInt32) : Token := ⟨kind, raw, value, ⟨0, 0⟩, 0⟩

/-- The pieces of the tokens of a line, with the blanks between them, from a column on. -/
def piecesFrom : Nat → List Token → List Piece
  | _, [] => []
  | column, t :: ts =>
    let piece := match slotIndex? t.raw with
      | some n => .slot n
      | none => .token (Token.fixed t.kind t.raw t.value)
    List.replicate (t.pos.column - column) .blank ++
      piece :: piecesFrom (t.pos.column + Text.utf8Length t.raw.toList) ts

def pieces (isa : InstructionSet) (line : String) : List Piece := piecesFrom 1 (tokenizeLine isa line.toList 1)

namespace Piece

def text (slots : Nat → List Char) : Piece → List Char
  | token t => t.raw.toList
  | blank => [' ']
  | slot n => slots n

/-- The tokens of a piece, given those in the slots. -/
def tokens (arguments : List (List Token)) : Piece → List Token
  | token t => [t]
  | blank => []
  | slot n => arguments.getD n []

/-- No word goes on into these pieces, whatever stands in their slots. -/
def stops : List Piece → Bool
  | [] => true
  | token t :: _ => t.raw.toList.head?.any fun c => !isWordChar c
  | blank :: _ => true
  | slot _ :: _ => false

/-- The piece is read by itself, before `rest` and with at most `arity` operands to fill it. -/
def apart (isa : InstructionSet) (arity : Nat) (rest : List Piece) : Piece → Bool
  | token t => t.spelled isa && t.kind.isCode && '\x7b' ∉ t.raw.toList && (!t.kind.runsOn || stops rest)
  | blank => true
  | slot n => n < arity && stops rest

def allApart (isa : InstructionSet) (arity : Nat) : List Piece → Bool
  | [] => true
  | p :: ps => p.apart isa arity ps && allApart isa arity ps

end Piece

/-- A template line that its pieces spell and in which every piece is read by itself. -/
def readable (isa : InstructionSet) (arity : Nat) (line : String) : Bool :=
  line.toList = (pieces isa line).flatMap (Piece.text fun n => (slot n).toList) && Piece.allApart isa arity
    (pieces isa line)

theorem readable_of_mem_pseudoTable {entry : String × PseudoForm} (member : entry ∈ pseudoTable) :
    entry.2.signature.length ≤ 3 ∧ ∀ line ∈ entry.2.template, readable bisc entry.2.signature.length line := by
  revert entry
  decide +kernel

/-! ## Filling -/

section Replace

variable {mark replacement : List Char}

private theorem replaceFrom_skip (pattern : List Char) (word tail : List Char) :
    Text.replaceFrom pattern replacement word.length (word ++ tail) =
    Text.replaceFrom pattern replacement 0 tail := by
  induction word with
  | nil => rfl
  | cons c word ih => simpa [Text.replaceFrom] using ih

/-- Text without a brace has no placeholder in it. -/
theorem replaceAll_append_of_free {free : List Char} (plain : '\x7b' ∉ free) (tail : List Char) :
    Text.replaceAll ('\x7b' :: mark) replacement (free ++ tail) =
      free ++ Text.replaceAll ('\x7b' :: mark) replacement tail := by
  unfold Text.replaceAll
  induction free with
  | nil => rfl
  | cons c free ih =>
    simp only [List.mem_cons, not_or] at plain
    have other : ('\x7b' == c) = false := by simpa using plain.1
    simp only [List.cons_append, Text.replaceFrom, List.isPrefixOf, other, Bool.false_and,
      Bool.false_eq_true, if_false,
      ih plain.2]

theorem replaceAll_append_of_pattern (tail : List Char) :
    Text.replaceAll ('\x7b' :: mark) replacement ('\x7b' :: mark ++ tail) =
      replacement ++ Text.replaceAll ('\x7b' :: mark) replacement tail := by
  have here : ('\x7b' :: mark).isPrefixOf ('\x7b' :: mark ++ tail) := by simp
  unfold Text.replaceAll
  rw [List.cons_append] at here ⊢
  rw [Text.replaceFrom, if_pos here]
  simp only [List.length_cons, Nat.add_sub_cancel, replaceFrom_skip]

end Replace

theorem replaceAll_append_of_other {d e : Char} (differs : d ≠ e) (digit : e ≠ '\x7b')
    (replacement tail : List Char) :
    Text.replaceAll ['\x7b', d, '\x7d'] replacement (['\x7b', e, '\x7d'] ++ tail) =
      ['\x7b', e, '\x7d'] ++ Text.replaceAll ['\x7b', d, '\x7d'] replacement tail := by
  have free : '\x7b' ∉ [e, '\x7d'] := by simp [digit.symm]
  have rest := @replaceAll_append_of_free [d, '\x7d'] replacement _ free tail
  have other : (d == e) = false := by simpa using differs
  simp only [Text.replaceAll, List.cons_append, List.nil_append] at rest ⊢
  rw [Text.replaceFrom, if_neg (by simp [List.isPrefixOf, other]), rest]

private theorem slot_toList : ∀ n < 3, (slot n).toList = ['\x7b', Nat.digitChar n, '\x7d'] := by decide
private theorem digitChar_ne : ∀ i < 3, ∀ n < 3, n ≠ i → Nat.digitChar i ≠ Nat.digitChar n := by decide
private theorem digitChar_ne_brace : ∀ n < 3, Nat.digitChar n ≠ '\x7b' := by decide

theorem replaceAll_slot {i n : Nat} (first : i < 3) (second : n < 3) (replacement tail : List Char) :
    Text.replaceAll (slot i).toList replacement ((slot n).toList ++ tail) =
      (if n = i then replacement else (slot n).toList) ++ Text.replaceAll (slot i).toList replacement tail := by
  rw [slot_toList i first, slot_toList n second]
  by_cases same : n = i
  · subst same
    rw [if_pos rfl]
    exact replaceAll_append_of_pattern tail
  · rw [if_neg same]
    exact replaceAll_append_of_other (digitChar_ne i first n second same)
      (digitChar_ne_brace n second) replacement tail

variable {isa : InstructionSet} {arity : Nat} {ps : List Piece}

private theorem replaceAll_of_free {n : Nat} (small : n < 3) {free : List Char} (plain : '\x7b' ∉ free)
    (replacement tail : List Char) :
    Text.replaceAll (slot n).toList replacement (free ++ tail) = free ++ Text.replaceAll
      (slot n).toList replacement tail := by
  rw [slot_toList n small]
  exact replaceAll_append_of_free plain tail

/-- One operand is put into its slots; the other slots are still open or hold no brace. -/
theorem replaceAll_pieces (few : arity ≤ 3) (apart : Piece.allApart isa arity ps) {i : Nat} (small : i < 3)
    {slots : Nat → List Char} (own : slots i = (slot i).toList)
    (others : ∀ n, n ≠ i → slots n = (slot n).toList ∨ '\x7b' ∉ slots n) (replacement : List Char) :
    Text.replaceAll (slot i).toList replacement (ps.flatMap (Piece.text slots)) =
      ps.flatMap (Piece.text fun n => if n = i then replacement else slots n) := by
  have blankFree : '\x7b' ∉ [' '] := by decide
  induction ps with
  | nil => rfl
  | cons p ps ih =>
    simp only [Piece.allApart, Bool.and_eq_true] at apart
    have rest := ih apart.2
    simp only [List.flatMap_cons]
    cases p with
    | token t =>
      simp only [Piece.apart, Bool.and_eq_true, decide_eq_true_eq] at apart
      exact (replaceAll_of_free small apart.1.1.2 _ _).trans (by rw [rest]; rfl)
    | blank => exact (replaceAll_of_free small blankFree _ _).trans (by rw [rest]; rfl)
    | slot n =>
      simp only [Piece.apart, Bool.and_eq_true, decide_eq_true_eq] at apart
      simp only [Piece.text]
      by_cases same : n = i
      · subst same
        rw [own, replaceAll_slot small small, rest]
      · rw [if_neg same]
        rcases others n same with still | plain
        · rw [still, replaceAll_slot small (by omega), if_neg same, rest]
        · rw [replaceAll_of_free small plain, rest]

/-- What the slots hold when the operands before `k` are in theirs and the others are still open. -/
def slotsUpTo (operands : List String) (k n : Nat) : List Char :=
  if n < k then (operands.getD n "").toList else (slot n).toList

private theorem replaceAll_slotsUpTo (few : arity ≤ 3) (apart : Piece.allApart isa arity ps) {operands : List String}
    (count : operands.length ≤ 3) (plain : ∀ o ∈ operands.dropLast, '\x7b' ∉ o.toList) {k : Nat}
    (here : k < operands.length) :
    Text.replaceAll (slot k).toList (operands.getD k "").toList (ps.flatMap (Piece.text (slotsUpTo operands k))) =
      ps.flatMap (Piece.text (slotsUpTo operands (k + 1))) := by
  have own : slotsUpTo operands k k = (slot k).toList := by simp [slotsUpTo]
  have others : ∀ n, n ≠ k → slotsUpTo operands k n = (slot n).toList ∨ '\x7b' ∉ slotsUpTo operands k n := by
    intro n other
    by_cases before : n < k
    · refine .inr ?_
      rw [slotsUpTo, if_pos before]
      refine plain _ (List.mem_iff_getElem.mpr ⟨n, by simp; omega, ?_⟩)
      simp [List.getD_eq_getElem?_getD, show n < operands.length by omega]
    · exact .inl (if_neg before)
  rw [replaceAll_pieces few apart (by omega) own others]
  congr 2
  funext n
  unfold slotsUpTo
  by_cases same : n = k
  · simp [same]
  · have iff : n < k + 1 ↔ n < k := by omega
    simp [same, iff]

/-- A line is filled piece by piece. Only the last operand may hold a brace, because no other is put
    in after it. -/
theorem fill_eq (few : arity ≤ 3) {line : String} (accepted : readable isa arity line) {operands : List String}
    (count : operands.length ≤ 3) (plain : ∀ o ∈ operands.dropLast, '\x7b' ∉ o.toList) :
    PseudoForm.fill operands line = (pieces isa line).flatMap (Piece.text (slotsUpTo operands operands.length)) := by
  simp only [readable, Bool.and_eq_true, decide_eq_true_eq] at accepted
  obtain ⟨spelled, apart⟩ := accepted
  -- The operands from the k-th on are put in one after the other.
  have more (todo : List String) (k : Nat) (remain : operands.drop k = todo) (inside : k ≤ operands.length) :
      (todo.zipIdx k).foldl (fun text o => Text.replaceAll (slot o.2).toList o.1.toList text)
        ((pieces isa line).flatMap (Piece.text (slotsUpTo operands k))) =
          (pieces isa line).flatMap (Piece.text (slotsUpTo operands operands.length)) := by
    induction todo generalizing k with
    | nil =>
      have all := List.drop_eq_nil_iff.mp remain
      rw [show k = operands.length by omega]
      rfl
    | cons o todo ih =>
      have here : k < operands.length := by
        have := congrArg List.length remain
        simp at this
        omega
      have current : operands.getD k "" = o := by
        have found : operands[k]? = some o := by
          rw [← List.head?_drop, remain]
          rfl
        rw [List.getD_eq_getElem?_getD, found]
        rfl
      have step := replaceAll_slotsUpTo few apart count plain here
      rw [current] at step
      rw [List.zipIdx_cons, List.foldl_cons]
      simp only [step]
      exact ih (k + 1) (by rw [← List.drop_drop, remain]; rfl) here
  have start : slotsUpTo operands 0 = fun n => (slot n).toList := by
    funext n
    simp [slotsUpTo]
  rw [PseudoForm.fill, spelled, ← start]
  exact more operands 0 rfl (Nat.zero_le _)

/-! ## Reading -/

theorem stops_of_pieces {slots : Nat → List Char} (stop : Piece.stops ps) :
    Stops (ps.flatMap (Piece.text slots)) := by
  match ps, stop with
  | [], _ => exact stops_nil
  | .blank :: ps, _ => exact stops_cons (by decide)
  | .token t :: ps, stop =>
    rw [List.flatMap_cons, Piece.text]
    simp only [Piece.stops] at stop
    cases raw : t.raw.toList with
    | nil => simp [raw] at stop
    | cons c cs => exact stops_cons (by simpa [raw] using stop)

/-- Pieces with the texts of token lists in their slots are read as the pieces' own tokens with these
    tokens between them. -/
theorem reads_pieces (apart : Piece.allApart isa arity ps) {arguments : List (List Token)}
    (code : ∀ a ∈ arguments, ∀ t ∈ a, t.kind.isCode) (spelled : ∀ a ∈ arguments, ∀ t ∈ a, t.spelled isa)
    {slots : Nat → List Char} (filled : ∀ n < arity, slots n = (Token.render (arguments.getD n [])).toList) :
    Reads isa (ps.flatMap (Piece.text slots)) (ps.flatMap (Piece.tokens arguments)) := by
  induction ps with
  | nil => exact Reads.nil
  | cons p ps ih =>
    simp only [Piece.allApart, Bool.and_eq_true] at apart
    have rest := ih apart.2
    cases p with
    | token t =>
      simp only [Piece.apart, Bool.and_eq_true, Bool.or_eq_true, Bool.not_eq_true', decide_eq_true_eq] at apart
      obtain ⟨⟨⟨⟨own, means⟩, -⟩, ends⟩, -⟩ := apart
      refine Reads.token own means (fun runs => stops_of_pieces ?_) rest
      rcases ends with still | ends
      · simp [runs] at still
      · exact ends
    | blank => exact Reads.blank (by decide) rest
    | slot n =>
      simp only [Piece.apart, Bool.and_eq_true, decide_eq_true_eq] at apart
      have member (t : Token) (inside : t ∈ arguments.getD n []) : ∃ a ∈ arguments, t ∈ a := by
        rw [List.getD_eq_getElem?_getD] at inside
        cases found : arguments[n]? with
        | none => simp [found] at inside
        | some a => exact ⟨a, List.mem_of_getElem? found, by simpa [found] using inside⟩
      simp only [List.flatMap_cons, Piece.text, Piece.tokens, filled n apart.1.1]
      refine Reads.render_append (fun t inside => ?_) (fun t inside => ?_) (stops_of_pieces apart.1.2) rest
      · obtain ⟨a, listed, own⟩ := member t inside
        exact code a listed t own
      · obtain ⟨a, listed, own⟩ := member t inside
        exact spelled a listed t own

/-- A line of tokens that stands at the place of `pos`. -/
def Token.produced (pos : Position) (depth : Nat) (ts : List Token) : List Token :=
  ts.map (retag pos depth) ++ [separator pos depth]

theorem Token.produced_cons (pos : Position) (depth : Nat) (t : Token) (ts : List Token) :
    produced pos depth (t :: ts) = t.retag pos depth :: produced pos depth ts := rfl

/-- The template lines of a form without their blanks. -/
def PseudoForm.shape (form : PseudoForm) : List (List Piece) :=
  form.template.map fun line => (pieces bisc line).filter (· ≠ .blank)

/-- The lines of tokens that a form stands for, given the tokens of its operands. -/
def PseudoForm.lines (form : PseudoForm) (arguments : List (List Token)) : List (List Token) :=
  form.shape.map (·.flatMap (Piece.tokens arguments))

/-- Operands that come back from a template as they went in: they mean something, are spelled as they
    are read, and none but the last has a brace in its text. -/
structure Fillable (arguments : List (List Token)) : Prop where
  code : ∀ a ∈ arguments, ∀ t ∈ a, t.kind.isCode
  spelled : ∀ a ∈ arguments, ∀ t ∈ a, t.spelled bisc
  plain : ∀ a ∈ arguments.dropLast, '\x7b' ∉ (Token.render a).toList

theorem flatMap_tokens_filter (arguments : List (List Token)) (ps : List Piece) :
    (ps.filter (· ≠ .blank)).flatMap (Piece.tokens arguments) = ps.flatMap (Piece.tokens arguments) := by
  induction ps with
  | nil => rfl
  | cons p ps ih => cases p <;> simp_all [Piece.tokens]

/-- What a form is unfolded to are its lines with the tokens of the operands in them. -/
theorem PseudoForm.unfold_eq {name : String} {form : PseudoForm} (listed : (name, form) ∈ pseudoTable)
    {arguments : List (List Token)} (count : arguments.length = form.signature.length) (fillable : Fillable arguments)
    (origin : Token) :
    form.unfold bisc (arguments.map Token.render) origin =
      (form.lines arguments).flatMap (Token.produced origin.pos (origin.depth + 1)) := by
  obtain ⟨few, accepted⟩ := readable_of_mem_pseudoTable listed
  have plain : ∀ o ∈ (arguments.map Token.render).dropLast, '\x7b' ∉ o.toList := by
    intro o member
    rw [← List.map_dropLast] at member
    obtain ⟨a, inside, rfl⟩ := List.mem_map.mp member
    exact fillable.plain a inside
  have filledSlots : ∀ n < form.signature.length,
      slotsUpTo (arguments.map Token.render) (arguments.map Token.render).length n =
        (Token.render (arguments.getD n [])).toList := by
    intro n inside
    rw [← count] at inside
    simp [slotsUpTo, List.getD_eq_getElem?_getD, inside]
  rw [unfold, lines, shape, List.map_map, List.flatMap_map, List.flatMap_def, List.flatMap_def]
  congr 1
  refine List.map_congr_left fun line member => ?_
  have accepted := accepted line member
  have filled := fill_eq few accepted (by simpa [count] using few) plain
  simp only [readable, Bool.and_eq_true] at accepted
  rw [Function.comp_apply, flatMap_tokens_filter, filled, tokenizeLine, List.map_append,
    reads_pieces accepted.2 fillable.code fillable.spelled filledSlots]
  rfl

end Bisc
