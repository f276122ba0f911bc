import Bisc.Proofs.NestingDepth

/-!
Templates by tokens. A template is filled as a text, one operand after the other, and the text is
read. What comes out is what one would get without any text: the tokens of the template, with the
tokens of the operands in place of the placeholders.
-/
namespace Bisc

/-- A token as they are read, wherever it stands and whatever produced it: one of a text, or the end of a line. -/
inductive Token.Lexed : Token → Prop
  | read {text : List Char} {number : Nat} {t : Token} (member : t ∈ tokenizeLine bisc text number)
      (pos : Position) (depth : Nat) :
      Lexed (t.retag pos depth)
  | separator (pos : Position) (depth : Nat) : Lexed (separator pos depth)

/-- The first of some operands whose placeholder is one that is looked for. -/
def placeholder? (operands : Nat) (sought : String → Bool) : Option Nat :=
  (List.range operands).find? fun n => sought (slot n)

/-- The tokens of an operand in place of its placeholder; any other token stays. -/
def Token.instantiate (arguments : List (List Token)) (t : Token) : List Token :=
  match placeholder? arguments.length (t.raw == ·) with
  | some n => arguments.getD n []
  | none => [t]

/-- The tokens of a template line with those of the operands in place of their placeholders. -/
def instantiateLine (arguments : List (List Token)) (line : String) : List Token :=
  (tokenizeLine bisc line.toList 1).flatMap (Token.instantiate arguments)

/-- The texts of operands in place of their placeholders, all in one pass from the left, after
    `skip` characters that belong to the last placeholder found. What was put in is not looked at.
    -/
def fillFrom (operands : List String) : Nat → List Char → List Char
  | _, [] => []
  | skip + 1, _ :: cs => fillFrom operands skip cs
  | 0, c :: cs =>
    match placeholder? operands.length fun mark => mark.toList.isPrefixOf (c :: cs) with
    | some n => (operands.getD n "").toList ++ fillFrom operands ((slot n).toList.length - 1) cs
    | none => c :: fillFrom operands 0 cs

theorem Token.Lexed.wellSpelled {t : Token} (lexed : t.Lexed) : t.WellSpelled bisc := by
  cases lexed with
  | read member pos depth => exact Token.wellSpelled_retag pos depth (wellSpelled_of_tokensFrom member)
  | separator pos depth =>
    intro code
    cases code

theorem lexed_of_tokenize {source : String} {t : Token} (member : t ∈ tokenize bisc source) : t.Lexed := by
  obtain ⟨line, text, -, inside | rfl⟩ := mem_tokenize member
  · exact .read inside t.pos t.depth
  · exact .separator _ _

/-! ## Placeholders -/

/-- A text looks like the placeholder of one operand only, if it looks like one. -/
theorem placeholder_found {operands n : Nat} (inside : n < operands) {sought : String → Bool}
    (only : ∀ i < operands, sought (slot i) = (i == n)) : placeholder? operands sought = some n := by
  rw [placeholder?, List.find?_range_eq_some]
  refine ⟨by simp [only n inside], List.mem_range.mpr inside, fun i before => ?_⟩
  rw [only i (by omega)]
  simp [Nat.ne_of_lt before]

theorem placeholder_none {operands : Nat} {sought : String → Bool} (none : ∀ i < operands, sought (slot i) = false) :
    placeholder? operands sought = .none := by
  rw [placeholder?, List.find?_range_eq_none]
  intro i inside
  simp [none i inside]

theorem slotIndex_slot {text : String} {n : Nat} (found : slotIndex? text = some n) : text = slot n ∧ n < 3 := by
  have same := List.find?_some found
  have member := List.mem_of_find?_eq_some found
  exact ⟨by simpa using same, by simp at member; omega⟩

/-- The placeholders of up to three operands are three characters long, and none begins with another. -/
theorem slot_apart : ∀ n < 3, ∀ i < 3, (slot n == slot i) = (i == n) ∧ (slot i).toList.length = 3 ∧
    (slot i).toList.isPrefixOf (slot n).toList = (i == n) := by decide

/-! ## One pass over the text -/

section Fill

variable {operands : List String}

theorem fillFrom_skip (word tail : List Char) :
    fillFrom operands word.length (word ++ tail) = fillFrom operands 0 tail := by
  induction word with
  | nil => rfl
  | cons c word ih => simpa [fillFrom] using ih

/-- Text without a brace has no placeholder in it. -/
theorem fillFrom_free {free : List Char} (plain : '\x7b' ∉ free) (tail : List Char) :
    fillFrom operands 0 (free ++ tail) = free ++ fillFrom operands 0 tail := by
  induction free with
  | nil => rfl
  | cons c free ih =>
    simp only [List.mem_cons, not_or] at plain
    have none : placeholder? operands.length (fun mark => mark.toList.isPrefixOf (c :: (free ++ tail))) = .none := by
      refine placeholder_none fun i _ => ?_
      simp [slot, List.isPrefixOf, plain.1]
    rw [List.cons_append, fillFrom, none, ih plain.2, List.cons_append]

theorem fillFrom_slot (few : operands.length ≤ 3) {n : Nat} (inside : n < operands.length) (tail : List Char) :
    fillFrom operands 0 ((slot n).toList ++ tail) = (operands.getD n "").toList ++ fillFrom operands 0 tail := by
  have found : placeholder? operands.length (fun mark => mark.toList.isPrefixOf ((slot n).toList ++ tail)) =
      some n := by
    refine placeholder_found inside fun i small => ?_
    obtain ⟨-, long, own⟩ := slot_apart n (by omega) i (by omega)
    obtain ⟨-, long', -⟩ := slot_apart n (by omega) n (by omega)
    rw [← own, Bool.eq_iff_iff, List.isPrefixOf_iff_prefix, List.isPrefixOf_iff_prefix]
    constructor
    · intro before
      exact List.prefix_of_prefix_length_le before (List.prefix_append _ _) (by omega)
    · intro before
      exact before.trans (List.prefix_append _ _)
  cases mark : (slot n).toList with
  | nil => simp [slot] at mark
  | cons c cs =>
    rw [mark, List.cons_append] at found
    rw [List.cons_append, fillFrom, found]
    simp only [mark, List.length_cons, Nat.add_sub_cancel, fillFrom_skip]

/-- Pieces are filled in one pass, whatever is in the operands. -/
theorem fillFrom_pieces (few : operands.length ≤ 3) {isa : InstructionSet} {ps : List Piece}
    (apart : Piece.allApart isa operands.length ps) :
    fillFrom operands 0 (ps.flatMap (Piece.text fun n => (slot n).toList)) =
      ps.flatMap (Piece.text (slotsUpTo operands operands.length)) := by
  induction ps with
  | nil => rfl
  | cons p ps ih =>
    simp only [Piece.allApart, Bool.and_eq_true] at apart
    rw [List.flatMap_cons, List.flatMap_cons, ← ih apart.2]
    cases p with
    | token t =>
      simp only [Piece.apart, Bool.and_eq_true, decide_eq_true_eq] at apart
      exact fillFrom_free apart.1.1.2 _
    | blank => exact fillFrom_free (by decide) _
    | slot n =>
      simp only [Piece.apart, Bool.and_eq_true, decide_eq_true_eq] at apart
      rw [Piece.text, Piece.text, slotsUpTo, if_pos apart.1.1]
      exact fillFrom_slot few apart.1.1 _

/-- Where only the last operand may hold a brace, putting in one operand after the other is putting in all at once. -/
theorem fill_eq_fillFrom {isa : InstructionSet} {line : String} (accepted : readable isa operands.length line)
    (few : operands.length ≤ 3) (plain : ∀ o ∈ operands.dropLast, '\x7b' ∉ o.toList) :
    PseudoForm.fill operands line = fillFrom operands 0 line.toList := by
  rw [fill_eq few accepted few plain]
  simp only [readable, Bool.and_eq_true, decide_eq_true_eq] at accepted
  obtain ⟨spelled, apart⟩ := accepted
  rw [spelled, fillFrom_pieces few apart]

end Fill

/-! ## Tokens without text -/

theorem allApart_blanks (isa : InstructionSet) (arity : Nat) (blanks : Nat) (ps : List Piece) :
    Piece.allApart isa arity (List.replicate blanks .blank ++ ps) = Piece.allApart isa arity ps := by
  induction blanks with
  | zero => rfl
  | succ blanks ih => simpa [List.replicate_succ, Piece.allApart, Piece.apart] using ih

section Instantiate

variable {isa : InstructionSet} {arguments : List (List Token)} (few : arguments.length ≤ 3)
include few

theorem instantiate_slot {t : Token} {n : Nat} (named : slotIndex? t.raw = some n) (inside : n < arguments.length) :
    t.instantiate arguments = arguments.getD n [] := by
  obtain ⟨same, small⟩ := slotIndex_slot named
  have found : placeholder? arguments.length (t.raw == ·) = some n :=
    placeholder_found inside fun i other => by rw [same, (slot_apart n small i (by omega)).1]
  rw [Token.instantiate, found]

theorem instantiate_other {t : Token} (unnamed : slotIndex? t.raw = none) : t.instantiate arguments = [t] := by
  have none : placeholder? arguments.length (t.raw == ·) = .none := by
    refine placeholder_none fun i inside => ?_
    have all := List.find?_eq_none.mp unnamed i (by simp; omega)
    simpa using all
  rw [Token.instantiate, none]

/-- The pieces of tokens stand for the tokens with the operands in place of their placeholders. -/
theorem instantiate_pieces (pos : Position) (depth column : Nat) {ts : List Token}
    (apart : Piece.allApart isa arguments.length (piecesFrom column ts)) :
    ((piecesFrom column ts).flatMap (Piece.tokens arguments)).map (Token.retag pos depth) =
      (ts.flatMap (Token.instantiate arguments)).map (Token.retag pos depth) := by
  induction ts generalizing column with
  | nil => rfl
  | cons t ts ih =>
    have blanks : (List.replicate (t.pos.column - column) Piece.blank).flatMap (Piece.tokens arguments) = [] := by
      rw [List.flatMap_eq_nil_iff]
      intro p member
      rw [List.eq_of_mem_replicate member]
      rfl
    rw [piecesFrom, allApart_blanks, Piece.allApart, Bool.and_eq_true] at apart
    rw [piecesFrom, List.flatMap_append, blanks, List.nil_append, List.flatMap_cons,
      List.flatMap_cons, List.map_append,
      List.map_append, ih _ apart.2]
    refine congrArg (· ++ _) ?_
    cases named : slotIndex? t.raw with
    | none =>
      rw [instantiate_other few named]
      rfl
    | some n =>
      simp only [named, Piece.apart, Bool.and_eq_true, decide_eq_true_eq] at apart
      rw [instantiate_slot few named apart.1.1]
      rfl

end Instantiate

/-- A form of the table stands for the tokens of its lines with those of the operands in them. -/
theorem PseudoForm.unfold_eq_instantiate {name : String} {form : PseudoForm} (listed : (name, form) ∈ pseudoTable)
    {arguments : List (List Token)} (count : arguments.length = form.signature.length) (fillable : Fillable arguments)
    (origin : Token) : form.unfold bisc (arguments.map Token.render) origin =
      form.template.flatMap fun line =>
        Token.produced origin.pos (origin.depth + 1) (instantiateLine arguments line) := by
  obtain ⟨few, accepted⟩ := readable_of_mem_pseudoTable listed
  rw [unfold_eq listed count fillable, lines, shape, List.map_map, List.flatMap_map,
    List.flatMap_def, List.flatMap_def]
  refine congrArg List.flatten (List.map_congr_left fun line member => ?_)
  have apart := accepted line member
  simp only [readable, Bool.and_eq_true, ← count] at apart few
  rw [Function.comp_apply, flatMap_tokens_filter, Token.produced, Token.produced, instantiateLine,
    ← instantiate_pieces few _ _ 1 apart.2]
  rfl

/-- Arguments in a form of the table come back from its template as they went in. They are operands
    of its signature, with a comma between neighbours; filling a line is filling all of its
    placeholders at once; and the form stands for the tokens of its lines with the tokens of the
    operands in place of the placeholders, and a separator after each line, all at the place of the
    mnemonic and one level deeper. -/
theorem unfold_by_tokens {name : String} {form : PseudoForm} (listed : (name, form) ∈ pseudoTable)
    {forms : List PseudoForm}
    {arguments : List Token} {operands : List String} (found : matchForm? forms arguments = some (form, operands))
    (lexed : ∀ t ∈ arguments, t.Lexed) (origin : Token) :
    ∃ parts values, Listed IsImmediate form.signature arguments parts values ∧
      operands = parts.map (fun part => " ".intercalate (part.map Token.raw)) ∧
      (∀ line ∈ form.template, PseudoForm.fill operands line = fillFrom operands 0 line.toList) ∧
      form.unfold bisc operands origin =
        form.template.flatMap fun line =>
          Token.produced origin.pos (origin.depth + 1) (instantiateLine parts line) := by
  obtain ⟨-, parts, split, rfl⟩ := split_of_matchForm? found
  obtain ⟨values, grammar⟩ := listed_of_split split
  obtain ⟨operands, fillable⟩ := fillable_of_split listed split fun t member => (lexed t member).wellSpelled
  have count := length_of_areOperands operands
  refine ⟨parts, values, grammar, ?_, ?_, PseudoForm.unfold_eq_instantiate listed count fillable origin⟩
  · exact List.map_congr_left fun part own => render_inline (inline_of_listed grammar own)
  · intro line member
    obtain ⟨few, accepted⟩ := readable_of_mem_pseudoTable listed
    have same : (parts.map Token.render).length = form.signature.length := by rw [List.length_map, count]
    refine fill_eq_fillFrom (same ▸ accepted line member) (same ▸ few) fun o inside => ?_
    rw [← List.map_dropLast] at inside
    obtain ⟨part, own, rfl⟩ := List.mem_map.mp inside
    exact fillable.plain part own

/-- The operands of a load, as they come from a text in which they stand the other way round. The last is a brace. -/
def braceOperands : List Token := ((tokenize bisc "'\x7b', r1").take 3).reverse

/-- The form of a load. -/
def loadForm : PseudoForm := ⟨[.register, .immediate], [s!"lli {slot 0}, .lo {slot 1}", s!"lui {slot 0}, {slot 1}"]⟩

/-- A brace is put into both lines of a load, and is still a brace. -/
theorem unfold_by_tokens_brace :
    matchForm? (bisc.forms "li") braceOperands = some (loadForm, ["r1", "'\x7b'"]) ∧
    loadForm.unfold bisc ["r1", "'\x7b'"] ⟨.pseudoOp, "li", none, ⟨7, 3⟩, 1⟩ = loadForm.template.flatMap fun line =>
      Token.produced ⟨7, 3⟩ 2 (instantiateLine [braceOperands.take 1, braceOperands.drop 2] line) := by
  have found : matchForm? (bisc.forms "li") braceOperands = some (loadForm, ["r1", "'\x7b'"]) := by cbv
  have lexed : ∀ t ∈ braceOperands, t.Lexed :=
    fun t member => lexed_of_tokenize (List.mem_of_mem_take (List.mem_reverse.mp member))
  obtain ⟨parts, values, listed, -, -, unfolded⟩ :=
    unfold_by_tokens (by decide : ("li", loadForm) ∈ pseudoTable) found lexed
    ⟨.pseudoOp, "li", none, ⟨7, 3⟩, 1⟩
  have split : splitOperands loadForm.signature braceOperands = some [braceOperands.take 1,
    braceOperands.drop 2] := by cbv
  cases (split_of_listed listed).symm.trans split
  exact ⟨found, unfolded⟩

end Bisc
