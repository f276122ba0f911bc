import Bisc.Proofs.Origin
import Bisc.Proofs.PseudoForms

/-!
Pseudo-instructions in a source. A statement whose arguments are in a form of its mnemonic adds the
real instructions that it is short for, all at the place of the mnemonic, and the next line is read
as if they had been written there. What a statement adds does not depend on how its operands are
spelled, only on what is read from them.
-/
namespace Bisc

/-- Labels and comments, with the records of the labels. -/
inductive Labels : List Token → List Item → Prop
  | nil : Labels [] []
  | comment {t : Token} {ts : List Token} {items : List Item} (kind : t.kind = .comment) (rest : Labels ts items) :
      Labels (t :: ts) items
  | label {name colon : Token} {ts : List Token} {items : List Item} (kind : name.kind = .identifier)
      (marked : colon.kind = .colon) (rest : Labels ts items) :
      Labels (name :: colon :: ts) ({ node := .label name.raw, pos := name.pos } :: items)

/-- A statement of a token list that is in a form of its mnemonic: its line, which may start with
    labels, and the tokens of its operands. -/
structure PseudoStatement (ts : List Token) where
  before : List (List Token)
  front : List Token
  labels : List Item
  mnemonic : Token
  rest : List Token
  after : List (List Token)
  form : PseudoForm
  arguments : List (List Token)
  line : Token.lines ts = before ++ (front ++ mnemonic :: rest) :: after
  labelled : Labels front labels
  pseudo : mnemonic.kind = .pseudoOp
  known : form ∈ bisc.forms mnemonic.name
  matched : splitOperands form.signature (Token.uncommented (Token.line rest)) = some arguments

/-- The records of instructions at a place. -/
def instructionItems (pos : Position) (is : List Instruction) : List Item :=
  is.map fun i => { node := .instruction i, pos }

/-- The steps that add items. -/
def Run.adding (items : List Item) : Run Step := ⟨items.map .item, none⟩

theorem readLine_labels {isa : InstructionSet} {readLines : List Token → Run Step}
    {front : List Token} {labels : List Item}
    (labelled : Labels front labels) (rest : List Token) :
    readLine isa readLines (front ++ rest) = Run.adding labels ++ readLine isa readLines rest := by
  induction labelled with
  | nil => rfl
  | comment kind _ ih => rw [List.cons_append, readLine_comment _ kind, ih]
  | label kind marked _ ih =>
    rw [List.cons_append, List.cons_append, readLine_label _ kind marked, ih, ← Run.cons_append]
    rfl

theorem mem_pseudoTable {name : String} {form : PseudoForm} (known : form ∈ bisc.forms name) :
    (name, form) ∈ pseudoTable := by
  obtain ⟨entry, member, rfl⟩ := List.mem_map.mp known
  obtain ⟨listed, same⟩ := List.mem_filter.mp member
  rw [← beq_iff_eq.mp same]
  exact listed

namespace PseudoStatement

variable {ts : List Token} (s : PseudoStatement ts)

/-- The statement is read as its meaning, unless it is too deep to be unfolded. -/
theorem unfolds (spelled : ∀ t ∈ ts, t.WellSpelled bisc) :
    ∃ result, Means s.mnemonic.name s.mnemonic.pos s.form.signature s.arguments result ∧
      Unfolds (s.mnemonic.depth + 2) s.mnemonic.pos
        (readPseudo bisc (readTokens bisc maxDepth) s.mnemonic s.rest) result := by
  have inside : ∀ u ∈ s.rest, u ∈ ts := by
    intro u member
    rw [← lines_flatten ts, s.line]
    simp [member]
  exact unfolds_pseudo (mem_pseudoTable s.known) s.matched (fun u member => spelled u (inside u member)) 61

/-- The statement is read between the lines before it and those after it. -/
theorem parse_eq : parse bisc ts = programOf (steps bisc s.before.flatten ++
    (Run.adding s.labels ++ readPseudo bisc (readTokens bisc maxDepth) s.mnemonic s.rest) ++
      steps bisc s.after.flatten) := by
  rw [parse_eq_programOf, steps_split s.line, readLine_labels s.labelled, readLine_pseudoOp _ s.pseudo]

end PseudoStatement

private theorem programOf_congr {r s t : Run Step} (same : r.edits = s.edits) (u : Run Step) :
    programOf (t ++ r ++ u) = programOf (t ++ s ++ u) := by
  rw [← programOf_edits, ← programOf_edits (t ++ s ++ u)]
  simp only [Run.edits_append, same]

private theorem adding_emitted (labels : List Item) (pos : Position) (is : List Instruction) :
    Run.adding labels ++ emitted pos (.ok is) = Run.adding (labels ++ instructionItems pos is) := by
  change (⟨_ ++ _, none⟩ : Run Step) = _
  simp [Run.adding, instructionItems, emitted]

/-- The instructions stand in the place of the statement, after its labels. -/
theorem PseudoStatement.parse_of_emitted {ts : List Token} (s : PseudoStatement ts) {is : List Instruction}
    (read : (readPseudo bisc (readTokens bisc maxDepth) s.mnemonic s.rest).edits = emitted s.mnemonic.pos (.ok is)) :
    parse bisc ts = programOf (steps bisc s.before.flatten ++
      Run.adding (s.labels ++ instructionItems s.mnemonic.pos is) ++ steps bisc s.after.flatten) := by
  have added : (Run.adding s.labels ++ readPseudo bisc (readTokens bisc maxDepth) s.mnemonic s.rest).edits =
      (Run.adding (s.labels ++ instructionItems s.mnemonic.pos is)).edits := by
    rw [Run.edits_append, read, ← adding_emitted, Run.edits_append, emitted_edits]
  rw [s.parse_eq, programOf_congr added]

/-- Tokens of a source stay spelled as they are read. -/
theorem wellSpelled_of_preprocess {source : String} {ts : List Token}
    (preprocessed : preprocess (tokenize bisc source) = .ok ts) :
    ∀ t ∈ ts, t.WellSpelled bisc :=
  @forall_of_preprocess (Token.WellSpelled bisc)
    (fun _ op depth own _ => Token.wellSpelled_retag op.pos depth own) _ _
    (fun _ => wellSpelled_of_tokenize) preprocessed

/-- A statement in a form of its mnemonic adds exactly the instructions that it is short for, unless a
    slice among its operands is not one or two bytes of a 32-bit value. -/
theorem expansion_exact {source : String} {ts : List Token}
    (preprocessed : preprocess (tokenize bisc source) = .ok ts)
    (s : PseudoStatement ts) (shallow : s.mnemonic.depth ≤ 61) :
    match readOperands s.mnemonic.pos s.form.signature s.arguments with
    | .error e =>
      (∃ symbol first last, e.cause = .outOfRange (.slice symbol first last) ∧
        (first > last ∨ last > 3 ∨ last.toNat - first.toNat > 1)) ∧
      parse bisc ts = programOf (steps bisc s.before.flatten ++ .fail ⟨e.cause, s.mnemonic.pos⟩)
    | .ok operands => ∃ is, meaning? s.mnemonic.name operands = some is ∧
      parse bisc ts = programOf (steps bisc s.before.flatten ++
        Run.adding (s.labels ++ instructionItems s.mnemonic.pos is) ++ steps bisc s.after.flatten) := by
  obtain ⟨result, means, unfolds⟩ := s.unfolds (wellSpelled_of_preprocess preprocessed)
  have read : (readPseudo bisc (readTokens bisc maxDepth) s.mnemonic s.rest).edits = emitted s.mnemonic.pos result :=
    unfolds.resolve_right fun ⟨deep, _⟩ => by
      simp only [maxDepth] at deep
      omega
  cases result with
  | error fault =>
    obtain ⟨⟨symbol, first, last, rfl, bad⟩, pos', refused⟩ := means
    rw [refused]
    refine ⟨⟨symbol, first, last, rfl, bad⟩, ?_⟩
    have failed : (Run.adding s.labels ++ readPseudo bisc (readTokens bisc maxDepth) s.mnemonic s.rest).failure =
        some ⟨.outOfRange (.slice symbol first last), s.mnemonic.pos⟩ := congrArg Run.failure read
    rw [s.parse_eq, programOf_failure _ _ _ failed]
  | ok is =>
    obtain ⟨operands, accepted, meaning⟩ := means
    rw [accepted]
    exact ⟨is, meaning, s.parse_of_emitted read⟩

/-- The tokens of a jump to its own label. -/
def selfJump : List Token := [⟨.identifier, "a", none, ⟨1, 1⟩, 0⟩, ⟨.colon, ":", none, ⟨1, 2⟩, 0⟩,
  ⟨.pseudoOp, "goto", none, ⟨1, 4⟩, 0⟩, ⟨.identifier, "a", none, ⟨1, 9⟩, 0⟩]

/-- The jump as a statement after its label. -/
def selfJumpStatement : PseudoStatement selfJump where
  before := []
  front := selfJump.take 2
  labels := [⟨.label "a", ⟨1, 1⟩, 0⟩]
  mnemonic := ⟨.pseudoOp, "goto", none, ⟨1, 4⟩, 0⟩
  rest := selfJump.drop 3
  after := []
  form := ⟨[.immediate], [s!"jmp {slot 0}"]⟩
  arguments := [selfJump.drop 3]
  line := by decide
  labelled := .label rfl rfl .nil
  pseudo := rfl
  known := by decide
  matched := by decide

theorem expansion_exact_selfJump : preprocess (tokenize bisc "a: goto a") = .ok selfJump ∧
    parse bisc selfJump = programOf (steps bisc [] ++ Run.adding (⟨.label "a", ⟨1, 1⟩, 0⟩ ::
      instructionItems ⟨1, 4⟩ (loadConstant 1 (.symbol "a") ++ [⟨0x0A, .reg 1⟩])) ++ steps bisc []) := by
  have tokens : tokenize bisc "a: goto a" = selfJump := by decide
  have preprocessed : preprocess (tokenize bisc "a: goto a") = .ok selfJump := by
    rw [tokens]
    exact preprocess_plain (by decide)
  obtain ⟨is, meaning, parsed⟩ := expansion_exact preprocessed selfJumpStatement (by decide)
  have name : selfJumpStatement.mnemonic.name = "goto" := by decide
  have jump : meaning? "goto" [.constant (.symbol "a")] =
      some (loadConstant 1 (.symbol "a") ++ [⟨0x0A, .reg 1⟩]) := rfl
  rw [name] at meaning
  cases jump.symm.trans meaning
  exact ⟨preprocessed, parsed⟩

end Bisc
