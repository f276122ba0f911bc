import Bisc.Proofs.CommentedDefinitions

/-!
Expanded lists stay as they are. What is left of invocations after an expansion is on lines of
constants' definitions, which pass untouched. A definition line may have come together from what
invocations stood for, so that a second expansion takes other lines for definitions than the first;
but such a line ends where its line ends, and no invocation comes out of one.
-/
namespace Bisc

/-- After these tokens, on the line that they end with, the definition of a constant has begun. -/
def InDefinitionLine (before : List Token) : Prop :=
  ∃ earlier dot word later, before = earlier ++ dot :: word :: later ∧ dot.kind = .directive ∧
    (word.isWord ∧ word.name = "define") ∧ ∀ t ∈ later, t.isSeparator = false

/-- Every invocation is on the line of a constant's definition. -/
def Settled (ts : List Token) : Prop :=
  ∀ before op after, ts = before ++ op :: after → op.kind = .macroOp → InDefinitionLine before

theorem directiveAt?_eq_define {dot word : Token} {ts : List Token} :
    directiveAt? (dot :: word :: ts) = some "define" ↔ dot.kind = .directive ∧ word.isWord ∧
    word.name = "define" := by
  rw [directiveAt?]
  split
  · rename_i both
    simp [both]
  · rename_i neither
    simp only [reduceCtorEq, false_iff]
    rintro ⟨directive, spelled, -⟩
    exact neither ⟨directive, spelled⟩

/-! ## Settled lists -/

theorem InDefinitionLine.append_left {before : List Token} (inside : InDefinitionLine before) (ts : List Token) :
    InDefinitionLine (ts ++ before) := by
  obtain ⟨earlier, dot, word, later, rfl, directive, define, inline⟩ := inside
  exact ⟨ts ++ earlier, dot, word, later, by simp, directive, define, inline⟩

/-- A definition that has begun before a separator is not on the line after it. -/
theorem InDefinitionLine.after_separator {ts before : List Token} {stop : Token} (ends : stop.isSeparator)
    (inside : InDefinitionLine (ts ++ stop :: before)) : InDefinitionLine before := by
  obtain ⟨earlier, dot, word, later, split, directive, ⟨spelled, named⟩, inline⟩ := inside
  have apart : stop ∉ dot :: word :: later := by
    intro member
    rcases List.mem_cons.mp member with rfl | member
    · simp [Token.isSeparator, directive] at ends
    · rcases List.mem_cons.mp member with rfl | member
      · simp [Token.isSeparator_of_isWord spelled] at ends
      · simp [inline stop member] at ends
  rcases List.append_eq_append_iff.mp split with ⟨more, rfl, behind⟩ | ⟨more, rfl, behind⟩
  · cases more with
    | nil =>
      rw [List.nil_append] at behind
      exact absurd (behind ▸ List.mem_cons_self) apart
    | cons first more =>
      cases behind
      exact ⟨more, dot, word, later, rfl, directive, ⟨spelled, named⟩, inline⟩
  · exact absurd (behind ▸ List.mem_append_right more List.mem_cons_self) apart

theorem settled_of_plain {ts : List Token} (plain : ∀ t ∈ ts, t.kind ≠ .macroOp) : Settled ts := by
  rintro before op after rfl operator
  exact absurd operator (plain op (by simp))

theorem Settled.append {ts us : List Token} (first : Settled ts) (second : Settled us) : Settled (ts ++ us) := by
  intro before op after split operator
  rcases List.append_eq_append_iff.mp split with ⟨more, rfl, behind⟩ | ⟨more, rfl, behind⟩
  · exact (second more op after behind operator).append_left ts
  · cases more with
    | nil =>
      have inside := second [] op after (by simpa using behind.symm) operator
      simpa using inside.append_left before
    | cons here more =>
      cases behind
      exact first before op more rfl operator

/-- A definition line is settled as it is. -/
theorem settled_definition {t : Token} {rest : List Token} (define : directiveAt? (t :: rest) = some "define") :
    Settled (t :: Token.line rest) := by
  obtain ⟨-, word, us, rfl, spelled⟩ := of_directiveAt? define
  obtain ⟨directive, -, named⟩ := directiveAt?_eq_define.mp define
  have line : Token.line (word :: us) = word :: Token.line us := by
    simp [Token.line, Token.isSeparator_of_isWord spelled]
  have inline : ∀ u ∈ Token.line us, u.isSeparator = false :=
    fun u member => by simpa using List.mem_takeWhile_imp member
  rw [line]
  intro before op after split operator
  rcases before with _ | ⟨first, _ | ⟨second, later⟩⟩
  · cases split
    simp [directive] at operator
  · cases split
    simp [Token.isWord, operator, TokenKind.isWord] at spelled
  · simp only [List.cons_append, List.cons.injEq] at split
    obtain ⟨rfl, rfl, behind⟩ := split
    refine ⟨[], t, word, later, rfl, directive, ⟨spelled, named⟩, fun u member => inline u ?_⟩
    rw [behind]
    exact List.mem_append_left _ member

/-- Behind a token that begins no definition, a list is settled by itself. -/
theorem Settled.tail {t : Token} {rest : List Token} (settled : Settled (t :: rest))
    (undefined : directiveAt? (t :: rest) ≠ some "define") : Settled rest := by
  rintro before op after rfl operator
  obtain ⟨earlier, dot, word, later, split, directive, ⟨spelled, named⟩, inline⟩ :=
    settled (t :: before) op after rfl operator
  cases earlier with
  | nil =>
    cases split
    exact absurd (directiveAt?_eq_define.mpr ⟨directive, spelled, named⟩) undefined
  | cons first earlier =>
    cases split
    exact ⟨earlier, dot, word, later, rfl, directive, ⟨spelled, named⟩, inline⟩

/-- Behind a separator, a list is settled by itself. -/
theorem Settled.after_separator {ts us : List Token} {stop : Token} (ends : stop.isSeparator)
    (settled : Settled (ts ++ stop :: us)) : Settled us := by
  rintro before op after rfl operator
  exact (settled (ts ++ stop :: before) op after (by simp) operator).after_separator ends

theorem Settled.after_line {t : Token} {rest : List Token} (settled : Settled (t :: rest)) :
    Settled ((Token.afterLine rest).drop 1) := by
  rw [← Token.line_append_afterLine rest, ← List.cons_append] at settled
  cases after : Token.afterLine rest with
  | nil => exact settled_of_plain (by simp)
  | cons stop us =>
    rw [after] at settled
    exact settled.after_separator (Token.afterLine_head after)

/-! ## Expansion -/

/-- An expansion leaves a settled list. -/
theorem settled_of_expand {defs : Definitions} {ts out : List Token}
    (expanded : expand defs ts = .ok out) : Settled out := by
  induction ts using expand.induct defs generalizing out with
  | case1 =>
    rw [expand] at expanded
    cases expanded
    exact settled_of_plain (by simp)
  | case2 t rest define after =>
    rename_i ih
    rw [expand_define define] at expanded
    obtain ⟨tail, later, rfl⟩ := map_eq_ok.mp expanded
    have stop : ∀ u ∈ (Token.afterLine rest).take 1, u.kind ≠ .macroOp := by
      intro u member
      cases found : Token.afterLine rest with
      | nil => simp [found] at member
      | cons v vs =>
        rw [found, List.take_succ_cons, List.take_zero, List.mem_singleton] at member
        have ends := Token.afterLine_head found
        rintro operator
        simp [Token.isSeparator, ← member, operator] at ends
    exact ((settled_definition define).append (settled_of_plain stop)).append (ih later)
  | case3 t rest define token ih =>
    rw [expand_token define token] at expanded
    obtain ⟨tail, later, rfl⟩ := map_eq_ok.mp expanded
    exact @Settled.append [t] tail (settled_of_plain (by simpa using token)) (ih later)
  | case4 t rest define operator e refused =>
    rw [expand_error (by simpa using operator) refused] at expanded
    cases expanded
  | case5 t rest define operator produced after invoked ih =>
    rw [expand_invocation (by simpa using operator) invoked] at expanded
    exact ih expanded

/-- A settled list has nothing to expand, whatever is defined. -/
theorem expand_of_settled {defs : Definitions} {ts : List Token} (settled : Settled ts) :
    expand defs ts = .ok ts := by
  have unheaded {t : Token} {rest : List Token} (settled : Settled (t :: rest)) : t.kind ≠ .macroOp := by
    intro operator
    obtain ⟨earlier, dot, word, later, split, -⟩ := settled [] t rest rfl operator
    simp at split
  induction ts using expand.induct defs with
  | case1 => rw [expand]
  | case2 t rest define after =>
    rename_i ih
    have later : expand defs ((Token.afterLine rest).drop 1) = .ok ((Token.afterLine rest).drop 1) :=
      ih settled.after_line
    rw [expand_define define, later]
    simp only [Except.map, List.append_assoc, List.take_append_drop, List.cons_append, Token.line_append_afterLine]
  | case3 t rest define token ih =>
    rw [expand_token define token, ih (settled.tail define)]
    rfl
  | case4 t rest define operator => exact absurd (by simpa using operator) (unheaded settled)
  | case5 t rest define operator => exact absurd (by simpa using operator) (unheaded settled)

/-- Expansion reaches a fixed point: every invocation that it leaves is on the line of a constant's
    definition, and another expansion, under any definitions, changes nothing. -/
theorem expansion_settles {defs : Definitions} {ts out : List Token} (expanded : expand defs ts = .ok out) :
    Settled out ∧ ∀ defs', expand defs' out = .ok out := by
  have settled := settled_of_expand expanded
  exact ⟨settled, fun defs' => expand_of_settled settled⟩

private def piecedTogether : List Token := [
  ⟨.directive, ".", none, ⟨1, 1⟩, 0⟩, ⟨.macroOp, "%", none, ⟨1, 2⟩, 0⟩, ⟨.identifier, "d", none, ⟨1, 3⟩, 0⟩,
  ⟨.directive, ".", none, ⟨1, 5⟩, 0⟩, ⟨.identifier, "DEFINE", none, ⟨1, 6⟩, 0⟩, ⟨.macroOp, "%", none, ⟨1, 13⟩, 0⟩,
  ⟨.identifier, "e", none, ⟨1, 14⟩, 0⟩, Token.separator ⟨1, 15⟩ 0]

private def halves : Definitions := ⟨[("d", [⟨.identifier, "define", none, ⟨9, 9⟩, 0⟩])], []⟩

/-- The first expansion takes the second half of the line for a definition, the second one the whole line. -/
theorem expansion_settles_piecedTogether : ∃ out, expand halves piecedTogether = .ok out ∧ Settled out ∧
    directiveAt? piecedTogether = none ∧ directiveAt? out = some "define" ∧ (∃ op ∈ out, op.kind = .macroOp) ∧
    expand ⟨[], []⟩ out = .ok out := by
  let word : Token := ⟨.identifier, "define", none, ⟨1, 2⟩, 1⟩
  have half : expand halves (piecedTogether.drop 3) = .ok (piecedTogether.drop 3) := by
    refine (expand_define (by decide +kernel)).trans ?_
    exact congrArg _ (by rw [expand] : expand halves [] = .ok [])
  have named : expand halves (piecedTogether.drop 1) = .ok (word :: piecedTogether.drop 3) := by
    have found : invoke halves ⟨.macroOp, "%", none, ⟨1, 2⟩, 0⟩ (piecedTogether.drop 2) =
      .ok ([⟨.identifier, "define", none, ⟨9, 9⟩, 0⟩], piecedTogether.drop 3) := rfl
    refine (expand_invocation rfl found).trans ?_
    refine (expand_token (by decide +kernel) (by decide)).trans ?_
    exact congrArg _ half
  have expanded : expand halves piecedTogether =
      .ok (⟨.directive, ".", none, ⟨1, 1⟩, 0⟩ :: word :: piecedTogether.drop 3) := by
    refine (expand_token (by decide +kernel) (by decide)).trans ?_
    exact congrArg _ named
  obtain ⟨settled, again⟩ := expansion_settles expanded
  exact ⟨_, expanded, settled, by decide, by decide +kernel, by decide, again _⟩

end Bisc
