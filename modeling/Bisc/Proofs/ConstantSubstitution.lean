import Bisc.Proofs.FixedPoint

/-!
Expansion of constants is substitution. The expansion puts the value of a constant in front of the
tokens that are pending, where it meets what follows the invocation; substitution replaces the
invocations in a value before it takes the value over. As long as no value runs on into what follows
it, the two give the same tokens and the same errors, and the depth of a token tells how many more
levels may be substituted below it.
-/
namespace Bisc

variable {constants : List (String × List Token)}

/-- The token list with every invocation replaced by the value of its constant, in which invocations
    are replaced first, down to `n` levels. The line of a constant's definition stays as it is. -/
def substituteConstants (constants : List (String × List Token)) (n : Nat) (ts : List Token) :
    Except Error (List Token) :=
  match ts with
  | [] => .ok []
  | t :: rest =>
    if directiveAt? (t :: rest) = some "define" then
      (substituteConstants constants n ((Token.afterLine rest).drop 1)).map
        (t :: Token.line rest ++ (Token.afterLine rest).take 1 ++ ·)
    else if t.kind = .macroOp then
      match rest with
      | [] => .error ⟨.unexpected .definedName .endOfFile, t.pos⟩
      | name :: after =>
        if name.isWord then
          match n with
          | 0 => .error ⟨.expansionDepth name.raw, t.pos⟩
          | m + 1 =>
            match constants.lookup name.raw with
            | none => .error ⟨.unresolvedSymbol name.raw, name.pos⟩
            | some value => do
              let first ← substituteConstants constants m (value.map (Token.retag t.pos (t.depth + 1)))
              let others ← substituteConstants constants (m + 1) after
              return first ++ others
        else .error (name.unexpected .definedName)
    else (substituteConstants constants n rest).map (t :: ·)
termination_by (n, ts.length)
decreasing_by
  · exact .right _ (Nat.lt_succ_of_le (Token.drop_afterLine_suffix rest).length_le)
  · exact .left _ _ (Nat.lt_succ_self _)
  · exact .right _ (by simp only [List.length_cons]; omega)
  · exact .right _ (Nat.lt_succ_self _)

/-- The word that makes a definition of the line, after a dot. -/
def Token.SaysDefine (t : Token) : Prop := t.isWord ∧ t.name = "define"

instance (t : Token) : Decidable t.SaysDefine := inferInstanceAs (Decidable (_ ∧ _))

/-- A value that does not run on: each invocation in it has its name there, and no word of it makes a definition. -/
structure SelfContained (value : List Token) : Prop where
  named : ∀ before op after, value = before ++ op :: after → op.kind = .macroOp →
  ∃ name more, after = name :: more ∧ name.isWord
  undefining : ∀ t ∈ value, ¬t.SaysDefine

/-- Words that make a definition come right after a dot only. -/
def DefinesAfterDots (ts : List Token) : Prop :=
  ∀ before word after, ts = before ++ word :: after → word.SaysDefine →
    ∃ earlier dot, before = earlier ++ [dot] ∧ dot.kind = .directive

/-! ## Lists that a definition does not begin in -/

theorem Token.kind_of_isWord {t : Token} (word : t.isWord) : t.kind ≠ .macroOp ∧ t.kind ≠ .directive := by
  constructor
  · intro operator
    simp [Token.isWord, operator, TokenKind.isWord] at word
  · intro directive
    simp [Token.isWord, directive, TokenKind.isWord] at word

theorem SelfContained.tail {t : Token} {ts : List Token} (contained : SelfContained (t :: ts)) :
    SelfContained ts where
  named := by
    rintro before op after rfl operator
    exact contained.named (t :: before) op after rfl operator
  undefining u member := contained.undefining u (List.mem_cons_of_mem _ member)

theorem SelfContained.retag {value : List Token} (contained : SelfContained value) (pos : Position) (depth : Nat) :
    SelfContained (value.map (Token.retag pos depth)) where
  named := by
    intro before op after split operator
    obtain ⟨before', rest, rfl, -, behind⟩ := List.map_eq_append_iff.mp split
    obtain ⟨op', after', rfl, rfl, rfl⟩ := List.map_eq_cons_iff.mp behind
    obtain ⟨name, more, rfl, spelled⟩ := contained.named before' op' after' rfl operator
    exact ⟨name.retag pos depth, more.map (Token.retag pos depth), rfl, spelled⟩
  undefining := by
    intro t member
    obtain ⟨u, inside, rfl⟩ := List.mem_map.mp member
    exact contained.undefining u inside

theorem directiveAt?_ne_define {t : Token} {ts : List Token} (next : ∀ u ∈ ts.head?, ¬u.SaysDefine) :
    directiveAt? (t :: ts) ≠ some "define" := by
  cases ts with
  | nil => simp [directiveAt?]
  | cons u us =>
    intro define
    exact next u rfl (directiveAt?_eq_define.mp define).2

/-- What follows a token that is no dot does not begin with the word. -/
theorem DefinesAfterDots.next {before after : List Token} {t : Token}
    (dotted : DefinesAfterDots (before ++ t :: after))
    (other : t.kind ≠ .directive) : ∀ u ∈ after.head?, ¬u.SaysDefine := by
  intro u head spelled
  obtain ⟨more, rfl⟩ := List.head?_eq_some_iff.mp head
  obtain ⟨earlier, dot, same, directive⟩ := dotted (before ++ [t]) u more (by simp) spelled
  obtain ⟨-, rfl⟩ := List.append_inj' same rfl |>.imp_right List.singleton_inj.mp
  exact other directive

/-- An end of a list has the words after dots as well, unless it begins with one. -/
theorem DefinesAfterDots.suffix {before after : List Token} (dotted : DefinesAfterDots (before ++ after))
    (next : ∀ u ∈ after.head?, ¬u.SaysDefine) : DefinesAfterDots after := by
  rintro earlier word later rfl spelled
  obtain ⟨front, dot, same, directive⟩ := dotted (before ++ earlier) word later (by simp) spelled
  rcases List.eq_nil_or_concat earlier with rfl | ⟨start, last, rfl⟩
  · exact absurd spelled (next word rfl)
  · rw [List.concat_eq_append, ← List.append_assoc] at same
    obtain ⟨-, rfl⟩ := List.append_inj' same rfl |>.imp_right List.singleton_inj.mp
    exact ⟨start, last, by simp, directive⟩

theorem DefinesAfterDots.tail {t : Token} {ts : List Token} (dotted : DefinesAfterDots (t :: ts))
    (undefined : directiveAt? (t :: ts) ≠ some "define") : DefinesAfterDots ts := by
  refine @DefinesAfterDots.suffix [t] ts dotted ?_
  by_cases directive : t.kind = .directive
  · intro u head spelled
    obtain ⟨us, rfl⟩ := List.head?_eq_some_iff.mp head
    exact undefined (directiveAt?_eq_define.mpr ⟨directive, spelled⟩)
  · exact @DefinesAfterDots.next [] ts t dotted directive

theorem DefinesAfterDots.after_line {t : Token} {ts : List Token} (dotted : DefinesAfterDots (t :: ts)) :
    DefinesAfterDots ((Token.afterLine ts).drop 1) := by
  rw [← Token.line_append_afterLine ts, ← List.cons_append] at dotted
  cases after : Token.afterLine ts with
  | nil => simp [DefinesAfterDots]
  | cons stop us =>
    rw [after] at dotted
    have ends : stop.kind ≠ .directive := by
      have := Token.afterLine_head after
      rintro directive
      simp [Token.isSeparator, directive] at this
    exact (List.append_cons _ stop us ▸ dotted).suffix (dotted.next ends)

/-! ## The cases of a substitution -/

section Cases

variable {n : Nat} {t name : Token} {ts : List Token}

@[simp] theorem substituteConstants_nil : substituteConstants constants n [] = .ok [] := by
  rw [substituteConstants.eq_def]

theorem substituteConstants_define (define : directiveAt? (t :: ts) = some "define") :
    substituteConstants constants n (t :: ts) =
    (substituteConstants constants n ((Token.afterLine ts).drop 1)).map
      (t :: Token.line ts ++ (Token.afterLine ts).take 1 ++ ·) := by
  rw [substituteConstants.eq_def]
  exact if_pos define

theorem substituteConstants_token (undefined : directiveAt? (t :: ts) ≠ some "define") (token : t.kind ≠ .macroOp) :
    substituteConstants constants n (t :: ts) = (substituteConstants constants n ts).map (t :: ·) := by
  rw [substituteConstants.eq_def]
  exact (if_neg undefined).trans (if_neg token)

variable (operator : t.kind = .macroOp)
include operator

theorem substituteConstants_ends :
    substituteConstants constants n [t] = .error ⟨.unexpected .definedName .endOfFile, t.pos⟩ := by
  rw [substituteConstants.eq_def]
  simp [directiveAt?, operator]

theorem substituteConstants_unnamed (unnamed : ¬name.isWord) :
    substituteConstants constants n (t :: name :: ts) = .error (name.unexpected .definedName) := by
  rw [substituteConstants.eq_def]
  simp_all [directiveAt?]

variable (named : name.isWord)
include named

theorem substituteConstants_deep :
    substituteConstants constants 0 (t :: name :: ts) = .error ⟨.expansionDepth name.raw, t.pos⟩ := by
  rw [substituteConstants.eq_def]
  simp [directiveAt?, operator, named]

theorem substituteConstants_absent (absent : constants.lookup name.raw = none) :
    substituteConstants constants (n + 1) (t :: name :: ts) = .error ⟨.unresolvedSymbol name.raw, name.pos⟩ := by
  rw [substituteConstants.eq_def]
  simp [directiveAt?, operator, named, absent]

theorem substituteConstants_value {value : List Token} (found : constants.lookup name.raw = some value) :
    substituteConstants constants (n + 1) (t :: name :: ts) =
      substituteConstants constants n (value.map (Token.retag t.pos (t.depth + 1))) >>= fun first =>
        (substituteConstants constants (n + 1) ts).map (first ++ ·) := by
  rw [substituteConstants.eq_def]
  simp only [directiveAt?, operator, named, found, reduceCtorEq, if_false, if_true, false_and]
  refine congrArg _ (funext fun first => ?_)
  cases substituteConstants constants (n + 1) ts <;> rfl

end Cases

/-! ## The queue and the recursion -/

section Invocation

variable {op name : Token} {ts : List Token} (named : name.isWord) (shallow : op.depth < maxDepth)
include named

theorem invoke_deep {defs : Definitions} (deep : op.depth = maxDepth) :
    invoke defs op (name :: ts) = .error ⟨.expansionDepth name.raw, op.pos⟩ := by
  simp [invoke, named, deep]

include shallow

theorem invoke_absent (absent : constants.lookup name.raw = none) :
    invoke ⟨constants, []⟩ op (name :: ts) = .error ⟨.unresolvedSymbol name.raw, name.pos⟩ := by
  simp [invoke, named, absent, Nat.not_le.mpr shallow]

theorem invoke_constant {defs : Definitions} {value : List Token}
    (found : defs.constants.lookup name.raw = some value) :
    invoke defs op (name :: ts) = .ok (value, ts) := by
  simp [invoke, named, found, Nat.not_le.mpr shallow]

end Invocation

/-- The value of a constant has one level less below it than its invocation. -/
private theorem level_of_value {t : Token} {m : Nat} (level : t.depth + (m + 1) = maxDepth) (value : List Token) :
    ∀ u ∈ value.map (Token.retag t.pos (t.depth + 1)), u.depth + m = maxDepth := by
  rw [List.forall_mem_map]
  intro u member
  show t.depth + 1 + m = maxDepth
  omega

section Queue

variable (contained : ∀ name value, constants.lookup name = some value → SelfContained value)
include contained

/-- A value at the front of the queue is substituted as if it stood alone, and then the rest is expanded. -/
theorem expand_selfContained {n : Nat} {vs : List Token} (levels : ∀ t ∈ vs, t.depth + n = maxDepth)
    (own : SelfContained vs)
    {rest : List Token} (next : ∀ u ∈ rest.head?, ¬u.SaysDefine) : expand ⟨constants, []⟩ (vs ++ rest) =
      substituteConstants constants n vs >>= fun out => (expand ⟨constants, []⟩ rest).map (out ++ ·) := by
  -- A value cannot end in the dot of a definition that goes on in the rest, since the rest does not
  -- begin with the word.
  have ahead {us rest : List Token} (own : SelfContained us) (next : ∀ u ∈ rest.head?, ¬u.SaysDefine) :
      ∀ u ∈ (us ++ rest).head?, ¬u.SaysDefine := by
    cases us with
    | nil => exact next
    | cons u us => simpa using own.undefining u List.mem_cons_self
  induction n, vs using substituteConstants.induct constants generalizing rest with
  | case1 n =>
    rw [List.nil_append, substituteConstants_nil]
    change _ = (expand ⟨constants, []⟩ rest).map ([] ++ ·)
    cases expand ⟨constants, []⟩ rest <;> rfl
  | case2 n t us define =>
    have undefined : ∀ u ∈ us.head?, ¬u.SaysDefine := fun u head => own.tail.undefining u (List.mem_of_mem_head? head)
    exact absurd define (directiveAt?_ne_define undefined)
  | case3 n t operator define =>
    obtain ⟨name, more, impossible, -⟩ := own.named [] t [] rfl operator
    cases impossible
  | case4 t operator name after named define =>
    have deep : t.depth = maxDepth := levels t List.mem_cons_self
    rw [List.cons_append, List.cons_append, expand_error operator (invoke_deep named deep),
      substituteConstants_deep operator named]
    rfl
  | case5 t operator name after named m absent define =>
    have shallow : t.depth < maxDepth := by have := levels t List.mem_cons_self; omega
    rw [List.cons_append, List.cons_append, expand_error operator (invoke_absent named shallow absent),
      substituteConstants_absent operator named absent]
    rfl
  | case6 t operator name after named m value found define ih later =>
    have level := levels t List.mem_cons_self
    have shallow : t.depth < maxDepth := by omega
    have first := ih (level_of_value level value) ((contained _ _ found).retag _ _) (ahead own.tail.tail next)
    have others := later (fun u member =>
      levels u (List.mem_cons_of_mem _ (List.mem_cons_of_mem _ member))) own.tail.tail next
    rw [List.cons_append, List.cons_append,
      expand_invocation operator (invoke_constant named shallow found), first, others,
      substituteConstants_value operator named found, bind_assoc]
    refine congrArg _ (funext fun out => ?_)
    rw [bind_map, map_bind]
    simp only [map_map, List.append_assoc]
  | case7 n t operator name after unnamed define =>
    obtain ⟨name, more, same, named⟩ := own.named [] t _ rfl operator
    cases same
    exact absurd named unnamed
  | case8 n t us define token ih =>
    have later := ih (fun u member => levels u (List.mem_cons_of_mem _ member)) own.tail next
    rw [List.cons_append, expand_token (directiveAt?_ne_define (ahead own.tail next)) token, later,
      substituteConstants_token define token, map_bind, bind_map]
    simp only [map_map, List.cons_append]

/-- The expansion of a list that was not expanded before is its substitution. -/
theorem expand_eq_substituteConstants {ts : List Token} (flat : ∀ t ∈ ts, t.depth = 0)
    (dotted : DefinesAfterDots ts) :
    expand ⟨constants, []⟩ ts = substituteConstants constants maxDepth ts := by
  generalize whole : maxDepth = n
  induction n, ts using substituteConstants.induct constants with
  | case1 n => rw [expand, substituteConstants_nil]
  | case2 n t us define ih =>
    have suffix : (Token.afterLine us).drop 1 <:+ t :: us :=
      (Token.drop_afterLine_suffix us).trans (List.suffix_cons _ _)
    have later := ih (fun u member => flat u (suffix.subset member)) dotted.after_line whole
    rw [expand_define define, substituteConstants_define define, later]
  | case3 n t operator define => rw [expand_error operator rfl, substituteConstants_ends operator]
  | case4 t operator name after named define => cases whole
  | case5 t operator name after named m absent define =>
    have shallow : t.depth < maxDepth := by simp [flat t List.mem_cons_self, maxDepth]
    rw [expand_error operator (invoke_absent named shallow absent), substituteConstants_absent operator named absent]
  | case6 t operator name after named m value found define ih later =>
    have surface := flat t List.mem_cons_self
    have shallow : t.depth < maxDepth := by simp [surface, maxDepth]
    have next : ∀ u ∈ after.head?, ¬u.SaysDefine :=
      @DefinesAfterDots.next [t] after name dotted (Token.kind_of_isWord named).2
    have deeper := level_of_value (by omega : t.depth + (m + 1) = maxDepth) value
    have others := later (fun u member => flat u (List.mem_cons_of_mem _ (List.mem_cons_of_mem _ member)))
      (@DefinesAfterDots.suffix [t, name] after dotted next) whole
    rw [expand_invocation operator (invoke_constant named shallow found),
      expand_selfContained contained deeper ((contained _ _ found).retag _ _) next, others,
      substituteConstants_value operator named found]
  | case7 n t operator name after unnamed define =>
    have refused : invoke ⟨constants, []⟩ t (name :: after) = .error (name.unexpected .definedName) := by
      simp [invoke, unnamed]
    rw [expand_error operator refused, substituteConstants_unnamed operator unnamed]
  | case8 n t us define token ih =>
    have later := ih (fun u member => flat u (List.mem_cons_of_mem _ member)) (dotted.tail define) whole
    rw [expand_token define token, substituteConstants_token define token, later]

end Queue

/-! ## Nesting -/

/-- Every invocation outside the lines of definitions has its name, and the name is `good`. -/
def EveryInvocation (good : String → Prop) (ts : List Token) : Prop :=
  ∀ before op after, ts = before ++ op :: after → op.kind = .macroOp → ¬InDefinitionLine before →
    ∃ name more, after = name :: more ∧ name.isWord ∧ good name.raw

/-- The constant is defined, and so is every constant that its value needs, through at most `n` of them in a chain. -/
def NestsWithin (constants : List (String × List Token)) : Nat → String → Prop
  | 0, _ => False
  | n + 1, name => ∃ value, constants.lookup name = some value ∧ EveryInvocation (NestsWithin constants n) value

/-- The value of the first constant invokes the second. -/
def Invokes (constants : List (String × List Token)) (first second : String) : Prop :=
  ∃ before op name after, constants.lookup first = some (before ++ op :: name :: after) ∧
  op.kind = .macroOp ∧ name.raw = second

/-- The constant needs one, or is one, that needs itself. -/
def ReachesCycle (constants : List (String × List Token)) (name : String) : Prop :=
  ∃ looping, Relation.ReflTransGen (Invokes constants) name looping ∧
  Relation.TransGen (Invokes constants) looping looping

section Invocations

variable {good : String → Prop} {t : Token} {ts : List Token}

theorem InDefinitionLine.tail {before rest : List Token}
    (undefined : directiveAt? (t :: (before ++ rest)) ≠ some "define")
    (inside : InDefinitionLine (t :: before)) : InDefinitionLine before := by
  obtain ⟨earlier, dot, word, later, split, directive, define, inline⟩ := inside
  cases earlier with
  | nil =>
    cases split
    exact absurd (directiveAt?_eq_define.mpr ⟨directive, define⟩) undefined
  | cons first earlier =>
    cases split
    exact ⟨earlier, dot, word, later, rfl, directive, define, inline⟩

/-- Whether a definition has begun does not depend on the places and the depths. -/
theorem inDefinitionLine_retag {pos : Position} {depth : Nat} {before : List Token} :
    InDefinitionLine (before.map (Token.retag pos depth)) ↔ InDefinitionLine before := by
  constructor
  · rintro ⟨earlier, dot, word, later, split, directive, define, inline⟩
    obtain ⟨earlier, behind, rfl, -, from_dot⟩ := List.map_eq_append_iff.mp split
    obtain ⟨dot, behind, rfl, rfl, from_word⟩ := List.map_eq_cons_iff.mp from_dot
    obtain ⟨word, later, rfl, rfl, rfl⟩ := List.map_eq_cons_iff.mp from_word
    exact ⟨earlier, dot, word, later, rfl, directive, define, List.forall_mem_map.mp inline⟩
  · rintro ⟨earlier, dot, word, later, rfl, directive, define, inline⟩
    rw [List.map_append, List.map_cons, List.map_cons]
    exact ⟨_, _, _, _, rfl, directive, define, List.forall_mem_map.mpr inline⟩

theorem everyInvocation_retag {pos : Position} {depth : Nat} :
    EveryInvocation good (ts.map (Token.retag pos depth)) ↔ EveryInvocation good ts := by
  constructor
  · rintro every before op after rfl operator outside
    obtain ⟨name, more, split, named, fine⟩ :=
      every _ (op.retag pos depth) (after.map (Token.retag pos depth)) List.map_append operator
      (inDefinitionLine_retag.not.mpr outside)
    obtain ⟨name, more, rfl, rfl, rfl⟩ := List.map_eq_cons_iff.mp split
    exact ⟨name, more, rfl, named, fine⟩
  · intro every before op after split operator outside
    obtain ⟨before, behind, rfl, rfl, from_op⟩ := List.map_eq_append_iff.mp split
    obtain ⟨op, after, rfl, rfl, rfl⟩ := List.map_eq_cons_iff.mp from_op
    obtain ⟨name, more, rfl, named, fine⟩ :=
      every before op after rfl operator (inDefinitionLine_retag.not.mp outside)
    exact ⟨name.retag pos depth, more.map (Token.retag pos depth), rfl, named, fine⟩

theorem everyInvocation_of_settled (settled : Settled ts) : EveryInvocation good ts := by
  intro before op after split operator outside
  exact absurd (settled before op after split operator) outside

/-- A token that begins no definition is, or is not, an invocation by itself. -/
theorem everyInvocation_cons (undefined : directiveAt? (t :: ts) ≠ some "define") : EveryInvocation good (t :: ts) ↔
    (t.kind = .macroOp → ∃ name more, ts = name :: more ∧ name.isWord ∧ good name.raw) ∧ EveryInvocation good ts := by
  constructor
  · intro every
    refine ⟨fun operator => every [] t ts rfl operator ?_, ?_⟩
    · rintro ⟨earlier, dot, word, later, split, -⟩
      simp at split
    · rintro before op after rfl operator outside
      exact every (t :: before) op after rfl operator fun inside => outside (inside.tail undefined)
  · rintro ⟨here, every⟩ before op after split operator outside
    cases before with
    | nil =>
      cases split
      exact here operator
    | cons first before =>
      cases split
      exact every before op after rfl operator fun inside => outside (inside.append_left [t])

/-- A settled list has no invocations, and what follows the separator behind it has its own. -/
theorem everyInvocation_append {us : List Token} {stop : Token} (settled : Settled ts) (ends : stop.isSeparator) :
    EveryInvocation good (ts ++ stop :: us) ↔ EveryInvocation good us := by
  have other {op : Token} (operator : op.kind = .macroOp) : op ≠ stop := by
    rintro rfl
    simp [Token.isSeparator, operator] at ends
  constructor
  · rintro every before op after rfl operator outside
    refine every (ts ++ stop :: before) op after (by simp) operator fun inside => ?_
    exact outside (inside.after_separator ends)
  · intro every before op after split operator outside
    rcases List.append_eq_append_iff.mp split with ⟨more, rfl, behind⟩ | ⟨more, rfl, behind⟩
    · cases more with
      | nil => exact absurd (List.cons.inj behind).1.symm (other operator)
      | cons first more =>
        cases behind
        refine every more op after rfl operator fun inside => outside ?_
        exact List.append_cons ts stop more ▸ inside.append_left (ts ++ [stop])
    · cases more with
      | nil => exact absurd (List.cons.inj behind).1 (other operator)
      | cons first more =>
        cases behind
        exact absurd (settled before op more rfl operator) outside

theorem everyInvocation_define (define : directiveAt? (t :: ts) = some "define") :
    EveryInvocation good (t :: ts) ↔ EveryInvocation good ((Token.afterLine ts).drop 1) := by
  have settled := settled_definition define
  have whole : t :: ts = t :: Token.line ts ++ Token.afterLine ts := by
    rw [List.cons_append, Token.line_append_afterLine]
  cases found : Token.afterLine ts with
  | nil =>
    rw [whole, found, List.append_nil]
    exact iff_of_true (everyInvocation_of_settled settled) (everyInvocation_of_settled (settled_of_plain (by simp)))
  | cons stop us =>
    rw [whole, found]
    exact everyInvocation_append settled (Token.afterLine_head found)

end Invocations

/-! ## What can be substituted -/

/-- A substitution succeeds exactly on what nests within its levels. -/
theorem substituteConstants_succeeds {n : Nat} {ts : List Token} :
    (∃ out, substituteConstants constants n ts = .ok out) ↔ EveryInvocation (NestsWithin constants n) ts := by
  induction n, ts using substituteConstants.induct constants with
  | case1 n =>
    exact iff_of_true ⟨[], substituteConstants_nil⟩
      (everyInvocation_of_settled (settled_of_plain (by simp)))
  | case2 n t us define ih =>
    rw [substituteConstants_define define, everyInvocation_define define, ← ih]
    simp [map_eq_ok]
  | case3 n t operator define =>
    rw [substituteConstants_ends operator, everyInvocation_cons define]
    simp [operator]
  | case4 t operator name after named define =>
    rw [substituteConstants_deep operator named, everyInvocation_cons define]
    simp [operator, NestsWithin]
  | case5 t operator name after named m absent define =>
    rw [substituteConstants_absent operator named absent, everyInvocation_cons define]
    simp [operator, NestsWithin, absent]
  | case6 t operator name after named m value found define ih later =>
    rw [everyInvocation_retag] at ih
    have ⟨token, other⟩ := Token.kind_of_isWord named
    have plain : directiveAt? (name :: after) ≠ some "define" := fun define => other (of_directiveAt? define).1
    rw [substituteConstants_value operator named found, everyInvocation_cons define,
      everyInvocation_cons plain, ← later]
    simp [bind_eq_ok, map_eq_ok, operator, token, NestsWithin, found, ← ih, named]
  | case7 n t operator name after unnamed define =>
    rw [substituteConstants_unnamed operator unnamed, everyInvocation_cons define]
    simp [operator, unnamed]
  | case8 n t us define token ih =>
    rw [substituteConstants_token define token, everyInvocation_cons define, ← ih]
    simp [map_eq_ok, token]

/-! ## Cycles -/

section Cycles

variable (contained : ∀ name value, constants.lookup name = some value → SelfContained value)
include contained

theorem NestsWithin.of_invokes {n : Nat} {first second : String} (nests : NestsWithin constants n first)
    (invokes : Invokes constants first second) : ∃ m < n, NestsWithin constants m second := by
  obtain ⟨before, op, name, after, found, operator, rfl⟩ := invokes
  cases n with
  | zero => exact absurd nests id
  | succ n =>
    obtain ⟨value, found', every⟩ := nests
    cases found.symm.trans found'
    have outside : ¬InDefinitionLine before := by
      rintro ⟨earlier, dot, word, later, rfl, -, define, -⟩
      exact (contained _ _ found).undefining word (by simp) define
    obtain ⟨name', more, same, -, deeper⟩ := every before op (name :: after) rfl operator outside
    cases same
    exact ⟨n, Nat.lt_succ_self n, deeper⟩

/-- What a constant needs, through however many others, nests less deeply. -/
theorem NestsWithin.of_transGen {n : Nat} {first last : String} (nests : NestsWithin constants n first)
    (chain : Relation.TransGen (Invokes constants) first last) : ∃ m < n, NestsWithin constants m last := by
  induction chain with
  | single invokes => exact nests.of_invokes contained invokes
  | tail chain invokes ih =>
    obtain ⟨m, less, nests⟩ := ih
    obtain ⟨k, less', nests⟩ := nests.of_invokes contained invokes
    exact ⟨k, less'.trans less, nests⟩

theorem not_nestsWithin_of_cycle {n : Nat} {name : String} (cycle : ReachesCycle constants name) :
    ¬NestsWithin constants n name := by
  obtain ⟨looping, reaches, around⟩ := cycle
  have endless : ∀ n, ¬NestsWithin constants n looping := by
    intro n
    induction n using Nat.strong_induction_on with
    | h n ih =>
      intro nests
      obtain ⟨m, less, nests⟩ := nests.of_transGen contained around
      exact ih m less nests
  intro nests
  rcases Relation.reflTransGen_iff_eq_or_transGen.mp reaches with rfl | chain
  · exact endless n nests
  · obtain ⟨m, -, nests⟩ := nests.of_transGen contained chain
    exact endless m nests

end Cycles

/-- Under constants whose values do not run on, the expansion of a list that was not expanded before
    is its recursive substitution, with the same tokens or the same error. It succeeds, and leaves
    no invocation outside definition lines, exactly if all constants that are used nest within the
    limit; a use of a constant that reaches a cycle is an error. -/
theorem constants_substitute {ts : List Token}
    (contained : ∀ name value, constants.lookup name = some value → SelfContained value)
    (flat : ∀ t ∈ ts, t.depth = 0) (dotted : DefinesAfterDots ts) :
    expand ⟨constants, []⟩ ts = substituteConstants constants maxDepth ts ∧
    ((∃ out, expand ⟨constants, []⟩ ts = .ok out ∧ Settled out) ↔
      EveryInvocation (NestsWithin constants maxDepth) ts) ∧
    (∀ before op name after, ts = before ++ op :: name :: after → op.kind = .macroOp → ¬InDefinitionLine before →
      ReachesCycle constants name.raw → ∃ e, expand ⟨constants, []⟩ ts = .error e) := by
  have same := expand_eq_substituteConstants contained flat dotted
  have succeeds : (∃ out, expand ⟨constants, []⟩ ts = .ok out ∧ Settled out) ↔
      EveryInvocation (NestsWithin constants maxDepth) ts := by
    rw [← substituteConstants_succeeds, ← same]
    constructor
    · rintro ⟨out, expanded, -⟩
      exact ⟨out, expanded⟩
    · rintro ⟨out, expanded⟩
      exact ⟨out, expanded, settled_of_expand expanded⟩
  refine ⟨same, succeeds, ?_⟩
  rintro before op name after rfl operator outside cycle
  cases expanded : expand ⟨constants, []⟩ (before ++ op :: name :: after) with
  | error e => exact ⟨e, rfl⟩
  | ok out =>
    have every := succeeds.mp ⟨out, expanded, settled_of_expand expanded⟩
    obtain ⟨name', more, split, -, nests⟩ := every before op (name :: after) rfl operator outside
    cases split
    exact absurd nests (not_nestsWithin_of_cycle contained cycle)

private def chained : List (String × List Token) := [
  ("outer", [⟨.macroOp, "%", none, ⟨1, 15⟩, 0⟩, ⟨.identifier, "inner", none, ⟨1, 16⟩, 0⟩]),
  ("inner", [⟨.register, "r1", some 1, ⟨2, 15⟩, 0⟩]),
  ("endless", [⟨.macroOp, "%", none, ⟨3, 17⟩, 0⟩, ⟨.identifier, "endless", none, ⟨3, 18⟩, 0⟩])]

private def definition : List Token := [
  ⟨.directive, ".", none, ⟨1, 1⟩, 0⟩, ⟨.identifier, "define", none, ⟨1, 2⟩, 0⟩,
    ⟨.identifier, "outer", none, ⟨1, 9⟩, 0⟩,
  ⟨.macroOp, "%", none, ⟨1, 15⟩, 0⟩, ⟨.identifier, "inner", none, ⟨1, 16⟩, 0⟩, Token.separator ⟨1, 21⟩ 0]

private def loading (name : String) : List Token := definition ++ [
  ⟨.pseudoOp, "push", none, ⟨4, 1⟩, 0⟩, ⟨.macroOp, "%", none, ⟨4, 6⟩, 0⟩, ⟨.identifier, name, none, ⟨4, 7⟩, 0⟩]

private theorem chained_contained {name : String} {value : List Token} (found : chained.lookup name = some value) :
    SelfContained value := by
  have pair (op name : Token) (named : name.isWord) (undefined : ¬op.SaysDefine ∧ ¬name.SaysDefine) :
      SelfContained [op, name] := by
    refine ⟨?_, by simpa using undefined⟩
    intro before op' after split operator
    rcases before with _ | ⟨_, _ | ⟨_, _⟩⟩
    · cases split
      exact ⟨name, [], rfl, named⟩
    · cases split
      exact absurd operator (Token.kind_of_isWord named).1
    · simp at split
  have listed : (name, value) ∈ chained := by
    obtain ⟨before, after, same, -⟩ := List.lookup_eq_some_iff.mp found
    exact same ▸ List.mem_append_right before List.mem_cons_self
  simp only [chained, List.mem_cons, Prod.mk.injEq, List.not_mem_nil, or_false] at listed
  rcases listed with ⟨-, rfl⟩ | ⟨-, rfl⟩ | ⟨-, rfl⟩
  · exact pair _ _ rfl (by decide +kernel)
  · refine ⟨?_, by decide +kernel⟩
    intro before op after split operator
    have member : op ∈ before ++ op :: after := by simp
    rw [← split, List.mem_singleton] at member
    simp [member] at operator
  · exact pair _ _ rfl (by decide +kernel)

private theorem loading_dotted {name : String} (other : lowercase name ≠ "define") :
    DefinesAfterDots (loading name) := by
  have later : ∀ word ∈ (loading name).drop 2, ¬word.SaysDefine := by
    rw [loading, List.drop_append_of_le_length (by decide), List.forall_mem_append]
    refine ⟨by decide +kernel, ?_⟩
    simp only [List.forall_mem_cons, List.not_mem_nil, false_implies, implies_true, and_true]
    exact ⟨by decide +kernel, by decide +kernel, fun define => other define.2⟩
  intro before word after split define
  rcases before with _ | ⟨dot, _ | ⟨first, more⟩⟩
  · cases split
    exact absurd define (by decide +kernel)
  · cases split
    exact ⟨[], _, rfl, rfl⟩
  · exact absurd define (later word (by simp [split]))

/-- A constant behind another is reached in two steps, while the line of a definition stays; an
    endless one is refused. -/
theorem constants_substitute_chained : expand ⟨chained, []⟩ (loading "outer") =
      .ok (definition ++ [⟨.pseudoOp, "push", none, ⟨4, 1⟩, 0⟩, ⟨.register, "r1", some 1, ⟨4, 6⟩, 2⟩]) ∧
    ∃ e, expand ⟨chained, []⟩ (loading "endless") = .error e := by
  have flat (name : String) : ∀ t ∈ loading name, t.depth = 0 := by simp [loading, definition, Token.separator]
  have outer := constants_substitute (fun _ _ => chained_contained) (flat "outer")
    (loading_dotted (by decide +kernel))
  have endless := constants_substitute (fun _ _ => chained_contained) (flat "endless")
    (loading_dotted (by decide +kernel))
  have loops : Invokes chained "endless" "endless" := ⟨[], _, _, [], rfl, rfl, rfl⟩
  have outside : ¬InDefinitionLine (definition ++ [⟨.pseudoOp, "push", none, ⟨4, 1⟩, 0⟩]) := by
    intro inside
    obtain ⟨earlier, dot, word, later, split, -⟩ :=
      @InDefinitionLine.after_separator definition.dropLast _ (Token.separator ⟨1, 21⟩ 0) rfl inside
    rcases earlier with _ | ⟨_, _ | _⟩
    all_goals simp at split
  exact ⟨outer.1.trans (by cbv), endless.2.2 _ _ _ [] rfl rfl outside ⟨"endless", .refl, .single loops⟩⟩

end Bisc
