import Bisc.Proofs.InvocationLoop

/-!
Invocations of macros. An invocation takes its whole line, and the groups of tokens between the
commas are its arguments, one for each parameter. They are put into the body in one pass, so that
nothing that comes from an argument is taken for a parameter.
-/
namespace Bisc

/-- The groups of tokens between the commas of a list. -/
def commaGroups (ts : List Token) : List (List Token) := ts.splitOnP fun t => t.kind = .comma

/-- The tokens of a line are arguments for parameters: nothing for none, and else as many groups as
    parameters, each with a token in it. -/
def Fits (params : List String) (ts : List Token) : Prop :=
  params = [] ∧ ts = [] ∨ params ≠ [] ∧ (commaGroups ts).length = params.length ∧ ∀ group ∈ commaGroups ts, group ≠ []

/-- The second list is the first with groups in place of parameters: from left to right, `%` and the
    name of the i-th parameter give way to the i-th group, and every other token stays. -/
inductive Substituted (params : List String) (groups : List (List Token)) : List Token → List Token → Prop
  | nil : Substituted params groups [] []
  | parameter {i : Nat} {op name : Token} {group body out : List Token} (operator : op.kind = .macroOp)
      (named : params[i]? = some name.raw) (bound : groups[i]? = some group)
      (rest : Substituted params groups body out) :
      Substituted params groups (op :: name :: body) (group ++ out)
  | kept {t : Token} {body out : List Token} (other : t.kind = .macroOp →
      ∀ name, body.head? = some name → name.raw ∉ params)
      (rest : Substituted params groups body out) : Substituted params groups (t :: body) (t :: out)

/-! ## Arguments -/

/-- Up to its first comma a list is one group, and what follows the comma is made of the others. -/
private theorem commaGroups_cons (ts : List Token) :
    (ts.dropWhile fun t => t.kind ≠ .comma) = [] ∧ commaGroups ts = [ts.takeWhile fun t => t.kind ≠ .comma] ∨
    ∃ comma more, (ts.dropWhile fun t => t.kind ≠ .comma) = comma :: more ∧
      commaGroups ts = (ts.takeWhile fun t => t.kind ≠ .comma) :: commaGroups more := by
  have whole : (ts.takeWhile fun t => t.kind ≠ .comma) ++ (ts.dropWhile fun t => t.kind ≠ .comma) = ts :=
    List.takeWhile_append_dropWhile
  have uncut : ∀ t ∈ ts.takeWhile fun t => t.kind ≠ .comma, decide (t.kind = .comma) = false := by
    intro t member
    simpa using List.mem_takeWhile_imp member
  cases rest : ts.dropWhile fun t => t.kind ≠ .comma with
  | nil =>
    rw [rest, List.append_nil] at whole
    refine .inl ⟨rfl, ?_⟩
    rw [commaGroups, ← List.splitOnP_eq_singleton uncut, whole]
  | cons comma more =>
    have cut : decide (comma.kind = .comma) = true := by
      have head := List.head?_dropWhile_not (fun t : Token => decide (t.kind ≠ .comma)) ts
      rw [rest, List.head?_cons] at head
      simpa using head
    rw [rest] at whole
    refine .inr ⟨comma, more, rfl, ?_⟩
    conv => lhs; rw [← whole]
    exact List.splitOnP_append_cons_of_forall_mem uncut comma cut more

/-- The arguments read are the groups of the line, each under the name of its parameter. -/
theorem readArguments_eq_ok {name : Token} {arity : Nat} {stop : Option Token}
    {params : List String} {ts : List Token}
    {arguments : List (String × List Token)} : readArguments name arity stop params ts = .ok arguments ↔
      Fits params ts ∧ params.zip (commaGroups ts) = arguments := by
  induction params generalizing ts arguments with
  | nil => cases ts <;> simp [readArguments, Fits]
  | cons p ps ih =>
    have cut := commaGroups_cons ts
    simp only [readArguments]
    generalize (ts.takeWhile fun t => t.kind ≠ .comma) = argument at cut ⊢
    generalize (ts.dropWhile fun t => t.kind ≠ .comma) = rest at cut ⊢
    by_cases missing : argument = []
    · have empty : [] ∈ commaGroups ts := by
        rcases cut with ⟨-, groups⟩ | ⟨comma, more, -, groups⟩ <;> simp [groups, missing]
      rw [if_pos (by simpa using missing)]
      simp only [reduceCtorEq, false_iff]
      rintro ⟨⟨none, -⟩ | ⟨-, -, filled⟩, -⟩
      · cases none
      · exact filled [] empty rfl
    · rw [if_neg (by simpa using missing)]
      rcases cut with ⟨rfl, groups⟩ | ⟨comma, more, rfl, groups⟩
      · -- The line has a single group, which is right for a single parameter.
        cases ps with
        | nil => simp [groups, readArguments, Fits, missing, Except.map]
        | cons q qs => cases stop <;> simp [groups, Fits]
      · have others : commaGroups more ≠ [] := List.splitOnP_ne_nil _ _
        cases ps with
        | nil => simp [groups, readArguments, Fits, others, Except.map]
        | cons q qs =>
          have later : Fits (p :: q :: qs) ts ↔ Fits (q :: qs) more := by simp [Fits, groups, missing]
          rw [if_neg (by simp), map_eq_ok, later, groups, List.zip_cons_cons]
          constructor
          · rintro ⟨named, read, rfl⟩
            obtain ⟨fits, rfl⟩ := ih.mp read
            exact ⟨fits, rfl⟩
          · rintro ⟨fits, rfl⟩
            exact ⟨_, ih.mpr ⟨fits, rfl⟩, rfl⟩

/-! ## Bodies -/

/-- Where no name is repeated, it does not matter from which end it is looked for. -/
theorem lookup_reverse {α : Type} {entries : List (String × α)} (distinct : (entries.map Prod.fst).Nodup)
    (name : String) : entries.reverse.lookup name = entries.lookup name := by
  induction entries with
  | nil => rfl
  | cons e es ih =>
    obtain ⟨fresh, distinct⟩ := List.nodup_cons.mp distinct
    rw [List.reverse_cons, List.lookup_append, ih distinct, List.lookup_cons, List.lookup_cons]
    by_cases same : name = e.1
    · have absent : es.lookup name = none := List.lookup_eq_none_iff.mpr fun other listed => by
        have differs : name ≠ other.1 := fun again => fresh (same ▸ again ▸ List.mem_map_of_mem listed)
        simpa using differs
      rw [absent]
      simp [same]
    · simp [beq_false_of_ne same]

section Bodies

variable {params : List String} {groups : List (List Token)} (distinct : params.Nodup)
  (paired : params.length ≤ groups.length)
include paired

/-- A name that is no parameter has no argument. -/
private theorem lookup_zip_eq_none {name : String} : (params.zip groups).lookup name = none ↔ name ∉ params := by
  induction params generalizing groups with
  | nil => simp
  | cons p ps ih =>
    cases groups with
    | nil => simp at paired
    | cons g gs =>
      have rest := @ih gs (by simpa using paired)
      by_cases same : name = p
      · simp [same]
      · simp [List.lookup_cons, same, rest, beq_false_of_ne same]

include distinct in
/-- The argument of a parameter is the group at its place. -/
private theorem lookup_zip_eq_some {name : String} {group : List Token} :
    (params.zip groups).lookup name = some group ↔
    ∃ i : Nat, params[i]? = some name ∧ groups[i]? = some group := by
  induction params generalizing groups with
  | nil => simp
  | cons p ps ih =>
    obtain ⟨fresh, distinct⟩ := List.nodup_cons.mp distinct
    cases groups with
    | nil => simp at paired
    | cons g gs =>
      have rest := @ih gs distinct (by simpa using paired)
      rw [List.zip_cons_cons, List.lookup_cons]
      by_cases same : name = p
      · subst same
        simp only [beq_self_eq_true, Option.some.injEq]
        constructor
        · rintro rfl
          exact ⟨0, rfl, rfl⟩
        · rintro ⟨i, named, bound⟩
          cases i with
          | zero => simpa using bound
          | succ i =>
            have later : ps[i]? = some name := named
            exact absurd (List.mem_of_getElem? later) fresh
      · simp only [beq_false_of_ne same, rest]
        constructor
        · rintro ⟨i, named, bound⟩
          exact ⟨i + 1, named, bound⟩
        · rintro ⟨i, named, bound⟩
          cases i with
          | zero => exact absurd (Option.some.inj named).symm same
          | succ i => exact ⟨i, named, bound⟩

include distinct in
/-- What is made of a body is the one list that has the groups in place of the parameters. -/
theorem substituted_iff {body out : List Token} :
    Substituted params groups body out ↔ out = substitute (params.zip groups).reverse body := by
  have bindings (name : String) : (params.zip groups).reverse.lookup name = (params.zip groups).lookup name :=
    lookup_reverse (by rwa [List.map_fst_zip paired]) name
  constructor
  · intro replaced
    induction replaced with
    | nil => rfl
    | parameter operator named bound _ ih =>
      have found := (lookup_zip_eq_some distinct paired).mpr ⟨_, named, bound⟩
      simp only [substitute, operator, if_true, bindings, found, ih]
    | @kept t body out other _ ih =>
      cases body with
      | nil =>
        simp only [substitute] at ih ⊢
        rw [ih]
      | cons name body =>
        have absent := fun operator => (lookup_zip_eq_none paired).mpr (other operator name rfl)
        rw [substitute_kept (fun operator => (bindings _).trans (absent operator)), ih]
  · rintro rfl
    induction body using substitute.induct (params.zip groups).reverse with
    | case1 t name body group found ih =>
      rw [substitute, found]
      split at found
      · rename_i operator
        obtain ⟨i, named, bound⟩ := (lookup_zip_eq_some distinct paired).mp (bindings _ ▸ found)
        exact .parameter operator named bound ih
      · cases found
    | case2 t name body absent ih =>
      rw [substitute, absent]
      refine .kept (fun operator other head => ?_) ih
      cases head
      rw [if_pos operator, bindings] at absent
      exact (lookup_zip_eq_none paired).mp absent
    | case3 body short =>
      cases body with
      | nil => exact .nil
      | cons t body =>
        cases body with
        | nil => exact .kept (by simp) .nil
        | cons name body => exact absurd rfl (short t name body)

end Bodies

/-! ## Invocations -/

/-- An invocation pops its arguments and its line off the queue as if the line was cut out first. It
    gives what its macro stands for exactly if the line fits the parameters. It then takes the line
    and its separator, and the body has the groups of the line in place of the parameters. -/
theorem invocation_binds {m : Macro} (distinct : m.params.Nodup) (name : Token) (queue : List Token) :
    expandMacro m name queue = invokeMacro m name queue ∧
    ((∃ produced after, expandMacro m name queue = .ok (produced, after)) ↔
      Fits m.params (Token.uncommented (Token.line queue))) ∧
    ∀ produced after, expandMacro m name queue = .ok (produced, after) →
      (∃ stop, queue = Token.line queue ++ stop ++ after ∧
        (stop = [] ∧ after = [] ∨ ∃ separator, stop = [separator] ∧ separator.isSeparator)) ∧
      ∀ out, Substituted m.params (commaGroups (Token.uncommented (Token.line queue))) m.body out ↔
      out = produced := by
  have invoked {produced after : List Token} : expandMacro m name queue = .ok (produced, after) ↔
      Fits m.params (Token.uncommented (Token.line queue)) ∧ (Token.afterLine queue).drop 1 = after ∧
        substitute (m.params.zip (commaGroups (Token.uncommented (Token.line queue)))).reverse m.body = produced := by
    simp only [expandMacro_eq, invokeMacro, bind_eq_ok, readArguments_eq_ok]
    constructor
    · rintro ⟨_, ⟨fits, rfl⟩, same⟩
      cases same
      exact ⟨fits, rfl, rfl⟩
    · rintro ⟨fits, rfl, rfl⟩
      exact ⟨_, ⟨fits, rfl⟩, rfl⟩
  refine ⟨expandMacro_eq m name queue, ?_, fun produced after succeeded => ?_⟩
  · constructor
    · rintro ⟨produced, after, succeeded⟩
      exact (invoked.mp succeeded).1
    · intro fits
      exact ⟨_, _, invoked.mpr ⟨fits, rfl, rfl⟩⟩
  · obtain ⟨fits, rfl, rfl⟩ := invoked.mp succeeded
    refine ⟨⟨(Token.afterLine queue).take 1, ?_, ?_⟩, fun out => substituted_iff distinct ?_⟩
    · rw [List.append_assoc, List.take_append_drop, Token.line_append_afterLine]
    · cases rest : Token.afterLine queue with
      | nil => exact .inl ⟨rfl, rfl⟩
      | cons separator more => exact .inr ⟨separator, rfl, Token.afterLine_head rest⟩
    · rcases fits with ⟨none, -⟩ | ⟨-, count, -⟩
      · simp [none]
      · omega

private def swap : Macro := ⟨["a", "b"], [⟨.macroOp, "%", none, ⟨2, 1⟩, 0⟩, ⟨.identifier, "b", none, ⟨2, 2⟩, 0⟩,
  ⟨.comma, ",", none, ⟨2, 3⟩, 0⟩, ⟨.macroOp, "%", none, ⟨2, 5⟩, 0⟩, ⟨.identifier, "a", none, ⟨2, 6⟩, 0⟩,
  ⟨.macroOp, "%", none, ⟨2, 8⟩, 0⟩, ⟨.identifier, "c", none, ⟨2, 9⟩, 0⟩]⟩

private def swapLine : List Token := [⟨.macroOp, "%", none, ⟨4, 7⟩, 0⟩, ⟨.identifier, "b", none, ⟨4, 8⟩, 0⟩,
  ⟨.comma, ",", none, ⟨4, 9⟩, 0⟩, ⟨.register, "r1", some 1, ⟨4, 11⟩, 0⟩, ⟨.comment, "; x", none, ⟨4, 14⟩, 0⟩,
  Token.separator ⟨4, 17⟩ 0, ⟨.opcode, "halt", some 1, ⟨5, 1⟩, 0⟩]

/-- The argument for `a` is `%b`, and it stays so although `b` is a parameter; `%c` is none. -/
theorem invocation_binds_swap : swap.params.Nodup ∧
    (∃ produced, expandMacro swap ⟨.identifier, "swap", none, ⟨4, 2⟩, 0⟩ swapLine = .ok (produced, swapLine.drop 6)) ∧
    Fits swap.params (Token.uncommented (Token.line swapLine)) ∧
    Substituted swap.params [swapLine.take 2, [⟨.register, "r1", some 1, ⟨4, 11⟩, 0⟩]] swap.body
      (⟨.register, "r1", some 1, ⟨4, 11⟩, 0⟩ :: ⟨.comma, ",", none, ⟨2, 3⟩, 0⟩ :: swapLine.take 2 ++
        swap.body.drop 5) := by
  have distinct : swap.params.Nodup := by decide
  obtain ⟨loops, fitting, bound⟩ := invocation_binds distinct ⟨.identifier, "swap", none, ⟨4, 2⟩, 0⟩ swapLine
  have invoked := loops.trans rfl
  exact ⟨distinct, ⟨_, invoked⟩, fitting.mp ⟨_, _, invoked⟩, ((bound _ _ invoked).2 _).mpr rfl⟩

end Bisc
