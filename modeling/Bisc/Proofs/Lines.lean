import Bisc.Program.Parser

/-!
Reading line by line: the steps of a token list are those of its lines, one after the other, and
the program depends on what the steps add and not on what they were unfolded from.
-/
namespace Bisc

/-! ## Runs -/

namespace Run

variable {α : Type}

theorem append_of_failure {r : Run α} {e : Error} (failed : r.failure = some e) (s : Run α) : r ++ s = r := by
  change Run.append r s = r
  simp [append, failed]
theorem append_of_done {r : Run α} (ended : r.failure = none) (s : Run α) : r ++ s = ⟨r.out ++ s.out, s.failure⟩ := by
  change Run.append r s = _
  simp [append, ended]

@[simp] theorem append_done (r : Run α) : r ++ done = r := by
  cases failure : r.failure with
  | some e => exact append_of_failure failure _
  | none => simp [append_of_done failure, done, ← failure]
@[simp] theorem fail_append (e : Error) (r : Run α) : fail e ++ r = fail e := rfl
theorem cons_append (a : α) (r s : Run α) : cons a r ++ s = cons a (r ++ s) := by
  cases failure : r.failure with
  | some e => rw [append_of_failure failure, append_of_failure (e := e) (by simpa [cons] using failure)]
  | none => rw [append_of_done failure, append_of_done (by simpa [cons] using failure)]; rfl

theorem append_assoc (r s t : Run α) : r ++ s ++ t = r ++ (s ++ t) := by
  cases first : r.failure with
  | some e => rw [append_of_failure first, append_of_failure first, append_of_failure first]
  | none =>
    cases second : s.failure with
    | some e =>
      rw [append_of_failure second, append_of_done first, append_of_failure (e := e) (by simpa using second)]
    | none =>
      rw [append_of_done second, append_of_done first, append_of_done first, append_of_done (by simpa using second)]
      simp

theorem failure_append {r s : Run α} (ended : (r ++ s).failure = none) : r.failure = none ∧ s.failure = none := by
  cases first : r.failure with
  | some e => simp [append_of_failure first, first] at ended
  | none => simpa [append_of_done first] using ended
theorem out_append {r : Run α} (ended : r.failure = none) (s : Run α) : (r ++ s).out = r.out ++ s.out := by
  rw [append_of_done ended]

end Run

/-- The step only tells that a pseudo-instruction was unfolded. -/
def Step.isUnfolding : Step → Bool
  | unfolded .. => true
  | _ => false

/-- The steps of a run that a program is made of. -/
def Run.edits (r : Run Step) : Run Step := { r with out := r.out.filter fun s => !s.isUnfolding }

/-- The program that the steps of a run make. -/
def programOf (r : Run Step) : Except Error Program := return contentSections [] (blocks (← r.result))

theorem parse_eq_programOf (isa : InstructionSet) (ts : List Token) : parse isa ts = programOf (steps isa ts) := rfl

namespace Run

theorem edits_append (r s : Run Step) : (r ++ s).edits = r.edits ++ s.edits := by
  cases failure : r.failure with
  | some e => rw [append_of_failure failure, append_of_failure (r := r.edits) failure]
  | none =>
    rw [append_of_done failure, append_of_done (r := r.edits) failure]
    simp [edits]

@[simp] theorem edits_failure (r : Run Step) : r.edits.failure = r.failure := rfl
@[simp] theorem edits_cons_unfolded (pos : Position) (name : String) (operands : List String) (form : PseudoForm)
    (r : Run Step) : (cons (.unfolded pos name operands form) r).edits = r.edits := rfl

end Run

private theorem blocksFrom_filter (ss : List Step) :
    blocksFrom (ss.filter fun s => !s.isUnfolding) = blocksFrom ss := by
  induction ss with
  | nil => rfl
  | cons s ss ih =>
    cases s with
    | unfolded pos name operands form => rw [List.filter_cons_of_neg (by simp [Step.isUnfolding]), ih, blocksFrom]
    | item i => rw [List.filter_cons_of_pos rfl, blocksFrom, blocksFrom, ih]
    | newSection name pos => rw [List.filter_cons_of_pos rfl, blocksFrom, blocksFrom, ih]

/-- A program does not show what was unfolded. -/
theorem programOf_edits (r : Run Step) : programOf r.edits = programOf r := by
  unfold programOf Run.result
  cases failure : r.failure with
  | some e => simp [Run.edits, failure]
  | none =>
    simp only [Run.edits, failure, bind, Except.bind, blocks, blocksFrom_filter]

/-- An error ends the reading, whatever came before it on its line. -/
theorem programOf_failure (r s t : Run Step) {e : Error} (failed : s.failure = some e) :
    programOf (r ++ s ++ t) = programOf (r ++ .fail e) := by
  cases earlier : r.failure with
  | some e' => rw [Run.append_of_failure earlier, Run.append_of_failure earlier, Run.append_of_failure earlier]
  | none =>
    rw [Run.append_of_done earlier, Run.append_of_failure (e := e) (by simpa using failed),
      Run.append_of_done earlier]
    simp only [programOf, Run.result, failed, Run.fail]

theorem programOf_ok_iff {r : Run Step} : (∃ p, programOf r = .ok p) ↔ r.failure = none := by
  unfold programOf Run.result
  cases r.failure with
  | some e => simp [bind, Except.bind]
  | none => simp [bind, Except.bind, pure, Except.pure]

theorem programOf_eq_error {r : Run Step} {e : Error} : programOf r = .error e ↔ r.failure = some e := by
  unfold programOf Run.result
  cases r.failure <;> simp [bind, Except.bind, pure, Except.pure]

/-! ## Lines -/

/-- A whole line: tokens that end nothing and the separator. -/
def Terminated (l : List Token) : Prop :=
  ∃ body stop, (∀ t ∈ body, t.isSeparator = false) ∧ stop.isSeparator ∧ l = body ++ [stop]

theorem lines_flatten (ts : List Token) : (Token.lines ts).flatten = ts := by
  induction ts with
  | nil => rfl
  | cons t ts ih =>
    rw [Token.lines]
    split
    · rw [List.flatten_cons, ih]; rfl
    · split
      · rename_i none
        rw [none] at ih
        simp [← ih]
      · rename_i l ls some
        rw [some] at ih
        rw [← ih, List.flatten_cons, List.flatten_cons, List.cons_append]

theorem mem_of_lines {ts l : List Token} (member : l ∈ Token.lines ts) {t : Token} (inside : t ∈ l) : t ∈ ts := by
  rw [← lines_flatten ts]
  exact List.mem_flatten.mpr ⟨l, member, inside⟩

theorem lines_terminated_append {l : List Token} (whole : Terminated l) (rest : List Token) :
    Token.lines (l ++ rest) = l :: Token.lines rest := by
  obtain ⟨body, stop, inside, ends, rfl⟩ := whole
  induction body with
  | nil => simp [Token.lines, ends]
  | cons t body ih =>
    have tail := ih fun u member => inside u (List.mem_cons_of_mem _ member)
    simp only [List.cons_append, Token.lines, inside t List.mem_cons_self, Bool.false_eq_true, if_false, tail]

/-- Every line but the last is a whole one. -/
theorem terminated_of_lines {ts l : List Token} {ls : List (List Token)}
    (cut : Token.lines ts = l :: ls) (more : ls ≠ []) :
    Terminated l := by
  induction ts generalizing l ls with
  | nil => simp [Token.lines] at cut
  | cons t ts ih =>
    rw [Token.lines] at cut
    split at cut
    · rename_i ends
      cases cut
      exact ⟨[], t, by simp, ends, rfl⟩
    · rename_i inline
      split at cut
      · cases cut
        exact absurd rfl more
      · rename_i l' ls' below
        cases cut
        obtain ⟨body, stop, inside, ends, rfl⟩ := ih below more
        refine ⟨t :: body, stop, ?_, ends, rfl⟩
        simpa [inline] using inside

theorem lines_tail {ts l : List Token} {ls : List (List Token)} (cut : Token.lines ts = l :: ls) :
    Token.lines ls.flatten = ls := by
  cases ls with
  | nil => rfl
  | cons m ms =>
    have whole := terminated_of_lines cut (by simp)
    have parts := lines_flatten ts
    rw [cut, List.flatten_cons] at parts
    have again := lines_terminated_append whole (m :: ms).flatten
    rw [parts, cut, List.cons.injEq] at again
    exact again.2.symm

variable {isa : InstructionSet}

section Line

variable {readLines : List Token → Run Step} {t : Token} (rest : List Token)

theorem readLine_opcode (kind : t.kind = .opcode) :
    readLine isa readLines (t :: rest) = Reader.statement (instructionStep isa t) ⟨rest, t.pos⟩ := by
  rw [readLine.eq_def]
  simp only [kind]
theorem readLine_pseudoOp (kind : t.kind = .pseudoOp) :
    readLine isa readLines (t :: rest) = readPseudo isa readLines t rest := by
  rw [readLine.eq_def]
  simp only [kind]
theorem readLine_comment (kind : t.kind = .comment) :
    readLine isa readLines (t :: rest) = readLine isa readLines rest := by
  rw [readLine.eq_def]
  simp only [kind]
theorem readLine_separator (kind : t.kind = .lineSeparator) :
    readLine isa readLines (t :: rest) = readLine isa readLines rest := by
  rw [readLine.eq_def]
  simp only [kind]
theorem readLine_label {colon : Token} (kind : t.kind = .identifier) (marked : colon.kind = .colon) :
    readLine isa readLines (t :: colon :: rest) =
      .cons (.item { node := .label t.raw, pos := t.pos }) (readLine isa readLines rest) := by
  rw [readLine.eq_def]
  simp only [kind, marked, if_true]

end Line

theorem readTokens_line (n : Nat) {l : List Token} (whole : Terminated l) (rest : List Token) :
    readTokens isa (n + 1) (l ++ rest) = readLine isa (readTokens isa n) l ++ readTokens isa (n + 1) rest := by
  simp only [readTokens, lines_terminated_append whole, List.map_cons, List.foldr_cons]

/-- Each line is read by itself, after the lines before it. -/
theorem steps_split {ts l : List Token} {before after : List (List Token)}
    (cut : Token.lines ts = before ++ l :: after) :
    steps isa ts = steps isa before.flatten ++ readLine isa (readTokens isa maxDepth) l ++
    steps isa after.flatten := by
  induction before generalizing ts with
  | nil =>
    have tail : Token.lines after.flatten = after := lines_tail cut
    rw [List.nil_append] at cut
    simp only [steps, readTokens, cut, tail, List.map_cons, List.foldr_cons]
    rfl
  | cons m before ih =>
    have whole : Terminated m := terminated_of_lines cut (by simp)
    have later := ih (lines_tail cut)
    have all := lines_flatten ts
    rw [cut, List.cons_append, List.flatten_cons] at all
    rw [← all, List.flatten_cons, steps, readTokens_line _ whole, steps, readTokens_line _ whole]
    rw [steps] at later
    rw [later, Run.append_assoc, Run.append_assoc, Run.append_assoc]
    rfl

end Bisc
