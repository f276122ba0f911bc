import Bisc.Proofs.Readers

/-!
What readers report. A reader of a statement fails at an invalid token that it was given, at
something else than it needed, or at a slice that selects no bytes, and gives up at a string literal
without a body; whatever else can be wrong with a source is not for it to find.
-/
namespace Bisc

variable {α β : Type}

/-- The token is a string literal without a body. -/
def Token.Bodiless (t : Token) : Prop := t.kind = .stringLiteral ∧ t.literalBody? = none

/-- The errors of readers that were given the tokens `ts`. -/
inductive Reported (ts : List Token) : Error → Prop
  | invalid {t : Token} (member : t ∈ ts) (kind : t.kind = .invalid) : Reported ts ⟨.invalidToken t.raw, t.pos⟩
  | unexpected (what : Expected) (found : Found) (pos : Position) : Reported ts ⟨.unexpected what found, pos⟩
  | slice (symbol : String) (first last : UInt32) (pos : Position) : Reported ts
      ⟨.outOfRange (.slice symbol first last), pos⟩
  | aborted {t : Token} (member : t ∈ ts) (broken : t.Bodiless) : Reported ts ⟨.aborted (.textSlice t.raw), t.pos⟩

/-- An error that readers of `ts` report, or a good value and a cursor that still is in `ts`. -/
inductive Answer (ts : List Token) (good : α → Prop) : Except Error (α × Cursor) → Prop
  | error {e : Error} (reported : Reported ts e) : Answer ts good (.error e)
  | ok {a : α} {c : Cursor} (fine : good a) (within : c.rest ⊆ ts) : Answer ts good (.ok (a, c))

/-- On tokens of `ts`, the reader has such an answer. -/
def Reports (ts : List Token) (good : α → Prop) (r : Reader α) : Prop := ∀ c, c.rest ⊆ ts → Answer ts good (r c)

variable {ts : List Token} {good : α → Prop} {better : β → Prop}

theorem reported_refused {t : Token} (member : t ∈ ts) (what : Expected) : Reported ts (t.refused what) := by
  unfold Token.refused
  split
  · rename_i invalid
    exact .invalid member invalid
  · exact .unexpected ..

theorem Reports.bind {r : Reader α} {f : α → Reader β} (first : Reports ts good r)
    (rest : ∀ a, good a → Reports ts better (f a)) : Reports ts better (r >>= f) := by
  intro c within
  have run : (r >>= f) c = r c >>= fun x => f x.1 x.2 := rfl
  have answer := first c within
  rw [run]
  generalize r c = result at answer
  cases answer with
  | error reported => exact .error reported
  | ok fine later => exact rest _ fine _ later

theorem reports_pure {a : α} (fine : good a) : Reports ts good (pure a : Reader α) := fun _ within => .ok fine within

theorem reports_throw {e : Error} (reported : Reported ts e) : Reports ts good (throw e : Reader α) :=
  fun _ _ => .error reported

/-! ## Tokens -/

namespace Reports

theorem next (what : Expected) : Reports ts (· ∈ ts) (Reader.next what) := by
  rintro ⟨rest, last⟩ within
  cases rest with
  | nil => exact .error (.unexpected ..)
  | cons t us =>
    obtain ⟨here, later⟩ := List.cons_subset.mp within
    exact .ok here later

theorem nextIs (kind : TokenKind) : Reports ts (fun _ => True) (Reader.nextIs kind) :=
  fun _ within => .ok trivial within

/-- A token is taken that passes a test. -/
theorem passing (what : Expected) (test : Token → Prop) [DecidablePred test] :
    Reports ts (fun t => t ∈ ts ∧ test t)
      (do let t ← Reader.next what; if test t then return t else throw (t.refused what)) := by
  refine (next what).bind fun t member => ?_
  split
  · rename_i passed
    exact reports_pure ⟨member, passed⟩
  · exact reports_throw (reported_refused member what)

theorem expect (kind : TokenKind) : Reports ts (fun t => t ∈ ts ∧ t.kind = kind) (Reader.expect kind) := passing _ _
theorem word (what : Expected) : Reports ts (fun t => t ∈ ts ∧ t.isWord) (Reader.word what) := passing _ _
theorem register : Reports ts (fun _ => True) Reader.register := (expect _).bind fun _ _ => reports_pure trivial

theorem restOfLine : Reports ts (fun _ => True) Reader.restOfLine :=
  fun _ within => .ok trivial (List.Subset.trans (List.dropWhile_sublist _).subset within)

theorem endOfLine : Reports ts (fun _ => True) Reader.endOfLine := by
  have separator {t : Token} {us : List Token} (within : t :: us ⊆ ts) : Answer ts (fun _ => True)
      (if t.isSeparator then .ok ((), ⟨us, t.pos⟩) else .error (t.refused (.token .lineSeparator))) := by
    obtain ⟨here, later⟩ := List.cons_subset.mp within
    split
    · exact .ok trivial later
    · exact .error (reported_refused here _)
  rintro ⟨rest, last⟩ within
  match rest with
  | [] => exact .ok trivial (by simp)
  | t :: us =>
    by_cases comment : t.isComment
    · cases us with
      | nil =>
        have ended : Reader.endOfLine ⟨[t], last⟩ = .ok ((), ⟨[], last⟩) := by simp [Reader.endOfLine, comment]
        rw [ended]
        exact .ok trivial (by simp)
      | cons u us =>
        rw [Comparison.endOfLine_commented comment]
        exact separator (List.cons_subset.mp within).2
    · rw [Comparison.endOfLine_uncommented (by simpa using comment)]
      exact separator within

/-! ## Constants -/

theorem slice (symbol : Token) : Reports ts (fun _ => True) (Reader.slice symbol) := by
  refine (expect _).bind fun _ _ => (expect _).bind fun first _ => (expect _).bind fun _ _ => ?_
  refine (expect _).bind fun last _ => (expect _).bind fun _ _ => ?_
  dsimp only
  split
  · have refused : Reports ts (fun _ => True) (throw
        ⟨.outOfRange (.slice symbol.raw first.number last.number), symbol.pos⟩ : Reader PUnit) :=
          reports_throw (.slice ..)
    exact refused.bind fun _ _ => reports_pure trivial
  · exact reports_pure trivial

theorem plainConstant (what : Expected) {t : Token} (member : t ∈ ts) :
    Reports ts (fun _ => True) (Reader.plainConstant what t) := by
  unfold Reader.plainConstant
  split
  · exact reports_pure trivial
  · refine (nextIs _).bind fun sliced _ => ?_
    split
    · exact slice t
    · exact reports_pure trivial
  · exact reports_throw (reported_refused member what)

theorem halfSelector (t : Token) : Reports ts (fun _ => True) (Reader.halfSelector t : Reader Selector) := by
  unfold Reader.halfSelector
  split
  · exact reports_pure trivial
  · split
    · exact reports_pure trivial
    · exact reports_throw (.unexpected ..)

theorem constant : Reports ts (fun _ => True) Reader.constant := by
  refine (next _).bind fun t member => ?_
  split
  · refine (word _).bind fun name _ => (halfSelector name).bind fun selector _ => ?_
    exact (next _).bind fun u inside => (plainConstant _ inside).bind fun _ _ => reports_pure trivial
  · exact plainConstant _ member

/-! ## Statements -/

theorem moreItems {item : Reader α} (each : Reports ts (fun _ => True) item) (n : Nat) :
    Reports ts (fun _ => True) (Reader.moreItems item n) := by
  induction n with
  | zero => exact reports_pure trivial
  | succ n ih =>
    refine (nextIs _).bind fun more _ => ?_
    split
    · exact (expect _).bind fun _ _ => each.bind fun _ _ => ih.bind fun _ _ => reports_pure trivial
    · exact reports_pure trivial

theorem commaSeparated {item : Reader α} (each : Reports ts (fun _ => True) item) :
    Reports ts (fun _ => True) (Reader.commaSeparated item) := by
  refine each.bind fun _ _ c within => ?_
  exact ((moreItems each c.rest.length).bind fun _ _ => reports_pure trivial) c within

theorem operands (format : Format) : Reports ts (fun _ => True) (Reader.operands format) := by
  cases format with
  | bare => exact reports_pure trivial
  | reg => exact register.bind fun _ _ => reports_pure trivial
  | regImm => exact register.bind fun _ _ => (expect _).bind fun _ _ => constant.bind fun _ _ => reports_pure trivial
  | regMem =>
    refine register.bind fun _ _ => (expect _).bind fun _ _ => register.bind fun _ _ => ?_
    exact (expect _).bind fun _ _ => constant.bind fun _ _ => (expect _).bind fun _ _ => reports_pure trivial
  | regReg => exact register.bind fun _ _ => (expect _).bind fun _ _ => register.bind fun _ _ => reports_pure trivial
  | regRegReg =>
    refine register.bind fun _ _ => (expect _).bind fun _ _ => register.bind fun _ _ => ?_
    exact (expect _).bind fun _ _ => register.bind fun _ _ => reports_pure trivial

theorem instructionStep (isa : InstructionSet) (t : Token) :
    Reports ts (fun _ => True) (Bisc.instructionStep isa t) := by
  have instruction : Reports ts (fun _ => True) (Reader.instruction isa t) := by
    unfold Reader.instruction
    split
    · exact reports_throw (.unexpected ..)
    · exact (operands _).bind fun _ _ => reports_pure trivial
  exact instruction.bind fun _ _ => reports_pure trivial

theorem sectionName : Reports ts (fun _ => True) Reader.sectionName := by
  refine (nextIs _).bind fun dotted _ => ?_
  split
  · exact (next _).bind fun _ _ => (word _).bind fun _ _ => reports_pure trivial
  · exact (word _).bind fun _ _ => reports_pure trivial

theorem parameters : Reports ts (fun _ => True) Reader.parameters := by
  intro c within
  unfold Reader.parameters
  split
  · exact commaSeparated ((word _).bind fun _ _ => reports_pure trivial) c within
  · exact reports_pure trivial c within

theorem stringBytes : Reports ts (fun _ => True) Reader.stringBytes := by
  refine (expect _).bind fun literal here => ?_
  split
  · rename_i broken
    exact reports_throw (.aborted here.1 ⟨here.2, broken⟩)
  · split
    · exact reports_pure trivial
    · exact reports_throw (.unexpected ..)

theorem directiveOperands (pos : Position) (d : Directive) :
    Reports ts (fun _ => True) (Reader.directiveOperands pos d) := by
  cases d with
  | standardSection | macroEnd => exact reports_pure trivial
  | namedSection => exact sectionName.bind fun _ _ => reports_pure trivial
  | constantDefinition => exact (word _).bind fun _ _ => restOfLine.bind fun _ _ => reports_pure trivial
  | macroHeader => exact (word _).bind fun _ _ => parameters.bind fun _ _ => reports_pure trivial
  | values => exact (commaSeparated constant).bind fun _ _ => reports_pure trivial
  | zeros => exact (expect _).bind fun _ _ => reports_pure trivial
  | text => exact stringBytes.bind fun _ _ => reports_pure trivial

theorem directive (dot : Token) : Reports ts (fun _ => True) (Reader.directive dot) := by
  refine (word _).bind fun name _ => ?_
  split
  · exact directiveOperands _ _
  · exact reports_throw (.unexpected ..)

/-- What a statement that has its line to the end reports. -/
theorem statement {r : Reader (List Step)} (reports : Reports ts (fun _ => True) r) {c : Cursor}
    (within : c.rest ⊆ ts) {e : Error}
    (failed : (Reader.statement r c).failure = some e) : Reported ts e := by
  unfold Reader.statement at failed
  have answer := reports c within
  generalize r c = result at answer failed
  cases answer with
  | error reported =>
    cases failed
    exact reported
  | @ok steps c' _ later =>
    have ended := endOfLine c' later
    dsimp only at failed
    generalize Reader.endOfLine c' = result at ended failed
    cases ended with
    | error reported =>
      cases failed
      exact reported
    | ok => cases failed

end Reports

/-- What is reported of arguments in no form. -/
theorem reported_noFormError (t : Token) (arguments : List Token) : Reported arguments (noFormError t arguments) := by
  unfold noFormError
  split
  · rename_i bad found
    have invalid : bad.kind = .invalid := by simpa using List.find?_some found
    exact .invalid (List.mem_of_find?_eq_some found) invalid
  · exact .unexpected ..

theorem Reported.mono {us : List Token} {e : Error} (reported : Reported ts e)
    (inside : ts ⊆ us) : Reported us e := by
  cases reported with
  | invalid member kind => exact .invalid (inside member) kind
  | unexpected what found pos => exact .unexpected what found pos
  | slice symbol first last pos => exact .slice symbol first last pos
  | aborted member broken => exact .aborted (inside member) broken

/-! ## Runs -/

/-- The run fails with no error but one with the property. -/
def Run.FailsWith (P : Error → Prop) (r : Run Step) : Prop := ∀ e, r.failure = some e → P e

section Runs

variable {P : Error → Prop} {isa : InstructionSet} {readLines : List Token → Run Step} {r s : Run Step} {t : Token}
  {rest : List Token}

theorem failsWith_done : Run.done.FailsWith P := by
  intro e failed
  cases failed

theorem failsWith_fail {e : Error} (fine : P e) : (Run.fail e).FailsWith P := by
  intro e' failed
  cases failed
  exact fine

theorem Run.FailsWith.append (first : r.FailsWith P) (second : s.FailsWith P) : (r ++ s).FailsWith P := by
  intro e failed
  cases ended : r.failure with
  | some e' =>
    rw [Run.append_of_failure ended] at failed
    exact first e failed
  | none =>
    rw [Run.append_of_done ended] at failed
    exact second e failed

theorem failsWith_statement {reader : Reader (List Step)}
    (reports : ∀ ts, Reports ts (fun _ => True) reader) {c : Cursor}
    (fine : ∀ e, Reported c.rest e → P e) : (Reader.statement reader c).FailsWith P :=
  fun e failed => fine e ((reports c.rest).statement (List.Subset.refl _) failed)

/-- A pseudo-instruction fails as a reader of its line does, unless it is too deep or the lines that
    it stands for fail. -/
theorem failsWith_readPseudo (fine : ∀ e, Reported rest e → P e) (unfolds : ∀ form operands,
      matchForm? (isa.forms t.name) (Token.uncommented (Token.line rest)) = some (form, operands) →
        (t.depth ≥ maxDepth → P ⟨.expansionDepth t.raw, t.pos⟩) ∧
        (t.depth < maxDepth → (readLines (form.unfold isa operands t)).FailsWith P)) :
    (readPseudo isa readLines t rest).FailsWith P := by
  have line : Token.uncommented (Token.line rest) ⊆ rest :=
    (List.filter_sublist.trans (List.takeWhile_sublist _)).subset
  have stop : (Token.afterLine rest).take 1 ⊆ rest := ((List.take_sublist ..).trans (List.dropWhile_sublist _)).subset
  unfold readPseudo
  dsimp only
  split
  · rename_i form operands found
    obtain ⟨deep, lines⟩ := unfolds form operands found
    split
    · rename_i below
      exact failsWith_fail (deep below)
    · rename_i above
      exact lines (by omega)
  · split
    · exact failsWith_statement (fun ts => .instructionStep isa t) fun e reported =>
        fine e (reported.mono (List.append_subset.mpr ⟨line, stop⟩))
    · exact failsWith_fail (fine _ ((reported_noFormError t _).mono line))

/-- A line fails as a reader of its tokens does, unless its pseudo-instruction fails otherwise. -/
theorem failsWith_readLine (fine : ∀ e, Reported ts e → P e) (pseudo : ∀ front t rest, ts = front ++ t :: rest →
      t.kind = .pseudoOp → (readPseudo isa readLines t rest).FailsWith P) :
      (readLine isa readLines ts).FailsWith P := by
  induction ts using readLine.induct with
  | case1 => exact failsWith_done
  | case2 t ts kind ih =>
    rw [readLine_comment _ kind]
    exact ih (fun e reported => fine e (reported.mono (List.subset_cons_self ..)))
      fun front u rest split => pseudo (t :: front) u rest (by rw [split, List.cons_append])
  | case3 t ts kind ih =>
    rw [readLine_separator _ kind]
    exact ih (fun e reported => fine e (reported.mono (List.subset_cons_self ..)))
      fun front u rest split => pseudo (t :: front) u rest (by rw [split, List.cons_append])
  | case4 t kind =>
    rw [readLine.eq_def]
    simp only [kind]
    exact failsWith_fail (fine _ (.unexpected ..))
  | case5 t kind colon ts marked ih =>
    rw [readLine_label _ kind marked]
    exact ih (fun e reported =>
      fine e (reported.mono fun u member => List.mem_cons_of_mem _ (List.mem_cons_of_mem _ member)))
      fun front u rest split =>
        pseudo (t :: colon :: front) u rest (by rw [split, List.cons_append, List.cons_append])
  | case6 t kind colon ts marked =>
    rw [readLine.eq_def]
    simp only [kind, if_neg marked]
    exact failsWith_fail (fine _ (reported_refused (List.mem_cons_of_mem _ List.mem_cons_self) _))
  | case7 t ts kind =>
    rw [readLine_opcode _ kind]
    exact failsWith_statement (fun ts => .instructionStep isa t) fun e reported =>
      fine e (reported.mono (List.subset_cons_self ..))
  | case8 t ts kind =>
    rw [readLine_pseudoOp _ kind]
    exact pseudo [] t ts rfl kind
  | case9 t ts kind =>
    rw [readLine.eq_def]
    simp only [kind]
    exact failsWith_statement (fun ts => .directive t) fun e reported =>
      fine e (reported.mono (List.subset_cons_self ..))
  | case10 t ts =>
    have refused : readLine isa readLines (t :: ts) = .fail (t.refused .statement) := by
      rw [readLine.eq_def]
      cases kind : t.kind <;> simp_all
    rw [refused]
    exact failsWith_fail (fine _ (reported_refused List.mem_cons_self _))

/-- A list fails as its lines do. -/
theorem failsWith_readTokens {n : Nat}
    (each : ∀ l ∈ Token.lines ts, (readLine isa (readTokens isa n) l).FailsWith P) :
    (readTokens isa (n + 1) ts).FailsWith P := by
  rw [readTokens]
  generalize Token.lines ts = ls at each
  induction ls with
  | nil => exact failsWith_done
  | cons l ls ih =>
    obtain ⟨first, others⟩ := List.forall_mem_cons.mp each
    exact first.append (ih others)

/-- What readers report of a list is all that it fails with, next to depth, if the lines of forms that
    it takes do not add to it. -/
theorem failsWith_readTokens_of_reported {P : List Token → Error → Prop} {keeps : Token → Prop}
    (reports : ∀ ts e, Reported ts e → P ts e) (mono : ∀ ts us e, ts ⊆ us → P ts e → P us e)
    (deep : ∀ ts raw pos, P ts ⟨.expansionDepth raw, pos⟩)
    (unfolds : ∀ (t : Token) arguments form operands, (∀ u ∈ arguments, keeps u) →
      matchForm? (isa.forms t.name) arguments = some (form, operands) →
        (∀ u ∈ form.unfold isa operands t, keeps u) ∧ ∀ e, P (form.unfold isa operands t) e → P arguments e)
    (n : Nat) (kept : ∀ t ∈ ts, keeps t) : (readTokens isa n ts).FailsWith (P ts) := by
  induction n generalizing ts with
  | zero => exact failsWith_done
  | succ n ih =>
    refine failsWith_readTokens fun l member => ?_
    have inside : l ⊆ ts := fun t own => mem_of_lines member own
    refine failsWith_readLine (fun e reported => mono l ts e inside (reports l e reported))
      fun front t rest split _ => ?_
    have rest' : rest ⊆ ts := fun u own =>
      inside (by rw [split]; exact List.mem_append_right _ (List.mem_cons_of_mem _ own))
    refine failsWith_readPseudo (fun e reported => mono rest ts e rest' (reports rest e reported))
      fun form operands found => ⟨fun _ => deep ts _ _, fun _ e failed => ?_⟩
    have arguments : Token.uncommented (Token.line rest) ⊆ ts := fun u own =>
      rest' ((List.takeWhile_sublist _).subset (List.mem_filter.mp own).1)
    obtain ⟨kept', back⟩ := unfolds t _ form operands (fun u own => kept u (arguments own)) found
    exact mono _ ts e arguments (back e (ih kept' e failed))

end Runs

end Bisc
