import Bisc.Proofs.Loop
import Bisc.Proofs.QueueReaders
import Bisc.Proofs.Template

/-!
Reading as a loop over one queue of tokens. Every reader takes its tokens off the front of the queue,
the next round starts where the last reader stopped, and the lines of a pseudo-instruction are put
back in front. No reader goes beyond its line, so the steps are those of the lines, one after the
other. Whatever the lines of a form invoke, even the form itself, the loop comes to an end: a
mnemonic is traded for tokens of the next depth, and at the greatest depth nothing is unfolded any
more. So the bound on nesting that the recursion over lines has is never met.
-/
namespace Bisc

/-- The state of a reading: the queue, and the steps that have been given. -/
structure Reading where
  queue : Cursor
  out : List Step

/-- The beginning of a reading. -/
def Reading.start (ts : List Token) : Reading := ⟨⟨ts, ⟨1, 1⟩⟩, []⟩

/-- A pseudo-instruction on the queue, after its mnemonic `t`. The lines that it stands for go in
    front of the queue, and its arguments and the separator go back if it has to be a real instruction. -/
def pseudoOn (isa : InstructionSet) (t : Token) (c : Cursor) : Run Step × Cursor :=
  let taken := takeLine c.last c.rest
  match matchForm? (isa.forms t.name) taken.arguments with
  | some (form, operands) =>
    if t.depth ≥ maxDepth then (.fail ⟨.expansionDepth t.raw, t.pos⟩, taken.cursor)
    else
      (⟨[.unfolded t.pos t.name operands form], none⟩,
        ⟨form.unfold isa operands t ++ taken.cursor.rest, taken.cursor.last⟩)
  | none =>
    if (isa.opcode? t.name).isSome then
      Reader.statementOn (instructionStep isa t)
        ⟨taken.arguments ++ (taken.stop.toList ++ taken.cursor.rest), taken.cursor.last⟩
    else (.fail (noFormError t taken.arguments), taken.cursor)

/-- What the token `t` begins on the queue. -/
def itemOn (isa : InstructionSet) (t : Token) (c : Cursor) : Run Step × Cursor :=
  match t.kind with
  | .comment | .lineSeparator => (.done, c)
  | .identifier =>
    match Reader.expect .colon c with
    | .error e => (.fail e, c)
    | .ok (_, d) => (⟨[.item { node := .label t.raw, pos := t.pos }], none⟩, d)
  | .opcode => Reader.statementOn (instructionStep isa t) c
  | .directive => Reader.directiveOn t c
  | .pseudoOp => pseudoOn isa t c
  | _ => (.fail (t.refused .statement), c)

/-- A round of a reading takes what begins at the front of the queue, and stops at an error or when
    the queue is empty. -/
def readingRound (isa : InstructionSet) (s : Reading) : Round Reading (Run Step) :=
  match s.queue.rest with
  | [] => .stop ⟨s.out, none⟩
  | t :: rest =>
    let (read, queue) := itemOn isa t ⟨rest, t.pos⟩
    match read.failure with
    | some e => .stop ⟨s.out ++ read.out, some e⟩
    | none => .again ⟨queue, s.out ++ read.out⟩

/-- The program of a token list or its error, as the loop gives it. -/
def Parses (isa : InstructionSet) (ts : List Token) (result : Except Error Program) : Prop :=
  ∃ run, Halts (readingRound isa) (.start ts) run ∧ programOf run = result

/-! ## First lines -/

namespace Token

variable {t : Token} {ts : List Token}

theorem behindLine_suffix (ts : List Token) : behindLine ts <:+ ts := drop_afterLine_suffix ts

theorem firstLine_inline (inline : t.isSeparator = false) : firstLine (t :: ts) = t :: firstLine ts := by
  simp [firstLine, line, afterLine, inline]
theorem behindLine_inline (inline : t.isSeparator = false) : behindLine (t :: ts) = behindLine ts := by
  simp [behindLine, afterLine, inline]
theorem firstLine_separator (ends : t.isSeparator) : firstLine (t :: ts) = [t] := by
  simp [firstLine, line, afterLine, ends]
theorem behindLine_separator (ends : t.isSeparator) : behindLine (t :: ts) = ts := by
  simp [behindLine, afterLine, ends]

theorem line_firstLine (ts : List Token) : line (firstLine ts) = line ts := by
  have front := (endsLine_firstLine ts).alone.line_append (inline_of_line ts)
  rwa [List.append_nil] at front

theorem afterLine_firstLine (ts : List Token) : afterLine (firstLine ts) = (afterLine ts).take 1 := by
  have back := (endsLine_firstLine ts).alone.afterLine_append (inline_of_line ts)
  rwa [List.append_nil] at back

end Token

theorem lines_of_inline {t : Token} {ts : List Token} (inline : ∀ u ∈ t :: ts, u.isSeparator = false) :
    Token.lines (t :: ts) = [t :: ts] := by
  induction ts generalizing t with
  | nil => simp [Token.lines, inline t List.mem_cons_self]
  | cons u ts ih =>
    rw [Token.lines, if_neg (by simp [inline t List.mem_cons_self]),
      ih fun v member => inline v (List.mem_cons_of_mem _ member)]

section Rounds

variable {isa : InstructionSet}

/-- A list is read as its first line, and then what is behind it. -/
theorem readTokens_firstLine (n : Nat) (ts : List Token) : readTokens isa (n + 1) ts =
    readLine isa (readTokens isa n) (Token.firstLine ts) ++ readTokens isa (n + 1) (Token.behindLine ts) := by
  have inline := Token.inline_of_line ts
  have whole := Token.line_append_afterLine ts
  cases found : Token.afterLine ts with
  | nil =>
    rw [found, List.append_nil] at whole
    rw [Token.firstLine, Token.behindLine, found, List.take_nil, List.drop_nil, List.append_nil, whole]
    rw [whole] at inline
    cases ts with
    | nil => rfl
    | cons t ts =>
      rw [readTokens, lines_of_inline inline]
      rfl
  | cons stop us =>
    have terminated : Terminated (Token.line ts ++ [stop]) := ⟨_, stop, inline, Token.afterLine_head found, rfl⟩
    have lines := @readTokens_line isa n _ terminated us
    rw [List.append_assoc, List.singleton_append, ← found, whole] at lines
    rw [Token.firstLine, Token.behindLine, found]
    exact lines

/-- Only the lines of pseudo-instructions that are not too deep are read on. -/
theorem readLine_congr {readLines readLines' : List Token → Run Step} {l : List Token}
    (same : ∀ t ∈ l, t.depth < maxDepth → ∀ form operands,
      readLines (PseudoForm.unfold isa form operands t) = readLines' (PseudoForm.unfold isa form operands t)) :
    readLine isa readLines l = readLine isa readLines' l := by
  induction l using readLine.induct with
  | case1 => rfl
  | case2 t ts kind ih =>
    rw [readLine_comment _ kind, readLine_comment _ kind, ih fun u member => same u (List.mem_cons_of_mem _ member)]
  | case3 t ts kind ih =>
    rw [readLine_separator _ kind, readLine_separator _ kind,
      ih fun u member => same u (List.mem_cons_of_mem _ member)]
  | case5 t kind colon ts marked ih =>
    rw [readLine_label _ kind marked, readLine_label _ kind marked,
      ih fun u member => same u (List.mem_cons_of_mem _ (List.mem_cons_of_mem _ member))]
  | case8 t ts kind =>
    rw [readLine_pseudoOp _ kind, readLine_pseudoOp _ kind, readPseudo, readPseudo]
    split
    · rename_i form operands _
      by_cases deep : t.depth ≥ maxDepth
      · rw [if_pos deep, if_pos deep]
      · rw [if_neg deep, if_neg deep, same t List.mem_cons_self (by omega)]
    · rfl
  | _ => simp_all [readLine.eq_def]

/-! ## Lines of forms -/

theorem inline_of_tokensFrom {line column skip : Nat} {text : List Char} :
    ∀ t ∈ tokensFrom isa line column skip text, t.isSeparator = false := by
  intro t member
  obtain ⟨c, cs, x, column', -, -, rfl, -, rfl⟩ := isLexemeOf_of_tokensFrom member
  rcases Lexeme.scan_cases isa c cs with ⟨-, comment⟩ | ⟨-, word⟩ | ⟨-, -, other⟩
  · simp [Token.isSeparator, comment]
  · have own := Lexeme.classify_isWord isa (c :: cs.takeWhile isWordChar)
    rw [word]
    cases kind : (Lexeme.classify isa (c :: cs.takeWhile isWordChar)).1 <;> simp_all [Token.isSeparator,
      TokenKind.isWord]
  · simpa [Token.isSeparator] using other

theorem unfold_eq_produced (form : PseudoForm) (operands : List String) (origin : Token) :
    form.unfold isa operands origin = (form.template.map fun line => Token.produced origin.pos (origin.depth + 1)
      (tokenizeLine isa (PseudoForm.fill operands line) origin.pos.line)).flatten := by
  rw [PseudoForm.unfold, List.flatMap_def]
  congr 2
  funext line
  rw [List.map_append]
  rfl

theorem terminated_line (pos : Position) (depth : Nat) {body : List Token}
    (inline : ∀ t ∈ body, t.isSeparator = false) :
    Terminated (Token.produced pos depth body) := by
  refine ⟨_, _, ?_, rfl, rfl⟩
  rw [List.forall_mem_map]
  exact inline

/-- A form stands for whole lines. -/
theorem terminated_of_unfold (form : PseudoForm) (operands : List String) (origin : Token) :
    ∀ l ∈ form.template.map fun line => Token.produced origin.pos (origin.depth + 1)
      (tokenizeLine isa (PseudoForm.fill operands line) origin.pos.line), Terminated l := by
  rw [List.forall_mem_map]
  intro line member
  exact terminated_line _ _ inline_of_tokensFrom

theorem readTokens_whole (n : Nat) {ls : List (List Token)} (whole : ∀ l ∈ ls, Terminated l) (us : List Token) :
    readTokens isa (n + 1) (ls.flatten ++ us) = readTokens isa (n + 1) ls.flatten ++ readTokens isa (n + 1) us := by
  induction ls with
  | nil => rfl
  | cons l ls ih =>
    obtain ⟨first, others⟩ := List.forall_mem_cons.mp whole
    rw [List.flatten_cons, List.append_assoc, readTokens_line n first, readTokens_line n first,
      ih others, Run.append_assoc]

theorem readTokens_unfold (n : Nat) (form : PseudoForm) (operands : List String) (t : Token) (us : List Token) :
    readTokens isa (n + 1) (form.unfold isa operands t ++ us) =
      readTokens isa (n + 1) (form.unfold isa operands t) ++ readTokens isa (n + 1) us := by
  rw [unfold_eq_produced]
  exact readTokens_whole n (terminated_of_unfold form operands t) us

theorem depth_of_unfold {form : PseudoForm} {operands : List String} {origin t : Token}
    (member : t ∈ form.unfold isa operands origin) : t.depth = origin.depth + 1 := by
  obtain ⟨line, -, inside⟩ := List.mem_flatMap.mp member
  obtain ⟨u, -, rfl⟩ := List.mem_map.mp inside
  rfl

theorem wellSpelled_of_unfold (form : PseudoForm) (operands : List String) (origin : Token) :
    ∀ u ∈ form.unfold isa operands origin, u.WellSpelled isa := by
  intro u member
  obtain ⟨line, -, produced⟩ := List.mem_flatMap.mp member
  obtain ⟨v, own, rfl⟩ := List.mem_map.mp produced
  refine Token.wellSpelled_retag _ _ ?_
  rcases List.mem_append.mp own with lexed | stop
  · exact wellSpelled_of_tokensFrom lexed
  · rw [List.mem_singleton.mp stop]
    intro code
    cases code

/-- The bound on nesting does not matter once it is as great as the depths allow. -/
theorem readTokens_succ (n : Nat) {ts : List Token} (enough : ∀ t ∈ ts, maxDepth ≤ t.depth + n) :
    readTokens isa (n + 2) ts = readTokens isa (n + 1) ts := by
  induction n generalizing ts with
  | zero =>
    rw [readTokens, readTokens]
    refine congrArg _ (List.map_congr_left fun l member => readLine_congr fun t inside shallow => ?_)
    have := enough t (mem_of_lines member inside)
    omega
  | succ n ih =>
    rw [readTokens, readTokens]
    refine congrArg _ (List.map_congr_left fun l member =>
      readLine_congr fun t inside shallow form operands => ih fun u new => ?_)
    have := enough t (mem_of_lines member inside)
    rw [depth_of_unfold new]
    omega

/-! ## One round -/

theorem steps_firstLine (ts : List Token) : steps isa ts =
    readLine isa (readTokens isa maxDepth) (Token.firstLine ts) ++ steps isa (Token.behindLine ts) :=
  readTokens_firstLine _ _

/-- The lines of a form are read in the place of the mnemonic. -/
theorem steps_unfold (form : PseudoForm) (operands : List String) (t : Token) (us : List Token) :
    steps isa (form.unfold isa operands t ++ us) =
      readTokens isa maxDepth (form.unfold isa operands t) ++ steps isa us := by
  -- The lines are left one level less than the list has, and they are one level deeper.
  have enough : ∀ u ∈ form.unfold isa operands t, maxDepth ≤ u.depth + 63 := by
    intro u member
    rw [depth_of_unfold member]
    simp [maxDepth]
  rw [steps, readTokens_unfold, ← steps]
  exact congrArg (· ++ _) (readTokens_succ 63 enough)

theorem expect_run (kind : TokenKind) (t : Token) (ts : List Token) (last : Position) :
    Reader.expect kind ⟨t :: ts, last⟩ =
      if t.kind = kind then .ok (t, ⟨ts, t.pos⟩) else .error (t.refused (.token kind)) := by
  change (if _ then _ else _ : Reader Token) _ = _
  split <;> rfl

/-- What is read off the queue and then off what is behind the line is what the line and the lines behind it give. -/
theorem ReadsLine.append_steps {behind : List Token} {line : Run Step} {queue : Run Step × Cursor}
    (read : ReadsLine behind line queue) : line ++ steps isa behind = queue.1 ++ steps isa queue.2.rest := by
  rw [read.run]
  cases ended : line.failure with
  | some e => rw [Run.append_of_failure ended, Run.append_of_failure ended]
  | none => rw [read.rest ended]

/-- Arguments in no form are read as a real instruction, from the queue into which they went back. -/
theorem readsLine_pseudoOn {t : Token} {rest : List Token}
    (unmatched : matchForm? (isa.forms t.name) (Token.uncommented (Token.line rest)) = none)
    (readLines : List Token → Run Step) :
    ReadsLine (Token.behindLine rest) (readPseudo isa readLines t (Token.firstLine rest))
      (pseudoOn isa t ⟨rest, t.pos⟩) := by
  have ends := endsLine_firstLine rest
  unfold pseudoOn readPseudo
  simp only [takeLine_eq, Token.line_firstLine, Token.afterLine_firstLine, unmatched]
  split
  · have inline : ∀ u ∈ Token.uncommented (Token.line rest), u.isSeparator = false := fun u member =>
      Token.inline_of_line rest u (List.mem_filter.mp member).1
    have inside : Cursor.InLine ((Token.afterLine rest).take 1)
        ⟨Token.uncommented (Token.line rest) ++ (Token.afterLine rest).take 1,
          ((Token.firstLine rest).getLast?.map Token.pos).getD t.pos⟩ := ⟨_, inline, rfl⟩
    have read := readsLine_statement ends (stays_instructionStep ends isa t) inside
    have stop : ((Token.afterLine rest).take 1).take 1 = (Token.afterLine rest).take 1 := by
      rw [List.take_take, Nat.min_self]
    have back : (Token.afterLine rest).head?.toList = (Token.afterLine rest).take 1 := by
      cases Token.afterLine rest <;> rfl
    rw [Cursor.before, List.append_assoc] at read
    rw [stop, back]
    exact read
  · exact ⟨rfl, fun impossible => by cases impossible⟩

/-- The steps of a list are those of what its first token begins, and of the queue that is left then. -/
theorem steps_itemOn (t : Token) (rest : List Token) : steps isa (t :: rest) =
    (itemOn isa t ⟨rest, t.pos⟩).1 ++ steps isa (itemOn isa t ⟨rest, t.pos⟩).2.rest := by
  have line (inline : t.isSeparator = false) : steps isa (t :: rest) =
      readLine isa (readTokens isa maxDepth) (t :: Token.firstLine rest) ++ steps isa (Token.behindLine rest) := by
    rw [steps_firstLine, Token.firstLine_inline inline, Token.behindLine_inline inline]
  unfold itemOn
  cases kind : t.kind with
  | comment =>
    rw [line (by simp [Token.isSeparator, kind]), readLine_comment _ kind, ← steps_firstLine]
    rfl
  | lineSeparator =>
    have ends : t.isSeparator := by simp [Token.isSeparator, kind]
    rw [steps_firstLine, Token.firstLine_separator ends, Token.behindLine_separator ends, readLine_separator _ kind]
    rfl
  | identifier =>
    rw [line (by simp [Token.isSeparator, kind])]
    cases rest with
    | nil =>
      rw [readLine.eq_def]
      simp only [kind]
      rfl
    | cons colon ts =>
      by_cases marked : colon.kind = .colon
      · have inline : colon.isSeparator = false := by simp [Token.isSeparator, marked]
        rw [Token.firstLine_inline inline, Token.behindLine_inline inline,
          readLine_label _ kind marked, Run.cons_append, ← steps_firstLine]
        simp only [expect_run, if_pos marked]
        rfl
      · obtain ⟨more, first⟩ : ∃ more, Token.firstLine (colon :: ts) = colon :: more := by
          by_cases ends : colon.isSeparator
          · exact ⟨[], Token.firstLine_separator ends⟩
          · exact ⟨_, Token.firstLine_inline (by simpa using ends)⟩
        rw [first, readLine.eq_def]
        simp only [kind, expect_run, if_neg marked, Run.fail_append]
  | opcode =>
    rw [line (by simp [Token.isSeparator, kind]), readLine_opcode _ kind]
    exact (readsLine_firstLine (fun _ _ ends => stays_instructionStep ends isa t) rest t.pos).append_steps
  | directive =>
    rw [line (by simp [Token.isSeparator, kind]), readLine.eq_def]
    simp only [kind]
    exact (readsLine_firstLine_directive t rest t.pos).append_steps
  | pseudoOp =>
    rw [line (by simp [Token.isSeparator, kind]), readLine_pseudoOp _ kind]
    cases found : matchForm? (isa.forms t.name) (Token.uncommented (Token.line rest)) with
    | none => exact (readsLine_pseudoOn found _).append_steps
    | some matched =>
      obtain ⟨form, operands⟩ := matched
      unfold readPseudo pseudoOn
      simp only [takeLine_eq, Token.line_firstLine, found]
      by_cases deep : t.depth ≥ maxDepth
      · simp only [if_pos deep, Run.fail_append]
      · simp only [if_neg deep]
        rw [steps_unfold, Run.cons_append]
        rfl
  | _ =>
    rw [line (by simp [Token.isSeparator, kind]), readLine.eq_def]
    simp only [kind, Run.fail_append]

/-- The queue after a round has a lower rank. -/
theorem rank_itemOn {t : Token} {rest : List Token} (ended : (itemOn isa t ⟨rest, t.pos⟩).1.failure = none) :
    Rank.Lt maxDepth (expansionRank (itemOn isa t ⟨rest, t.pos⟩).2.rest) (expansionRank (t :: rest)) := by
  have behind {line : Run Step} {queue : Run Step × Cursor} (read : ReadsLine (Token.behindLine rest) line queue)
      (ended : queue.1.failure = none) : Rank.Lt maxDepth (expansionRank queue.2.rest) (expansionRank (t :: rest)) := by
    rw [read.rest (read.run ▸ ended)]
    exact rank_lt_of_suffix (Token.behindLine_suffix rest)
  unfold itemOn at ended ⊢
  cases kind : t.kind with
  | comment | lineSeparator => exact rank_lt_of_suffix List.suffix_rfl
  | identifier =>
    simp only [kind] at ended ⊢
    cases rest with
    | nil => cases ended
    | cons colon ts =>
      by_cases marked : colon.kind = .colon
      · simp only [expect_run, if_pos marked]
        exact rank_lt_of_suffix (List.suffix_cons _ _)
      · simp only [expect_run, if_neg marked] at ended
        cases ended
  | opcode =>
    simp only [kind] at ended
    exact behind (readsLine_firstLine (fun _ _ ends => stays_instructionStep ends isa t) rest t.pos) ended
  | directive =>
    simp only [kind] at ended
    exact behind (readsLine_firstLine_directive t rest t.pos) ended
  | pseudoOp =>
    simp only [kind] at ended ⊢
    cases found : matchForm? (isa.forms t.name) (Token.uncommented (Token.line rest)) with
    | none => exact behind (readsLine_pseudoOn found fun _ => .done) ended
    | some matched =>
      obtain ⟨form, operands⟩ := matched
      unfold pseudoOn at ended ⊢
      simp only [takeLine_eq, found] at ended ⊢
      by_cases deep : t.depth ≥ maxDepth
      · rw [if_pos deep] at ended
        cases ended
      · rw [if_neg deep]
        exact rank_lt_of_deeper (by omega) (fun u member => depth_of_unfold member) (Token.behindLine_suffix rest)
  | _ =>
    simp only [kind] at ended
    cases ended

end Rounds

/-- What a reading comes to from a state on. -/
def Reading.due (isa : InstructionSet) (s : Reading) : Run Step := ⟨s.out, none⟩ ++ steps isa s.queue.rest

variable {isa : InstructionSet}

theorem readingRound_again {s s' : Reading} (next : readingRound isa s = .again s') :
    Rank.Lt maxDepth (expansionRank s'.queue.rest) (expansionRank s.queue.rest) ∧ s'.due isa = s.due isa := by
  obtain ⟨⟨pending, last⟩, out⟩ := s
  unfold readingRound at next
  cases pending with
  | nil => cases next
  | cons t rest =>
    cases ended : (itemOn isa t ⟨rest, t.pos⟩).1.failure with
    | some e => simp only [ended, reduceCtorEq] at next
    | none =>
      simp only [ended, Round.again.injEq] at next
      subst next
      refine ⟨rank_itemOn ended, ?_⟩
      rw [Reading.due, Reading.due, steps_itemOn t rest, ← Run.append_assoc,
        Run.append_of_done (r := ⟨out, none⟩) rfl, ended]

theorem readingRound_stop {s : Reading} {result : Run Step} (last : readingRound isa s = .stop result) :
    result = s.due isa := by
  obtain ⟨⟨pending, _⟩, out⟩ := s
  unfold readingRound at last
  cases pending with
  | nil =>
    cases last
    exact (Run.append_done _).symm
  | cons t rest =>
    cases ended : (itemOn isa t ⟨rest, t.pos⟩).1.failure with
    | some e =>
      simp only [ended, Round.stop.injEq] at last
      subst last
      rw [Reading.due, steps_itemOn t rest, Run.append_of_failure ended, Run.append_of_done rfl, ended]
    | none => simp only [ended, reduceCtorEq] at last

/-- The steps of a token list are those of the loop. -/
theorem halts_steps (isa : InstructionSet) (ts : List Token) : Halts (readingRound isa) (.start ts) (steps isa ts) := by
  have halts := halts_of_measure (Rank.lt_wf maxDepth) (fun s : Reading => expansionRank s.queue.rest)
    (Reading.due isa) (fun _ _ => readingRound_again) (fun _ _ => readingRound_stop) (.start ts)
  exact halts

/-- The loop gives the program of the token list, or its error. -/
theorem parses_iff (isa : InstructionSet) (ts : List Token) (result : Except Error Program) :
    Parses isa ts result ↔ parse isa ts = result := by
  constructor
  · rintro ⟨run, halts, rfl⟩
    rw [halts.unique (halts_steps isa ts), parse_eq_programOf]
  · rintro rfl
    exact ⟨steps isa ts, halts_steps isa ts, rfl⟩

end Bisc
