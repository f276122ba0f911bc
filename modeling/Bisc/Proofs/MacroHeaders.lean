import Bisc.Proofs.Cuts
import Bisc.Proofs.StatementGrammar

/-!
Two readers of the header of a macro. One takes the parameters off the line without its comments, by
their places, and wants distinct names; the other reads the line as a statement. They accept the same headers, but
for names that are repeated, and find the same parameters.
-/
namespace Bisc

/-! ## The loop over a header -/

/-- Reads names at even places and commas at odd ones, after the parameters that are known. -/
def parametersFrom : Nat → List String → List Token → Except Error (List String)
  | _, params, [] => .ok params
  | i, params, t :: ts =>
    if i % 2 = 0 ∧ t.isWord then
      if t.raw ∈ params then .error ⟨.duplicateSymbol t.raw, t.pos⟩
      else parametersFrom (i + 1) (params ++ [t.raw]) ts
    else if i % 2 ≠ 0 ∧ t.kind = .comma then parametersFrom (i + 1) params ts
    else .error (t.unexpected (if i % 2 = 0 then .parameterName else .token .comma))

/-- A comma may not be the last token. -/
def noCommaAtEnd (ts : List Token) (params : List String) : Except Error (List String) :=
  match ts.getLast? with
  | some last => if last.kind = .comma then .error ⟨.unexpected .parameterName .endOfLine, last.pos⟩ else .ok params
  | none => .ok params

/-- The parameters that the rest of a header gives. -/
def headerParameters (ts : List Token) : Except Error (List String) := do
  let params ← parametersFrom 0 [] (Token.uncommented ts)
  noCommaAtEnd (Token.uncommented ts) params

section Places

variable {t : Token} {ts : List Token} {known : List String}

theorem parametersFrom_name {i : Nat} (even : i % 2 = 0) : parametersFrom i known (t :: ts) =
    if !t.isWord then .error (t.unexpected .parameterName)
    else if t.raw ∈ known then .error ⟨.duplicateSymbol t.raw, t.pos⟩
    else parametersFrom (i + 1) (known ++ [t.raw]) ts := by
  cases word : t.isWord <;> simp [parametersFrom, even, word]

theorem parametersFrom_comma {i : Nat} (odd : i % 2 = 1) : parametersFrom i known (t :: ts) =
    if t.kind = .comma then parametersFrom (i + 1) known ts else .error (t.unexpected (.token .comma)) := by
  simp [parametersFrom, odd]

theorem noCommaAtEnd_append {front : List Token} (more : ts ≠ []) : noCommaAtEnd (front ++ ts) = noCommaAtEnd ts := by
  funext params
  rw [noCommaAtEnd, List.getLast?_append_of_ne_nil _ more]
  rfl

end Places

/-- From an even place on, names and commas are read in pairs. -/
theorem parametersFrom_eq {i : Nat} (even : i % 2 = 0) {known seen : List String} (same : ∀ p, p ∈ known ↔ p ∈ seen)
    (ts : List Token) : parametersFrom i known ts >>= noCommaAtEnd ts = (readParams seen ts).map (known ++ ·) := by
  fun_induction readParams seen ts generalizing i known with
  | case1 =>
    change Except.ok known = .ok (known ++ [])
    rw [List.append_nil]
  | case2 seen t other | case5 seen t comma ts other =>
    rw [parametersFrom_name even, if_pos other]
    rfl
  | case3 seen t word again | case6 seen t comma ts word again =>
    rw [parametersFrom_name even, if_neg word, if_pos ((same _).mpr again)]
    rfl
  | case4 seen t word new =>
    have plain : t.kind ≠ .comma := fun comma => by simp [Token.isWord, comma, TokenKind.isWord] at word
    rw [parametersFrom_name even, if_neg word, if_neg fun again => new ((same _).mp again)]
    exact if_neg plain
  | case7 seen t comma ts word new other =>
    rw [parametersFrom_name even, if_neg word, if_neg fun again => new ((same _).mp again),
      parametersFrom_comma (by omega), if_neg other]
    rfl
  | case8 seen t comma ts word new parted none =>
    have parted : comma.kind = .comma := by simpa using parted
    rw [parametersFrom_name even, if_neg word, if_neg fun again => new ((same _).mp again),
      parametersFrom_comma (by omega), if_pos parted, List.isEmpty_iff.mp none]
    exact if_pos parted
  | case9 seen t comma ts word new parted more ih =>
    have parted : comma.kind = .comma := by simpa using parted
    have more : ts ≠ [] := by simpa using more
    have last : noCommaAtEnd (t :: comma :: ts) = noCommaAtEnd ts := @noCommaAtEnd_append ts [t, comma] more
    have grown : ∀ p, p ∈ known ++ [t.raw] ↔ p ∈ t.raw :: seen := by simp [same, or_comm]
    rw [parametersFrom_name even, if_neg word, if_neg fun again => new ((same _).mp again),
      parametersFrom_comma (by omega), if_pos parted, last, ih (by omega) grown]
    cases readParams (t.raw :: seen) ts <;> simp [Except.map]

/-- The loop over the places gives the parameters that are read in pairs, with the same errors. -/
theorem headerParameters_eq (ts : List Token) : headerParameters ts = readParams [] (Token.uncommented ts) := by
  rw [headerParameters, parametersFrom_eq rfl fun _ => Iff.rfl]
  cases readParams [] (Token.uncommented ts) <;> rfl

/-! ## Parameters -/

/-- The parameters of a macro: none, or words with commas between them. -/
def AreParameters (ts : List Token) (params : List String) : Prop :=
  ts = [] ∧ params = [] ∨ CommaList IsWordText ts params

/-- A list of words begins with a word, and goes on behind a comma or not at all. -/
theorem commaList_word {t : Token} {ts : List Token} {params : List String} : CommaList IsWordText (t :: ts) params ↔
    t.isWord ∧ (ts = [] ∧ params = [t.raw] ∨
      ∃ comma us later, ts = comma :: us ∧ comma.kind = .comma ∧ CommaList IsWordText us later ∧
        params = t.raw :: later) := by
  constructor
  · intro listed
    generalize whole : t :: ts = all at listed
    cases listed with
    | last shape =>
      obtain ⟨u, rfl, word, rfl⟩ := shape
      cases whole
      exact ⟨word, .inl ⟨rfl, rfl⟩⟩
    | cons shape parted rest =>
      obtain ⟨u, rfl, word, rfl⟩ := shape
      cases whole
      exact ⟨word, .inr ⟨_, _, _, rfl, parted, rest, rfl⟩⟩
  · rintro ⟨word, ⟨rfl, rfl⟩ | ⟨comma, us, later, rfl, parted, rest, rfl⟩⟩
    · exact .last ⟨t, rfl, word, rfl⟩
    · exact .cons ⟨t, rfl, word, rfl⟩ parted rest

theorem not_commaList_nil {params : List String} : ¬CommaList IsWordText [] params := by
  intro listed
  generalize whole : [] = all at listed
  cases listed with
  | last shape =>
    obtain ⟨u, rfl, -⟩ := shape
    cases whole
  | cons => simp at whole

/-- The parameters that are read off a line are those of the grammar, with distinct names that were
    not seen before. -/
theorem readParams_eq_ok {seen : List String} {ts : List Token} {params : List String} :
    readParams seen ts = .ok params ↔ AreParameters ts params ∧ params.Nodup ∧ ∀ p ∈ params, p ∉ seen := by
  fun_induction readParams seen ts generalizing params with
  | case1 seen =>
    simp only [Except.ok.injEq, AreParameters, true_and, not_commaList_nil, or_false]
    constructor
    · rintro rfl
      simp
    · rintro ⟨rfl, -⟩
      rfl
  | case2 seen t other => simp_all [AreParameters, commaList_word]
  | case3 seen t word known => simp_all [AreParameters, commaList_word]
  | case4 seen t word new =>
    simp only [Except.ok.injEq, AreParameters, commaList_word, reduceCtorEq, false_and, false_or,
      exists_false, or_false, true_and]
    constructor
    · rintro rfl
      exact ⟨⟨by simpa using word, rfl⟩, List.nodup_singleton _, by simpa using new⟩
    · rintro ⟨⟨-, rfl⟩, -⟩
      rfl
  | case5 seen t comma ts other => simp_all [AreParameters, commaList_word]
  | case6 seen t comma ts word known =>
    simp only [reduceCtorEq, AreParameters, commaList_word, false_and, false_or, false_iff]
    rintro ⟨⟨-, _, _, _, -, -, -, rfl⟩, -, fresh⟩
    exact fresh t.raw List.mem_cons_self known
  | case7 seen t comma ts word new other => simp_all [AreParameters, commaList_word]
  | case8 seen t comma ts word new parted none => simp_all [AreParameters, commaList_word, not_commaList_nil]
  | case9 seen t comma ts word new parted more ih =>
    have more : ts ≠ [] := by simpa using more
    simp only [map_eq_ok, ih, AreParameters, commaList_word, more, reduceCtorEq, false_and, false_or]
    constructor
    · rintro ⟨later, ⟨listed, distinct, fresh⟩, rfl⟩
      have other : t.raw ∉ later := fun again => fresh _ again List.mem_cons_self
      refine ⟨⟨by simpa using word, comma, ts, later, rfl, by simpa using parted, listed, rfl⟩, ?_, ?_⟩
      · exact List.nodup_cons.mpr ⟨other, distinct⟩
      · exact List.forall_mem_cons.mpr ⟨new, fun p member known => fresh p member (List.mem_cons_of_mem _ known)⟩
    · rintro ⟨⟨-, _, _, later, same, -, listed, rfl⟩, distinct, fresh⟩
      cases same
      obtain ⟨other, distinct⟩ := List.nodup_cons.mp distinct
      refine ⟨later, ⟨listed, distinct, fun p member again => ?_⟩, rfl⟩
      rcases List.mem_cons.mp again with rfl | known
      · exact other member
      · exact fresh p (List.mem_cons_of_mem _ member) known

/-! ## Headers -/

/-- What a line has without a comment at its end is before the end of the line. -/
theorem uncommented_lineEnd {ts rest behind : List Token} (last : ∀ t ∈ ts.dropLast, t.isComment = false)
    (stop : LineStop rest behind) : ∃ rest', ts ++ rest = Token.uncommented ts ++ rest' ∧ LineEnd rest' behind := by
  rcases List.eq_nil_or_concat' ts with rfl | ⟨front, t, rfl⟩
  · exact ⟨rest, rfl, .plain stop⟩
  · rw [List.dropLast_concat] at last
    rw [Token.uncommented_append, Token.uncommented_of_plain last]
    cases comment : t.isComment with
    | true => exact ⟨t :: rest, by simp [Token.uncommented, comment], .commented comment stop⟩
    | false => exact ⟨rest, by simp [Token.uncommented, comment], .plain stop⟩

section Header

variable {dot word name : Token} (named : word.isWord) (header : word.name = "macro") (defined : name.isWord)
  {ts rest behind : List Token} (inline : ∀ t ∈ ts, t.isSeparator = false)
  (last : ∀ t ∈ ts.dropLast, t.isComment = false)
  (stop : LineStop rest behind)
include named header defined inline last stop

/-- A header is accepted as a statement exactly if its parameters are those of the grammar. -/
theorem statement_macroHeader (params : List String) (start : Position) :
    Reader.statement (Reader.directive dot) ⟨word :: name :: (ts ++ rest), start⟩ =
        ⟨[.item { node := .macroRecord name.raw params, pos := dot.pos }], none⟩ ↔
        AreParameters (Token.uncommented ts) params := by
  obtain ⟨rest', whole, ends⟩ := uncommented_lineEnd last stop
  have known : directiveTable.lookup word.name = some .macroHeader := by rw [header]; rfl
  rw [statement_directive_iff, whole]
  constructor
  · rintro ⟨word', d, us, rest'', behind', split, -, known', operands, ends'⟩
    obtain ⟨rfl, arguments⟩ := List.cons.inj split
    cases known.symm.trans known'
    generalize given : [Step.item { node := .macroRecord name.raw params, pos := dot.pos }] = ss at operands
    have marked := marked_of_lineEnd ends
    have marked' := marked_of_lineEnd ends'
    have unmarked := unmarked_uncommented inline
    cases operands with
    | macroHeader =>
      obtain ⟨rfl, cut⟩ := List.cons.inj arguments
      cases given
      exact .inl ⟨(cut_at_mark cut unmarked (by simp) marked marked').1, rfl⟩
    | macroParameters _ listed =>
      obtain ⟨rfl, cut⟩ := List.cons.inj arguments
      cases given
      have plain := listed.forall (P := fun t => t.kind.isMark = false)
        (fun t comma => by simp [comma, TokenKind.isMark]) ?_
      · exact .inr ((cut_at_mark cut unmarked plain marked marked').1 ▸ listed)
      · rintro us raw ⟨t, rfl, word, -⟩ u own
        rw [List.mem_singleton] at own
        by_contra mark
        rw [own, Bool.not_eq_false] at mark
        rw [Token.isWord_of_isMark mark] at word
        cases word
  · rintro (⟨none, rfl⟩ | listed)
    · exact ⟨word, .macroHeader, [name], rest', behind, by rw [none]; rfl, named, known, .macroHeader defined, ends⟩
    · exact ⟨word, .macroHeader, name :: Token.uncommented ts, rest', behind, rfl, named, known,
        .macroParameters defined listed, ends⟩

end Header

/-- The two readers of a header agree: parameters are read off the line, name by name or in pairs,
    exactly if the statement is accepted with these parameters and no name is repeated. So the record
    of a macro that was defined has the parameters that its invocations bind. -/
theorem macro_headers_agree {dot word name : Token} (dotted : dot.kind = .directive) (named : word.isWord)
    (header : word.name = "macro")
    (defined : name.isWord) {ts rest behind : List Token} (inline : ∀ t ∈ ts, t.isSeparator = false)
    (last : ∀ t ∈ ts.dropLast, t.isComment = false) (stop : LineStop rest behind) (start : Position) :
    headerParameters ts = readParams [] (Token.uncommented ts) ∧
    (∀ params, readParams [] (Token.uncommented ts) = .ok params ↔
      Reader.statement (Reader.directive dot) ⟨word :: name :: (ts ++ rest), start⟩ =
        ⟨[.item { node := .macroRecord name.raw params, pos := dot.pos }], none⟩ ∧ params.Nodup) ∧
    ∀ segment, readMacroDefinition dot (word :: name :: (ts ++ rest)) = .ok segment →
      ∃ params kept body, segment = .macroDefinition name params kept body ∧ ∀ isa readLines,
        readLine isa readLines kept = ⟨[.item { node := .macroRecord name.raw params, pos := dot.pos }], none⟩ := by
  refine ⟨headerParameters_eq ts, ?_, ?_⟩
  · intro params
    rw [readParams_eq_ok, statement_macroHeader named header defined inline last stop]
    simp
  · intro segment read
    obtain ⟨name', params, n, found, parameters, -, rfl⟩ := readMacroDefinition_eq_ok.mp read
    have same : name' = name := by
      rw [List.drop_succ_cons, List.drop_zero, definitionName, if_pos defined] at found
      exact (Except.ok.inj found).symm
    have inline' : ∀ t ∈ dot :: word :: name :: ts, t.isSeparator = false := by
      refine List.forall_mem_cons.mpr ⟨by simp [Token.isSeparator, dotted], ?_⟩
      exact List.forall_mem_cons.mpr ⟨Token.isSeparator_of_isWord named, List.forall_mem_cons.mpr
        ⟨Token.isSeparator_of_isWord defined, inline⟩⟩
    obtain ⟨line, after⟩ := line_of_stop inline' stop
    simp only [List.cons_append] at line after
    rw [line, List.drop_succ_cons, List.drop_succ_cons, List.drop_succ_cons, List.drop_zero] at parameters
    refine ⟨params, _, _, by rw [same], fun isa readLines => ?_⟩
    rw [line, after, List.cons_append, List.cons_append, List.cons_append, readLine_directive dotted]
    exact (statement_macroHeader named header defined inline last stop.take params _).mpr
      (readParams_eq_ok.mp parameters).1

/-- The rest of a header with a mnemonic and a register as names of parameters, and a comment. -/
private def mnemonicParameters : List Token := [⟨.pseudoOp, "add", none, ⟨1, 10⟩, 0⟩, ⟨.comma, ",", none, ⟨1, 13⟩, 0⟩,
  ⟨.register, "R1", some 1, ⟨1, 15⟩, 0⟩, ⟨.comma, ",", none, ⟨1, 17⟩, 0⟩, ⟨.register, "r1", some 1, ⟨1, 19⟩, 0⟩,
  ⟨.comment, "; x", none, ⟨1, 22⟩, 0⟩]

/-- Names that differ in case only are distinct, so the header is accepted by both. -/
theorem macro_headers_agree_mnemonicParameters :
    readParams [] (Token.uncommented mnemonicParameters) = .ok ["add", "R1", "r1"] ∧
    Reader.statement (Reader.directive ⟨.directive, ".", none, ⟨1, 1⟩, 0⟩) ⟨⟨.identifier, "Macro", none, ⟨1, 2⟩, 0⟩ ::
        ⟨.identifier, "m", none, ⟨1, 8⟩, 0⟩ :: (mnemonicParameters ++ [Token.separator ⟨1, 25⟩ 0]), ⟨1, 1⟩⟩ =
      ⟨[.item { node := .macroRecord "m" ["add", "R1", "r1"], pos := ⟨1, 1⟩ }], none⟩ := by
  have read : readParams [] (Token.uncommented mnemonicParameters) = .ok ["add", "R1", "r1"] := by decide
  obtain ⟨-, agree, -⟩ := @macro_headers_agree ⟨.directive, ".", none, ⟨1, 1⟩, 0⟩
    ⟨.identifier, "Macro", none, ⟨1, 2⟩, 0⟩ ⟨.identifier, "m", none, ⟨1, 8⟩, 0⟩ rfl rfl (by decide) rfl
    mnemonicParameters [Token.separator ⟨1, 25⟩ 0] [] (by decide) (by decide) (.separator rfl) ⟨1, 1⟩
  exact ⟨read, ((agree _).mp read).1⟩

end Bisc
