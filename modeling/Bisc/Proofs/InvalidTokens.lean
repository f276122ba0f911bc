import Bisc.Proofs.NestingDepth
import Bisc.Proofs.StatementGrammar

/-!
Invalid tokens. Whatever a reader of statements takes means something, but for the value of a
constant, which is kept as text. So an accepted list has invalid tokens in such values only; and
what a form stands for has none, so a token that is reported as invalid is one of the list.
-/
namespace Bisc

/-- After these tokens the value of a constant has begun, on the line that they end with. -/
def InDefinedValue (before : List Token) : Prop :=
  ∃ earlier dot word name value, before = earlier ++ dot :: word :: name :: value ∧ dot.kind = .directive ∧
    (word.isWord ∧ word.name = "define") ∧ name.isWord ∧ ∀ t ∈ value, t.isSeparator = false

/-- Every invalid token is in the value of a constant. -/
def InvalidInValues (ts : List Token) : Prop :=
  ∀ before t after, ts = before ++ t :: after → t.kind = .invalid → InDefinedValue before

/-! ## Accepted lines -/

theorem invalidInValues_of_valid {ts : List Token} (valid : ∀ t ∈ ts, t.kind ≠ .invalid) : InvalidInValues ts := by
  rintro before t after rfl invalid
  exact absurd invalid (valid t (List.mem_append_right _ List.mem_cons_self))

theorem InvalidInValues.append {ts us : List Token} (first : InvalidInValues ts) (second : InvalidInValues us) :
    InvalidInValues (ts ++ us) := by
  intro before t after split invalid
  rcases List.append_eq_append_iff.mp split with ⟨inner, rfl, rest⟩ | ⟨inner, rfl, rest⟩
  · obtain ⟨earlier, dot, word, name, value, rfl, found⟩ := second inner t after rest invalid
    exact ⟨ts ++ earlier, dot, word, name, value, by simp, found⟩
  · cases inner with
    | nil =>
      obtain ⟨earlier, dot, word, name, value, none, -⟩ := second [] t after rest.symm invalid
      simp at none
    | cons u inner =>
      obtain ⟨rfl, -⟩ := List.cons.inj rest
      exact first before t inner rfl invalid

theorem InvalidInValues.cons {t : Token} {ts : List Token} (valid : t.kind ≠ .invalid) (rest : InvalidInValues ts) :
    InvalidInValues (t :: ts) :=
  @InvalidInValues.append [t] ts (invalidInValues_of_valid (by simpa using valid)) rest

theorem invalidInValues_definition {dot word name : Token} {value : List Token}
    (dotted : dot.kind = .directive) (named : word.isWord)
    (define : word.name = "define") (defined : name.isWord) (inline : ∀ t ∈ value, t.isSeparator = false) :
    InvalidInValues (dot :: word :: name :: value) := by
  intro before t after split invalid
  rcases before with _ | ⟨first, _ | ⟨second, _ | ⟨third, before⟩⟩⟩
  · obtain ⟨rfl, -⟩ := List.cons.inj split
    rw [dotted] at invalid
    cases invalid
  · obtain ⟨-, split⟩ := List.cons.inj split
    obtain ⟨rfl, -⟩ := List.cons.inj split
    exact absurd invalid (Token.kind_ne_of_isWord named rfl)
  · obtain ⟨-, split⟩ := List.cons.inj split
    obtain ⟨-, split⟩ := List.cons.inj split
    obtain ⟨rfl, -⟩ := List.cons.inj split
    exact absurd invalid (Token.kind_ne_of_isWord defined rfl)
  · simp only [List.cons_append, List.cons.injEq] at split
    obtain ⟨rfl, rfl, rfl, rfl⟩ := split
    exact ⟨[], dot, word, name, before, rfl, dotted, ⟨named, define⟩, defined, fun u member =>
      inline u (List.mem_append_left _ member)⟩

theorem Token.valid_of_isCode {t : Token} (code : t.kind.isCode) : t.kind ≠ .invalid := by
  intro invalid
  rw [invalid] at code
  cases code

/-- What is behind the operands of a statement on its line means nothing, but is not invalid. -/
theorem valid_of_lineEnd {rest behind : List Token} (ends : LineEnd rest behind)
    (whole : ∀ t ∈ rest.dropLast, t.isSeparator = false) :
    ∀ t ∈ rest, t.kind ≠ .invalid := by
  have stopped {rest : List Token} (stop : LineStop rest behind)
      (whole : ∀ t ∈ rest.dropLast, t.isSeparator = false) :
      ∀ t ∈ rest, t.kind ≠ .invalid := by
    cases stop with
    | ended => simp
    | @separator stop _ separator =>
      cases behind with
      | nil =>
        simp [Token.isSeparator_iff.mp separator]
      | cons u us =>
        have inside := whole stop List.mem_cons_self
        rw [separator] at inside
        cases inside
  cases ends with
  | plain stop => exact stopped stop whole
  | @commented t rest _ comment stop =>
    refine List.forall_mem_cons.mpr ⟨by simp [Token.isComment_iff.mp comment], stopped stop fun u member => ?_⟩
    cases rest with
    | nil => cases member
    | cons v vs => exact whole u (List.mem_cons_of_mem _ member)

/-- The tokens of a directive are not invalid, unless it defines a constant. -/
theorem invalidInValues_directive {dot name : Token} {d : Directive} {ts : List Token} {ss : List Step}
    (dotted : dot.kind = .directive)
    (word : name.isWord) (known : directiveTable.lookup name.name = some d)
    (operands : DirectiveOperands dot.pos d ts ss) :
    InvalidInValues (dot :: name :: ts) := by
  have header (valid : ∀ t ∈ ts, t.kind ≠ .invalid) : InvalidInValues (dot :: name :: ts) :=
    .cons (by simp [dotted]) (.cons (Token.kind_ne_of_isWord word rfl) (invalidInValues_of_valid valid))
  have words {us : List Token} {params : List String} (listed : CommaList IsWordText us params) :
      ∀ t ∈ us, t.kind ≠ .invalid := by
    refine listed.forall (fun t comma => by simp [comma]) ?_
    rintro us raw ⟨t, rfl, word, -⟩ u own
    rw [List.mem_singleton.mp own]
    exact Token.kind_ne_of_isWord word rfl
  cases operands with
  | standardSection => exact header (by simp)
  | plainSection word' => exact header (by simpa using Token.kind_ne_of_isWord word' rfl)
  | dottedSection dotted' word' => exact header (by simpa [dotted'] using Token.kind_ne_of_isWord word' rfl)
  | constantDefinition defined inline =>
    have table : ∀ entry ∈ directiveTable, entry.2 = .constantDefinition → entry.1 = "define" := by decide
    obtain ⟨earlier, later, split, -⟩ := List.lookup_eq_some_iff.mp known
    have define := table (name.name, .constantDefinition) (by simp [split]) rfl
    exact invalidInValues_definition dotted word define defined inline
  | macroHeader defined => exact header (by simpa using Token.kind_ne_of_isWord defined rfl)
  | macroParameters defined listed =>
    exact header (List.forall_mem_cons.mpr ⟨Token.kind_ne_of_isWord defined rfl, words listed⟩)
  | macroEnd => exact header (by simp)
  | values listed =>
    refine header (listed.forall (fun t comma => by simp [comma]) fun us c shape t member => ?_)
    exact Token.valid_of_isCode (code_of_isConstant shape t member)
  | zeros kind => exact header (by simp [kind])
  | text kind => exact header (by simp [kind])

theorem Run.eq_of_ended {r : Run Step} (ended : r.failure = none) : r = ⟨r.out, none⟩ := by rw [← ended]

section Line

variable {isa : InstructionSet} {readLines : List Token → Run Step} {t : Token} {rest : List Token}
  (whole : ∀ u ∈ rest.dropLast, u.isSeparator = false)
include whole

theorem whole_behind {ts us : List Token} (split : rest = ts ++ us) : ∀ u ∈ us.dropLast, u.isSeparator = false := by
  intro u member
  refine whole u ?_
  rw [split, List.dropLast_append_of_ne_nil (List.ne_nil_of_mem (List.mem_of_mem_dropLast member))]
  exact List.mem_append_right _ member

theorem valid_of_instruction {last : Position}
    (ended : (Reader.statement (instructionStep isa t) ⟨rest, last⟩).failure = none) :
    ∀ u ∈ rest, u.kind ≠ .invalid := by
  obtain ⟨op, o, ts, parts, rest', behind, split, -, -, listed, ends, -⟩ :=
    statement_instruction_iff.mp (Run.eq_of_ended ended)
  dsimp only at split
  have behind' := valid_of_lineEnd ends (whole_behind whole split)
  rw [split]
  exact List.forall_mem_append.mpr ⟨fun u member => Token.valid_of_isCode (code_of_listed listed u member), behind'⟩

theorem invalidInValues_of_directive (dotted : t.kind = .directive) {last : Position}
    (ended : (Reader.statement (Reader.directive t) ⟨rest, last⟩).failure = none) : InvalidInValues (t :: rest) := by
  obtain ⟨name, d, ts, rest', behind, split, word, known, operands, ends⟩ :=
    statement_directive_iff.mp (Run.eq_of_ended ended)
  dsimp only at split
  have front := invalidInValues_directive dotted word known operands
  have behind' := invalidInValues_of_valid
    (valid_of_lineEnd ends (whole_behind whole (split.trans (List.cons_append ..).symm)))
  rw [split]
  exact front.append behind'

/-- What is not among the arguments of a line is a comment or the separator. -/
theorem valid_of_arguments (valid : ∀ u ∈ Token.uncommented (Token.line rest), u.kind ≠ .invalid) :
    ∀ u ∈ rest, u.kind ≠ .invalid := by
  obtain ⟨behind, stop⟩ := lineStop_afterLine rest
  have split := (Token.line_append_afterLine rest).symm
  have after := valid_of_lineEnd (.plain stop) (whole_behind whole split)
  rw [split]
  refine List.forall_mem_append.mpr ⟨fun u member => ?_, after⟩
  cases comment : u.isComment with
  | false => exact valid u (List.mem_filter.mpr ⟨member, by simp [comment]⟩)
  | true => simp [Token.isComment_iff.mp comment]

theorem valid_of_readPseudo (ended : (readPseudo isa readLines t rest).failure = none) :
    ∀ u ∈ rest, u.kind ≠ .invalid := by
  refine valid_of_arguments whole ?_
  unfold readPseudo at ended
  dsimp only at ended
  split at ended
  · rename_i form operands found
    obtain ⟨-, groups, split, -⟩ := split_of_matchForm? found
    obtain ⟨values, listed⟩ := listed_of_split split
    exact fun u member => Token.valid_of_isCode (code_of_listed (listed.mono fun ts value => .plain) u member)
  · split at ended
    · obtain ⟨behind, stop⟩ := lineStop_afterLine rest
      obtain ⟨op, o, ts, parts, rest', behind', split, -, -, listed, ends, -⟩ :=
        statement_instruction_iff.mp (Run.eq_of_ended ended)
      have unmarked := unmarked_uncommented (Token.inline_of_line rest)
      obtain ⟨same, -⟩ := cut_at_mark split unmarked (unmarked_of_listed listed)
        (marked_of_lineEnd (.plain stop.take))
        (marked_of_lineEnd ends)
      rw [same]
      exact fun u member => Token.valid_of_isCode (code_of_listed listed u member)
    · cases ended

end Line

/-- An accepted line has invalid tokens in the value of a constant only. -/
theorem invalidInValues_of_readLine {isa : InstructionSet} {readLines : List Token → Run Step} {l : List Token}
    (whole : ∀ t ∈ l.dropLast, t.isSeparator = false) (ended : (readLine isa readLines l).failure = none) :
    InvalidInValues l := by
  induction l using readLine.induct with
  | case1 => exact invalidInValues_of_valid (by simp)
  | case2 t ts kind ih =>
    rw [readLine_comment _ kind] at ended
    exact .cons (by simp [kind]) (ih (@whole_behind _ whole [t] ts rfl) ended)
  | case3 t ts kind ih =>
    rw [readLine_separator _ kind] at ended
    exact .cons (by simp [kind]) (ih (@whole_behind _ whole [t] ts rfl) ended)
  | case5 t kind colon ts marked ih =>
    rw [readLine_label _ kind marked] at ended
    exact .cons (by simp [kind]) (.cons (by simp [marked]) (ih (@whole_behind _ whole [t, colon] ts rfl) ended))
  | case7 t ts kind =>
    rw [readLine_opcode _ kind] at ended
    have valid := valid_of_instruction (@whole_behind _ whole [t] ts rfl) ended
    exact .cons (by simp [kind]) (invalidInValues_of_valid valid)
  | case8 t ts kind =>
    rw [readLine_pseudoOp _ kind] at ended
    have valid := valid_of_readPseudo (@whole_behind _ whole [t] ts rfl) ended
    exact .cons (by simp [kind]) (invalidInValues_of_valid valid)
  | case9 t ts kind =>
    rw [readLine_directive kind] at ended
    exact invalidInValues_of_directive (@whole_behind _ whole [t] ts rfl) kind ended
  | case4 t kind =>
    rw [readLine.eq_def] at ended
    simp [kind, Run.fail] at ended
  | case6 t kind colon ts marked =>
    rw [readLine.eq_def] at ended
    simp [kind, marked, Run.fail] at ended
  | case10 t ts =>
    rw [readLine.eq_def] at ended
    cases kind : t.kind <;> simp_all [Run.fail]

/-! ## Accepted lists -/

theorem lines_inline {ts l : List Token} (member : l ∈ Token.lines ts) : ∀ t ∈ l.dropLast, t.isSeparator = false := by
  induction ts generalizing l with
  | nil => cases member
  | cons t ts ih =>
    rw [Token.lines] at member
    split at member
    · rcases List.mem_cons.mp member with rfl | later
      · simp
      · exact ih later
    · rename_i inside
      split at member
      · rw [List.mem_singleton.mp member]
        simp
      · rename_i first others cut
        rcases List.mem_cons.mp member with rfl | later
        · cases first with
          | nil => simp
          | cons u us =>
            refine List.forall_mem_cons.mpr ⟨by simpa using inside, ih ?_⟩
            rw [cut]
            exact List.mem_cons_self
        · refine ih ?_
          rw [cut]
          exact List.mem_cons_of_mem _ later

theorem invalidInValues_of_steps {isa : InstructionSet} {ts : List Token}
    (ended : (steps isa ts).failure = none) : InvalidInValues ts := by
  have each : ∀ l ∈ Token.lines ts, ∀ t ∈ l.dropLast, t.isSeparator = false := fun l => lines_inline
  rw [steps, readTokens] at ended
  rw [← lines_flatten ts]
  generalize Token.lines ts = ls at ended each
  induction ls with
  | nil => exact invalidInValues_of_valid (by simp)
  | cons l ls ih =>
    obtain ⟨whole, others⟩ := List.forall_mem_cons.mp each
    obtain ⟨first, later⟩ := Run.failure_append ended
    exact (invalidInValues_of_readLine whole first).append (ih later others)

/-! ## Reported tokens -/

/-- If the error is that of an invalid token, the token is in the list. -/
def NamesInvalid (ts : List Token) (e : Error) : Prop :=
  ∀ raw, e.cause = .invalidToken raw → ∃ t ∈ ts, t.kind = .invalid ∧ t.raw = raw ∧ t.pos = e.pos

theorem namesInvalid_of_reported {ts : List Token} {e : Error} (reported : Reported ts e) : NamesInvalid ts e := by
  intro raw cause
  cases reported with
  | @invalid t member kind =>
    cases cause
    exact ⟨t, member, kind, rfl, rfl⟩
  | unexpected => cases cause
  | slice => cases cause
  | aborted => cases cause

/-- Reading operands again with the lines of a form makes no invalid token of them. -/
theorem valid_of_unfold {name : String} {arguments : List Token} {form : PseudoForm} {texts : List String}
    (found : matchForm? (bisc.forms name) arguments = some (form, texts))
    (spelled : ∀ t ∈ arguments, t.WellSpelled bisc)
    (origin : Token) : ∀ u ∈ form.unfold bisc texts origin, u.kind ≠ .invalid := by
  obtain ⟨groups, listed, operands, fillable, rfl⟩ := fillable_of_matchForm? found spelled
  have code := code_of_lines listed fillable
  intro u member
  rw [form.unfold_eq listed (length_of_areOperands operands) fillable] at member
  obtain ⟨l, line, produced⟩ := List.mem_flatMap.mp member
  rcases List.mem_append.mp produced with inside | stop
  · obtain ⟨v, own, rfl⟩ := List.mem_map.mp inside
    exact Token.valid_of_isCode (code l line v own)
  · rw [List.mem_singleton.mp stop]
    simp [Token.separator]

theorem namesInvalid_of_readTokens (n : Nat) {ts : List Token} (spelled : ∀ t ∈ ts, t.WellSpelled bisc) :
    (readTokens bisc n ts).FailsWith (NamesInvalid ts) := by
  refine failsWith_readTokens_of_reported (fun _ _ => namesInvalid_of_reported)
    (fun ts us e inside names raw cause => ?_) (fun ts raw pos raw' cause => by cases cause)
    (fun t arguments form texts spelled found => ?_) n spelled
  · obtain ⟨u, own, invalid⟩ := names raw cause
    exact ⟨u, inside own, invalid⟩
  · -- The lines of the form have no invalid token that could be reported.
    refine ⟨wellSpelled_of_unfold form texts t, fun e names raw cause => ?_⟩
    obtain ⟨u, own, invalid, -⟩ := names raw cause
    exact absurd invalid (valid_of_unfold found spelled t u own)

/-- No invalid token is passed over. In a list that is accepted it stands in the value of a
    constant; and where tokens of a source are refused for an invalid one, this is one of them, with
    its spelling and at its place, because no operands that are read again with the lines of a form
    become invalid there. -/
theorem invalid_never_silent :
    (∀ isa ts p, parse isa ts = .ok p → ∀ before t after, ts = before ++ t :: after → t.kind = .invalid →
      InDefinedValue before) ∧
    ∀ source ts, preprocess (tokenize bisc source) = .ok ts →
      (∀ raw pos, parse bisc ts = .error ⟨.invalidToken raw, pos⟩ → ∃ t ∈ ts, t.kind = .invalid ∧
        t.raw = raw ∧ t.pos = pos) ∧
      ∀ name arguments form texts, arguments ⊆ ts → matchForm? (bisc.forms name) arguments = some (form, texts) →
        ∀ origin, ∀ u ∈ form.unfold bisc texts origin, u.kind ≠ .invalid := by
  refine ⟨fun isa ts p parsed => ?_, fun source ts preprocessed => ⟨fun raw pos failed => ?_, ?_⟩⟩
  · rw [parse_eq_programOf] at parsed
    exact invalidInValues_of_steps (programOf_ok_iff.mp ⟨p, parsed⟩)
  · rw [parse_eq_programOf] at failed
    have spelled := wellSpelled_of_preprocess preprocessed
    exact namesInvalid_of_readTokens (maxDepth + 1) spelled _ (programOf_eq_error.mp failed) raw rfl
  · intro name arguments form texts inside found
    exact valid_of_unfold found fun t member => wellSpelled_of_preprocess preprocessed t (inside member)

/-- The tokens of a constant whose value is no number. -/
private def malformedValue : List Token :=
  [⟨.directive, ".", none, ⟨1, 1⟩, 0⟩, ⟨.identifier, "define", none, ⟨1, 2⟩, 0⟩,
  ⟨.identifier, "x", none, ⟨1, 9⟩, 0⟩, ⟨.invalid, "12ab", none, ⟨1, 11⟩, 0⟩]

/-- The tokens of a load of the same. -/
private def malformedOperand : List Token :=
  [⟨.pseudoOp, "li", none, ⟨1, 1⟩, 0⟩, ⟨.register, "r1", some 1, ⟨1, 4⟩, 0⟩,
  ⟨.comma, ",", none, ⟨1, 6⟩, 0⟩, ⟨.invalid, "12ab", none, ⟨1, 8⟩, 0⟩]

/-- The value is accepted as text, and the operand is refused. -/
theorem invalid_never_silent_malformed :
    parse bisc malformedValue = .ok [] ∧ InDefinedValue (malformedValue.take 3) ∧
    preprocess (tokenize bisc "li r1, 12ab") = .ok malformedOperand ∧
    parse bisc malformedOperand = .error ⟨.invalidToken "12ab", ⟨1, 8⟩⟩ ∧
    ∃ t ∈ malformedOperand, t.kind = .invalid ∧ t.raw = "12ab" ∧ t.pos = ⟨1, 8⟩ := by
  have accepted : parse bisc malformedValue = .ok [] := by decide +kernel
  have tokens : tokenize bisc "li r1, 12ab" = malformedOperand := by decide +kernel
  have preprocessed : preprocess (tokenize bisc "li r1, 12ab") = .ok malformedOperand := by
    rw [tokens]
    exact preprocess_plain (by decide)
  have refused : parse bisc malformedOperand = .error ⟨.invalidToken "12ab", ⟨1, 8⟩⟩ := by decide +kernel
  obtain ⟨values, reports⟩ := invalid_never_silent
  exact ⟨accepted, values bisc _ _ accepted (malformedValue.take 3) ⟨.invalid, "12ab", none, ⟨1, 11⟩,
    0⟩ [] rfl rfl, preprocessed,
    refused, (reports _ _ preprocessed).1 _ _ refused⟩

end Bisc
