import Bisc.Proofs.FormMatching
import Bisc.Proofs.JoinedLines

/-!
Lines have one reading. A mnemonic may have several forms and be a real instruction too, and the
operands tell them apart: where the signatures part, one of them has an immediate, which never
begins with a register, and the other a register. Which way is tried first is then of no matter to a
program, whatever the lines that its pseudo-instructions stand for.
-/
namespace Bisc

/-! ## Signatures that exclude each other -/

/-- After the same registers, the first signature has an immediate where the second has something
    that begins with a register. -/
def OperandKind.clash : List OperandKind → List OperandKind → Bool
  | .register :: kinds, .register :: kinds' => clash kinds kinds'
  | .immediate :: _, .register :: _ => true
  | .immediate :: _, .memory :: _ => true
  | _, _ => false

theorem isConstant_begins {ts : List Token} {value : Except RangeFault Constant} (shape : IsConstant ts value) :
    ∃ t us, ts = t :: us ∧ t.kind ≠ .register := by
  have plain {ts : List Token} {value : Except RangeFault Constant} (shape : IsImmediate ts value) :
      ∃ t us, ts = t :: us ∧ t.kind ≠ .register := by
    cases shape with
    | number kind => exact ⟨_, _, rfl, by simp [kind]⟩
    | symbol kind => exact ⟨_, _, rfl, by simp [kind]⟩
    | slice kind => exact ⟨_, _, rfl, by simp [kind]⟩
  cases shape with
  | plain shape => exact plain shape
  | lo dotted => exact ⟨_, _, rfl, by simp [dotted]⟩
  | hi dotted => exact ⟨_, _, rfl, by simp [dotted]⟩

theorem isOperand_begins {kind : OperandKind} {ts : List Token} {value : Except RangeFault Operand}
    (operand : IsOperand IsConstant kind ts value) :
    ∃ t us, ts = t :: us ∧ (t.kind = .register ↔ kind ≠ .immediate) := by
  cases operand with
  | register kind => exact ⟨_, _, rfl, by simp [kind]⟩
  | immediate shape =>
    obtain ⟨t, us, rfl, other⟩ := isConstant_begins shape
    exact ⟨t, us, rfl, by simp [other]⟩
  | memory register => exact ⟨_, _, rfl, by simp [register]⟩

section Listed

variable {kinds : List OperandKind} {ts us : List Token} {parts : List (List Token)}
  {values : List (Except RangeFault Operand)}

theorem listed_begins {kind : OperandKind} (listed : Listed IsConstant (kind :: kinds) ts parts values) :
    ∃ t us, ts = t :: us ∧ (t.kind = .register ↔ kind ≠ .immediate) := by
  cases listed with
  | last operand => exact isOperand_begins operand
  | cons operand =>
    obtain ⟨t, us, rfl, begins⟩ := isOperand_begins operand
    exact ⟨t, _, rfl, begins⟩

theorem listed_register {next : OperandKind}
    (listed : Listed IsConstant (.register :: next :: kinds) ts parts values) :
    ∃ t comma us parts values, ts = t :: comma :: us ∧ Listed IsConstant (next :: kinds) us parts values := by
  cases listed with
  | cons operand parted rest =>
    cases operand with
    | register kind => exact ⟨_, _, _, _, _, rfl, rest⟩

/-- Operands of signatures that clash do not begin alike, whatever follows them. -/
theorem apart_of_clash {kinds' : List OperandKind} {parts' : List (List Token)}
    {values' : List (Except RangeFault Operand)}
    (clash : OperandKind.clash kinds kinds') (listed : Listed IsConstant kinds ts parts values)
    (listed' : Listed IsConstant kinds' us parts' values') (rest rest' : List Token) : ts ++ rest ≠ us ++ rest' := by
  intro same
  induction kinds, kinds' using OperandKind.clash.induct generalizing ts us parts values parts' values' with
  | case1 kinds kinds' ih =>
    -- The clash is further on, so another operand follows in both.
    obtain ⟨next, more, rfl⟩ : ∃ next more, kinds = next :: more := by
      cases kinds with
      | nil => simp [OperandKind.clash] at clash
      | cons next more => exact ⟨next, more, rfl⟩
    obtain ⟨next', more', rfl⟩ : ∃ next more, kinds' = next :: more := by
      cases kinds' with
      | nil => cases next <;> simp [OperandKind.clash] at clash
      | cons next more => exact ⟨next, more, rfl⟩
    obtain ⟨t, comma, ts, _, _, rfl, later⟩ := listed_register listed
    obtain ⟨u, comma', us, _, _, rfl, later'⟩ := listed_register listed'
    simp only [List.cons_append, List.cons.injEq] at same
    exact ih clash later later' same.2.2
  | case2 kinds kinds' =>
    obtain ⟨t, ts, rfl, other⟩ := listed_begins listed
    obtain ⟨u, us, rfl, register⟩ := listed_begins listed'
    simp_all
  | case3 kinds kinds' =>
    obtain ⟨t, ts, rfl, other⟩ := listed_begins listed
    obtain ⟨u, us, rfl, register⟩ := listed_begins listed'
    simp_all
  | case4 => simp [OperandKind.clash] at clash

end Listed

theorem listed_of_operands {form : PseudoForm} {arguments : List Token}
    (matched : (form.operands? arguments).isSome) :
    ∃ parts values, Listed IsConstant form.signature arguments parts values := by
  obtain ⟨texts, found⟩ := Option.isSome_iff_exists.mp matched
  obtain ⟨parts, split, -⟩ := Option.map_eq_some_iff.mp found
  obtain ⟨values, listed⟩ := listed_of_split split
  exact ⟨parts, values, listed.mono fun _ _ => .plain⟩

/-! ## The table -/

/-- Of two forms of one name, one has no operands and the other has some. -/
theorem forms_exclusive (name : String) :
    (bisc.forms name).Pairwise fun form form' => form.signature.isEmpty ≠ form'.signature.isEmpty := by
  have table : pseudoTable.Pairwise fun entry entry' =>
      entry.1 = entry'.1 → entry.2.signature.isEmpty ≠ entry'.2.signature.isEmpty := by decide
  unfold InstructionSet.forms
  rw [List.pairwise_map]
  apply (table.filter _).imp_of_mem
  intro entry entry' member member' apart
  have named : entry.1 = name := by simpa using (List.mem_filter.mp member).2
  have named' : entry'.1 = name := by simpa using (List.mem_filter.mp member').2
  exact apart (named.trans named'.symm)

theorem empty_of_operands {form : PseudoForm} {arguments : List Token} (matched : (form.operands? arguments).isSome) :
    form.signature.isEmpty = arguments.isEmpty := by
  obtain ⟨parts, values, listed⟩ := listed_of_operands matched
  generalize form.signature = kinds at listed
  cases kinds with
  | nil =>
    cases listed
    rfl
  | cons kind kinds =>
    obtain ⟨t, us, rfl, -⟩ := listed_begins listed
    rfl

/-- Arguments are spelled in at most one form of a name. -/
theorem forms_once (name : String) (arguments : List Token) :
    ((bisc.forms name).filter fun form => (form.operands? arguments).isSome).length ≤ 1 := by
  have apart := (forms_exclusive name).filter fun form => (form.operands? arguments).isSome
  cases found : (bisc.forms name).filter fun form => (form.operands? arguments).isSome with
  | nil => simp
  | cons form others =>
    cases others with
    | nil => simp
    | cons form' others =>
      have matches_of {form : PseudoForm} (member : form ∈ (bisc.forms name).filter fun form =>
        (form.operands? arguments).isSome) :=
        empty_of_operands (List.mem_filter.mp member).2
      have first := matches_of (found ▸ List.mem_cons_self : form ∈ _)
      have second := matches_of (found ▸ List.mem_cons_of_mem _ List.mem_cons_self : form' ∈ _)
      rw [found] at apart
      exact absurd (first.trans second.symm) ((List.pairwise_cons.mp apart).1 form' List.mem_cons_self)

theorem clash_of_forms {op : Opcode} {name : String} (known : bisc.opcode? name = some op) {form : PseudoForm}
    (shared : form ∈ bisc.forms name) : OperandKind.clash form.signature op.format.signature := by
  have table : ∀ op ∈ opcodeTable, ∀ form ∈ bisc.forms op.mnemonic,
      OperandKind.clash form.signature op.format.signature := by
    decide +kernel
  have named : op.mnemonic = name := by simpa using List.find?_some known
  exact table op (List.mem_of_find?_eq_some known) form (named ▸ shared)

/-- The real instruction of a name refuses what is spelled in a form of it, whatever follows. -/
theorem instruction_refuses {t : Token} {form : PseudoForm} (shared : form ∈ bisc.forms t.name)
    {arguments : List Token}
    (matched : (form.operands? arguments).isSome) (rest : List Token) (last : Position) :
    ∃ e, Reader.instruction bisc t ⟨arguments ++ rest, last⟩ = .error e := by
  cases read : Reader.instruction bisc t ⟨arguments ++ rest, last⟩ with
  | error e => exact ⟨e, rfl⟩
  | ok x =>
    obtain ⟨i, c⟩ := x
    unfold Reader.instruction at read
    cases known : bisc.opcode? t.name with
    | none =>
      rw [known] at read
      cases read
    | some op =>
      rw [known] at read
      obtain ⟨o, d, operands, -⟩ := reader_bind_eq_ok.mp read
      obtain ⟨us, parts', front, listed'⟩ := signatureReader_eq_ok (signature_of_operands operands).2
      obtain ⟨parts, values, listed⟩ := listed_of_operands matched
      exact absurd front (apart_of_clash (clash_of_forms known shared) listed listed' rest d.rest)

/-! ## Ways of reading -/

/-- A way of reading the line of a mnemonic: in a form of it, or as the real instruction. -/
inductive Way
  | form (f : PseudoForm)
  | real
deriving DecidableEq

section Ways

variable (isa : InstructionSet) (readLines : List Token → Run Step) (t : Token) (rest : List Token)

/-- The arguments of the mnemonic whose line goes on with `rest`. -/
def argumentsOf : List Token := Token.uncommented (Token.line rest)

/-- The steps of the real instruction with these arguments. -/
def readReal : Run Step :=
  let stop := (Token.afterLine rest).take 1
  let last := (Token.line rest ++ stop).getLast?.map Token.pos
  Reader.statement (instructionStep isa t) ⟨argumentsOf rest ++ stop, last.getD t.pos⟩

/-- The steps of the lines that a form stands for. -/
def readForm (form : PseudoForm) (operands : List String) : Run Step :=
  if t.depth ≥ maxDepth then .fail ⟨.expansionDepth t.raw, t.pos⟩
  else .cons (.unfolded t.pos t.name operands form) (readLines (form.unfold isa operands t))

/-- The steps of the line if the way is one to read it. -/
def Way.run? : Way → Option (Run Step)
  | form f => (f.operands? (argumentsOf rest)).map (readForm isa readLines t f)
  | real => if (readReal isa t rest).failure = none then some (readReal isa t rest) else none

/-- The steps of the line in the first of the ways that is one to read it. -/
def readByWays (refusal : Token → List Token → Error) (ways : List Way) : Run Step :=
  (ways.findSome? (Way.run? isa readLines t rest)).getD (.fail (refusal t (argumentsOf rest)))

/-- The ways of the mnemonic in the order in which they are tried. -/
def waysOf (name : String) : List Way := (isa.forms name).map .form ++ [.real]

end Ways

/-- The steps of a line, given those of a pseudo-instruction. -/
def readLineWith (isa : InstructionSet) (pseudo : Token → List Token → Run Step) : List Token → Run Step
  | [] => .done
  | t :: rest =>
    match t.kind with
    | .comment | .lineSeparator => readLineWith isa pseudo rest
    | .identifier =>
      match rest with
      | [] => .fail ⟨.unexpected (.token .colon) .endOfFile, t.pos⟩
      | colon :: ts =>
        if colon.kind = .colon then .cons (.item { node := .label t.raw, pos := t.pos }) (readLineWith isa pseudo ts)
        else .fail (colon.refused (.token .colon))
    | .opcode => Reader.statement (instructionStep isa t) ⟨rest, t.pos⟩
    | .pseudoOp => pseudo t rest
    | .directive => Reader.statement (Reader.directive t) ⟨rest, t.pos⟩
    | _ => .fail (t.refused .statement)

section Orders

variable (isa : InstructionSet) (ways : String → List Way) (refusal : Token → List Token → Error)

/-- The steps of a token list, with the ways of a mnemonic tried in an order of their own. -/
def readTokensBy : Nat → List Token → Run Step
  | 0, _ => .done
  | n + 1, ts => ((Token.lines ts).map (readLineWith isa fun t rest =>
      readByWays isa (readTokensBy n) t rest refusal (ways t.name))).foldr (· ++ ·) .done

/-- The program of a token list, with the ways of a mnemonic tried in an order of their own. -/
def parseBy (ts : List Token) : Except Error Program := programOf (readTokensBy isa ways refusal (maxDepth + 1) ts)

end Orders

section Line

variable {isa : InstructionSet} {pseudo pseudo' : Token → List Token → Run Step} {t : Token} (rest : List Token)

theorem readLineWith_comment (kind : t.kind = .comment) :
    readLineWith isa pseudo (t :: rest) = readLineWith isa pseudo rest := by
  rw [readLineWith.eq_def]
  simp only [kind]
theorem readLineWith_separator (kind : t.kind = .lineSeparator) :
    readLineWith isa pseudo (t :: rest) = readLineWith isa pseudo rest := by
  rw [readLineWith.eq_def]
  simp only [kind]
theorem readLineWith_label {colon : Token} (kind : t.kind = .identifier) (marked : colon.kind = .colon) :
    readLineWith isa pseudo (t :: colon :: rest) =
      .cons (.item { node := .label t.raw, pos := t.pos }) (readLineWith isa pseudo rest) := by
  rw [readLineWith.eq_def]
  simp only [kind, marked, if_true]
theorem readLineWith_pseudoOp (kind : t.kind = .pseudoOp) : readLineWith isa pseudo (t :: rest) = pseudo t rest := by
  rw [readLineWith.eq_def]
  simp only [kind]

theorem readLine_eq_with (isa : InstructionSet) (readLines : List Token → Run Step) (l : List Token) :
    readLine isa readLines l = readLineWith isa (readPseudo isa readLines) l := by
  induction l using readLine.induct with
  | case2 t ts kind ih => rw [readLine_comment _ kind, readLineWith_comment _ kind, ih]
  | case3 t ts kind ih => rw [readLine_separator _ kind, readLineWith_separator _ kind, ih]
  | case5 t kind colon ts marked ih => rw [readLine_label _ kind marked, readLineWith_label _ kind marked, ih]
  | _ => simp_all [readLine.eq_def, readLineWith.eq_def]

/-- Lines are read alike if pseudo-instructions are. -/
theorem agree_readLineWith (agreed : ∀ t rest, Run.Agree (fun _ => True) (pseudo t rest) (pseudo' t rest))
    (l : List Token) :
    Run.Agree (fun _ => True) (readLineWith isa pseudo l) (readLineWith isa pseudo' l) := by
  induction l using readLineWith.induct with
  | case2 t ts kind ih => rwa [readLineWith_comment _ kind, readLineWith_comment _ kind]
  | case3 t ts kind ih => rwa [readLineWith_separator _ kind, readLineWith_separator _ kind]
  | case5 t kind colon ts marked ih =>
    rw [readLineWith_label _ kind marked, readLineWith_label _ kind marked]
    exact ih.cons trivial
  | case8 t ts kind =>
    rw [readLineWith_pseudoOp _ kind, readLineWith_pseudoOp _ kind]
    exact agreed t ts
  | _ => simp_all [readLineWith.eq_def, Run.agree_self]

end Line

/-! ## Orders of the ways -/

/-- What is found first does not depend on the order if there is at most one thing to find. -/
theorem findSome?_of_perm {α β : Type} {l l' : List α} (reordered : l.Perm l') (f : α → Option β)
    (once : (l.filterMap f).length ≤ 1) : l.findSome? f = l'.findSome? f := by
  rw [← List.head?_filterMap, ← List.head?_filterMap]
  have same := reordered.filterMap f
  cases found : l.filterMap f with
  | nil =>
    rw [found] at same
    rw [same.nil_eq]
  | cons a others =>
    rw [found] at once same
    have alone : others = [] := List.length_eq_zero_iff.mp (by simpa using once)
    rw [alone] at same ⊢
    rw [List.perm_singleton.mp same.symm]

theorem statement_refused {isa : InstructionSet} {t : Token} {c : Cursor} {e : Error}
    (refused : Reader.instruction isa t c = .error e) :
    (Reader.statement (instructionStep isa t) c).failure ≠ none := by
  have step : instructionStep isa t c = .error e := by
    unfold instructionStep
    simp only [bind, StateT.bind, Except.bind, refused]
  unfold Reader.statement
  rw [step]
  simp [Run.fail]

theorem Run.agree_of_failed {r s : Run Step} (failed : r.failure ≠ none) (failed' : s.failure ≠ none) :
    Run.Agree (fun _ => True) r s := by
  obtain ⟨e, fault⟩ := Option.ne_none_iff_exists'.mp failed
  obtain ⟨e', fault'⟩ := Option.ne_none_iff_exists'.mp failed'
  unfold Run.Agree Run.result
  rw [fault, fault']
  exact .error trivial

section Pseudo

variable (readLines : List Token → Run Step) (t : Token) (rest : List Token)

/-- A line in a form of its mnemonic is not one of the real instruction. -/
theorem real_refused {form : PseudoForm} (shared : form ∈ bisc.forms t.name)
    (matched : (form.operands? (argumentsOf rest)).isSome) : Way.run? bisc readLines t rest .real = none := by
  have failed : (readReal bisc t rest).failure ≠ none := by
    obtain ⟨e, refused⟩ := instruction_refuses shared matched ((Token.afterLine rest).take 1) _
    exact statement_refused refused
  rw [Way.run?, if_neg failed]

/-- At most one of the ways of a mnemonic is one to read its line. -/
theorem ways_once : ((waysOf bisc t.name).filterMap (Way.run? bisc readLines t rest)).length ≤ 1 := by
  have forms : ((bisc.forms t.name).map Way.form).filterMap (Way.run? bisc readLines t rest) =
      (bisc.forms t.name).filterMap fun form =>
        (form.operands? (argumentsOf rest)).map (readForm bisc readLines t form) := by
    rw [List.filterMap_map]
    rfl
  rw [waysOf, List.filterMap_append, forms, List.length_append]
  by_cases matched : ∃ form ∈ bisc.forms t.name, (form.operands? (argumentsOf rest)).isSome
  · obtain ⟨form, shared, matched⟩ := matched
    have real : [Way.real].filterMap (Way.run? bisc readLines t rest) = [] := by
      simp [real_refused readLines t rest shared matched]
    rw [real]
    simpa [List.length_filterMap_eq_countP, List.countP_eq_length_filter] using forms_once t.name (argumentsOf rest)
  · have none : ((bisc.forms t.name).filterMap fun form =>
        (form.operands? (argumentsOf rest)).map (readForm bisc readLines t form)) = [] := by
      rw [List.filterMap_eq_nil_iff]
      intro form shared
      have other : ¬ (form.operands? (argumentsOf rest)).isSome := fun found => matched ⟨form, shared, found⟩
      simpa using other
    rw [none]
    simpa using List.length_filterMap_le (Way.run? bisc readLines t rest) [.real]

variable {readLines} {readLines' : List Token → Run Step}
  (agreed : ∀ ts, Run.Agree (fun _ => True) (readLines ts) (readLines' ts))
include agreed

/-- A line is read alike with the forms in their order and the real instruction last. -/
theorem agree_readByWays (isa : InstructionSet) (refusal : Token → List Token → Error) :
    Run.Agree (fun _ => True) (readPseudo isa readLines t rest)
      (readByWays isa readLines' t rest refusal (waysOf isa t.name)) := by
  have forms : ((isa.forms t.name).map Way.form).findSome? (Way.run? isa readLines' t rest) =
      (matchForm? (isa.forms t.name) (argumentsOf rest)).map fun found =>
        readForm isa readLines' t found.1 found.2 := by
    rw [List.findSome?_map, matchForm?, List.map_findSome?]
    congr 1
    funext form
    simp only [Function.comp_apply, Way.run?, Option.map_map]
    rfl
  rw [readByWays, waysOf, List.findSome?_append, forms]
  unfold readPseudo
  cases found : matchForm? (isa.forms t.name) (argumentsOf rest) with
  | some pair =>
    obtain ⟨form, operands⟩ := pair
    rw [argumentsOf] at found
    simp only [found, Option.map_some, Option.some_or, Option.getD_some, readForm]
    by_cases deep : t.depth ≥ maxDepth
    · rw [if_pos deep, if_pos deep]
      exact Run.agree_fail trivial
    · rw [if_neg deep, if_neg deep]
      exact (agreed _).cons trivial
  | none =>
    rw [argumentsOf] at found
    simp only [found, Option.map_none, Option.none_or, List.findSome?_singleton, Way.run?]
    by_cases known : (isa.opcode? t.name).isSome
    · rw [if_pos known]
      by_cases ended : (readReal isa t rest).failure = none
      · rw [if_pos ended]
        exact Run.agree_self _
      · rw [if_neg ended]
        exact Run.agree_of_failed ended (by simp [Run.fail])
    · have unknown : isa.opcode? t.name = none := by simpa using known
      have failed : (readReal isa t rest).failure ≠ none := by
        have refused (c : Cursor) : Reader.instruction isa t c = .error (t.unexpected (.token .opcode)) := by
          unfold Reader.instruction
          rw [unknown]
          rfl
        exact statement_refused (refused _)
      rw [if_neg known, if_neg failed]
      exact Run.agree_fail trivial

end Pseudo

/-- The steps of a token list do not depend on the order in which the ways of a mnemonic are tried. -/
theorem agree_readTokensBy {ways : String → List Way} (reordered : ∀ name, (ways name).Perm (waysOf bisc name))
    (refusal : Token → List Token → Error) (n : Nat) (ts : List Token) :
    Run.Agree (fun _ => True) (readTokens bisc n ts) (readTokensBy bisc ways refusal n ts) := by
  induction n generalizing ts with
  | zero => exact Run.agree_done
  | succ n ih =>
    rw [readTokens, readTokensBy]
    generalize Token.lines ts = ls
    induction ls with
    | nil => exact Run.agree_done
    | cons l ls later =>
      refine Run.Agree.append ?_ later
      -- The lines that a form stands for agree by induction, so the line does too.
      rw [readLine_eq_with]
      refine agree_readLineWith (fun t rest => ?_) l
      have same : readByWays bisc (readTokensBy bisc ways refusal n) t rest refusal (ways t.name) =
          readByWays bisc (readTokensBy bisc ways refusal n) t rest refusal (waysOf bisc t.name) := by
        rw [readByWays, readByWays, findSome?_of_perm (reordered t.name).symm _ (ways_once _ t rest)]
      rw [same]
      exact agree_readByWays t rest ih bisc refusal

/-- A line has one reading: arguments are spelled in at most one form of a mnemonic, and what is
    spelled in a form is refused by the real instruction of the name, whatever follows. So the forms
    and the real instruction may be tried in any order, with any error where none of them reads the
    line, and the programs are the same. -/
theorem one_reading :
    (∀ name arguments, ((bisc.forms name).filter fun form => (form.operands? arguments).isSome).length ≤ 1) ∧
    (∀ t form arguments rest last, form ∈ bisc.forms t.name → (form.operands? arguments).isSome →
      ∃ e, Reader.instruction bisc t ⟨arguments ++ rest, last⟩ = .error e) ∧
    ∀ ways refusal, (∀ name, (ways name).Perm ((bisc.forms name).map .form ++ [.real])) →
      ∀ ts p, parse bisc ts = .ok p ↔ parseBy bisc ways refusal ts = .ok p := by
  refine ⟨forms_once, ?_, ?_⟩
  · intro t form arguments rest last shared matched
    exact instruction_refuses shared matched rest last
  · intro ways refusal reordered ts p
    exact programOf_agree (agree_readTokensBy reordered refusal (maxDepth + 1) ts)

/-- A jump to a label that is far away: its lines are a load and the real jump of the same name. -/
private def farJump : List Token := [⟨.pseudoOp, "jmp", none, ⟨1, 1⟩, 0⟩, ⟨.identifier, "x", none, ⟨1, 5⟩, 0⟩]

/-- The real instruction refuses the label, and the program is the same if it is tried before the form. -/
theorem one_reading_farJump :
    (∃ e, Reader.instruction bisc ⟨.pseudoOp, "jmp", none, ⟨1, 1⟩, 0⟩ ⟨farJump.drop 1, ⟨1, 1⟩⟩ = .error e) ∧
    parseBy bisc (fun name => .real :: (bisc.forms name).map .form) noFormError farJump = .ok [⟨".text",
      [⟨.instruction ⟨0x10, .regImm 1 (.part (.symbol "x") .lo)⟩, ⟨1, 1⟩, 0⟩,
        ⟨.instruction ⟨lui, .regImm 1 (.symbol "x")⟩, ⟨1, 1⟩, 0⟩, ⟨.instruction ⟨0x0A, .reg 1⟩, ⟨1, 1⟩, 0⟩]⟩] := by
  obtain ⟨-, refuses, reorders⟩ := one_reading
  have shared : (⟨[.immediate], ["li at, \x7b0\x7d", "jmp at"]⟩ : PseudoForm) ∈ bisc.forms "jmp" := by decide
  constructor
  · exact refuses ⟨.pseudoOp, "jmp", none, ⟨1, 1⟩, 0⟩ _ (farJump.drop 1) [] ⟨1, 1⟩ shared rfl
  · refine (reorders _ _ (fun name => ?_) farJump _).mp rfl
    exact List.perm_append_singleton _ _ |>.symm

end Bisc
