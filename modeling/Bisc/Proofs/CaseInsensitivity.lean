import Bisc.Proofs.InvalidTokens
import Bisc.Proofs.LetterCase

/-!
Mnemonics, registers and directives in any case. Tokens that differ in the case of such words are
operands of the same kinds with the same values, so a line of them is accepted exactly if the other
is, and adds the same to the program. Labels keep their spelling, also where they are operands of a
pseudo-instruction and read again with its lines.
-/
namespace Bisc

/-! ## Tokens in another case -/

namespace Token.Recased

variable {free : Prop} {t t' : Token} (recased : t.Recased free t')
include recased

theorem number : t'.number = t.number := by rw [Token.number, recased.value, Token.number]
theorem isWord : t'.isWord = t.isWord := by rw [Token.isWord, recased.kind, Token.isWord]
theorem isComment : t'.isComment = t.isComment := by rw [Token.isComment, recased.kind, Token.isComment]
theorem isSeparator : t'.isSeparator = t.isSeparator := by rw [Token.isSeparator, recased.kind, Token.isSeparator]
theorem caseless (named : Bool) : t'.caseless named = t.caseless named := by
  rw [Token.caseless, recased.isWord, recased.kind, Token.caseless]
theorem symm : t'.Recased free t :=
  ⟨recased.kind.symm, recased.value.symm, recased.pos.symm, recased.depth.symm, recased.name.symm,
    fun kept => (recased.raw kept).symm⟩

end Token.Recased

namespace Recased

variable {named : Bool} {t : Token} {ts us ts' : List Token}

theorem symm (recased : Recased named ts ts') : Recased named ts' ts := by
  induction recased with
  | nil => exact .nil
  | cons same _ ih =>
    refine .cons ?_ ?_
    · rw [same.caseless]
      exact same.symm
    · rw [same.kind]
      exact ih

/-- Less is free where no dot comes before. -/
theorem weaken (recased : Recased false ts ts') (named : Bool) : Recased named ts ts' := by
  cases recased with
  | nil => exact .nil
  | cons same rest =>
    refine .cons (same.mono fun free => ?_) rest
    simp only [Token.caseless, Bool.or_false, Bool.and_eq_true] at free
    simp [Token.caseless, free]

theorem cons_inv (recased : Recased named (t :: ts) ts') :
    ∃ t' us', ts' = t' :: us' ∧ t.Recased (t.caseless named) t' ∧
    Recased (t.kind = .directive) ts us' := by
  cases recased with
  | cons same rest => exact ⟨_, _, rfl, same, rest⟩

theorem append_inv (recased : Recased named (ts ++ us) ts') : ∃ vs ws named', ts' = vs ++ ws ∧ Recased named ts vs ∧
    Recased named' us ws := by
  induction ts generalizing named ts' with
  | nil => exact ⟨[], ts', named, rfl, .nil, recased⟩
  | cons t ts ih =>
    obtain ⟨t', us', rfl, same, rest⟩ := recased.cons_inv
    obtain ⟨vs, ws, named', rfl, first, second⟩ := ih rest
    exact ⟨t' :: vs, ws, named', rfl, .cons same first, second⟩

theorem singleton_inv (recased : Recased named [t] ts') : ∃ t', ts' = [t'] ∧ t.Recased (t.caseless named) t' := by
  obtain ⟨t', us', rfl, same, rest⟩ := recased.cons_inv
  cases rest
  exact ⟨t', rfl, same⟩

/-- A name that comes after no dot keeps its spelling. -/
theorem raw_identifier {t' : Token} (same : t.Recased (t.caseless false) t')
    (kind : t.kind = .identifier) : t'.raw = t.raw :=
  same.raw (by simp [Token.caseless, kind])

theorem kinds (recased : Recased named ts ts') : ts'.map Token.kind = ts.map Token.kind := by
  induction recased with
  | nil => rfl
  | cons same _ ih => rw [List.map_cons, List.map_cons, same.kind, ih]

theorem append (first : Recased named ts ts') {us us' : List Token} (second : Recased false us us') :
    Recased named (ts ++ us) (ts' ++ us') := by
  induction first with
  | nil => exact second.weaken _
  | cons same _ ih => exact .cons same ih

theorem uncommented (recased : Recased named ts ts') :
    Recased named (Token.uncommented ts) (Token.uncommented ts') := by
  induction recased with
  | nil => exact .nil
  | @cons named t t' ts ts' same _ ih =>
    unfold Token.uncommented at ih ⊢
    rw [List.filter_cons, List.filter_cons, same.isComment]
    split
    · exact .cons same ih
    · rename_i comment
      have kind : t.kind = .comment := by simpa [Token.isComment] using comment
      rw [kind] at ih
      exact ih.weaken named

theorem line (recased : Recased named ts ts') : Recased named (Token.line ts) (Token.line ts') := by
  induction recased with
  | nil => exact .nil
  | cons same _ ih =>
    unfold Token.line at ih ⊢
    rw [List.takeWhile_cons, List.takeWhile_cons, same.isSeparator]
    split
    · exact .cons same ih
    · exact .nil

theorem stop (recased : Recased named ts ts') :
    Recased false ((Token.afterLine ts).take 1) ((Token.afterLine ts').take 1) := by
  induction recased with
  | nil => exact .nil
  | @cons named t t' ts ts' same _ ih =>
    unfold Token.afterLine at ih ⊢
    rw [List.dropWhile_cons, List.dropWhile_cons, same.isSeparator]
    split
    · exact ih
    · rename_i separator
      have kind : t.kind = .lineSeparator := by simpa [Token.isSeparator] using separator
      refine .cons (same.mono fun free => ?_) .nil
      simp [Token.caseless, Token.isWord, kind, TokenKind.isWord] at free

/-- The lines of the one list and of the other. -/
theorem lines (recased : Recased named ts ts') : Token.lines ts = [] ∧ Token.lines ts' = [] ∨ ∃ l l' ls ls',
    Token.lines ts = l :: ls ∧ Token.lines ts' = l' :: ls' ∧ Recased named l l' ∧
    List.Forall₂ (Recased false) ls ls' := by
  induction recased with
  | nil => exact .inl ⟨rfl, rfl⟩
  | @cons named t t' ts ts' same rest ih =>
    rw [Token.lines, Token.lines, same.isSeparator]
    by_cases separator : t.isSeparator
    · have kind := Token.isSeparator_iff.mp separator
      rw [if_pos separator, if_pos separator]
      refine .inr ⟨[t], [t'], _, _, rfl, rfl, .cons same .nil, ?_⟩
      rcases ih with ⟨left, right⟩ | ⟨l, l', ls, ls', left, right, first, later⟩
      · rw [left, right]
        exact .nil
      · rw [left, right]
        rw [kind] at first
        exact .cons first later
    · rw [if_neg separator, if_neg separator]
      rcases ih with ⟨left, right⟩ | ⟨l, l', ls, ls', left, right, first, later⟩
      · rw [left, right]
        refine .inr ⟨[t], [t'], [], [], rfl, rfl, .cons same .nil, .nil⟩
      · rw [left, right]
        exact .inr ⟨t :: l, t' :: l', ls, ls', rfl, rfl, .cons same first, later⟩

end Recased

/-! ## Operands -/

section Operands

variable {ts ts' : List Token}

theorem IsImmediate.recased {value : Except RangeFault Constant} (shape : IsImmediate ts value)
    (recased : Recased false ts ts') :
    IsImmediate ts' value := by
  cases shape with
  | number kind =>
    obtain ⟨t', rfl, same⟩ := recased.singleton_inv
    rw [← same.number]
    exact .number (same.kind.trans kind)
  | symbol kind =>
    obtain ⟨t', rfl, same⟩ := recased.singleton_inv
    rw [← Recased.raw_identifier same kind]
    exact .symbol (same.kind.trans kind)
  | slice kind opened low parted high closed =>
    obtain ⟨symbol', _, rfl, symbol, rest⟩ := recased.cons_inv
    obtain ⟨left', _, rfl, left, rest⟩ := rest.cons_inv
    obtain ⟨first', _, rfl, first, rest⟩ := rest.cons_inv
    obtain ⟨colon', _, rfl, colon, rest⟩ := rest.cons_inv
    obtain ⟨last', _, rfl, last, rest⟩ := rest.cons_inv
    obtain ⟨right', rfl, right⟩ := rest.singleton_inv
    rw [← Recased.raw_identifier symbol kind, ← first.number, ← last.number]
    exact .slice (symbol.kind.trans kind) (left.kind.trans opened) (first.kind.trans low) (colon.kind.trans parted)
      (last.kind.trans high) (right.kind.trans closed)

/-- The name of a half is in any case, and the symbol behind it in its own. -/
theorem IsConstant.recased {value : Except RangeFault Constant} (shape : IsConstant ts value)
    (recased : Recased false ts ts') :
    IsConstant ts' value := by
  have half {dot half : Token} {us : List Token} (word : half.isWord)
      (recased : Recased false (dot :: half :: us) ts') :
      ∃ dot' half' us', ts' = dot' :: half' :: us' ∧ dot'.kind = dot.kind ∧ half'.isWord ∧ half'.name = half.name ∧
        Recased false us us' := by
    obtain ⟨dot', _, rfl, dots, rest⟩ := recased.cons_inv
    obtain ⟨half', us', rfl, halves, rest⟩ := rest.cons_inv
    have other : half.kind ≠ .directive := Token.kind_ne_of_isWord word rfl
    rw [decide_eq_false other] at rest
    exact ⟨dot', half', us', rfl, dots.kind, halves.isWord.trans word, halves.name, rest⟩
  cases shape with
  | plain shape => exact .plain (shape.recased recased)
  | lo dotted word named shape =>
    obtain ⟨dot', half', us', rfl, kind, word', name, rest⟩ := half word recased
    exact .lo (kind.trans dotted) word' (name.trans named) (shape.recased rest)
  | hi dotted word named shape =>
    obtain ⟨dot', half', us', rfl, kind, word', name, rest⟩ := half word recased
    exact .hi (kind.trans dotted) word' (name.trans named) (shape.recased rest)

section Grammar

variable {immediate : List Token → Except RangeFault Constant → Prop}
  (keeps : ∀ ts ts' value, immediate ts value → Recased false ts ts' → immediate ts' value)
include keeps

theorem IsOperand.recased {kind : OperandKind} {value : Except RangeFault Operand}
    (operand : IsOperand immediate kind ts value)
    (recased : Recased false ts ts') : IsOperand immediate kind ts' value := by
  cases operand with
  | register kind =>
    obtain ⟨t', rfl, same⟩ := recased.singleton_inv
    rw [← same.number]
    exact .register (same.kind.trans kind)
  | immediate shape => exact .immediate (keeps _ _ _ shape recased)
  | memory register opened shape closed =>
    obtain ⟨base', _, rfl, base, rest⟩ := recased.cons_inv
    obtain ⟨left', _, rfl, left, rest⟩ := rest.cons_inv
    obtain ⟨us', _, named, rfl, inner, rest⟩ := rest.append_inv
    obtain ⟨right', rfl, right⟩ := rest.singleton_inv
    rw [opened] at inner
    rw [← base.number]
    exact .memory (base.kind.trans register) (left.kind.trans opened) (keeps _ _ _ shape inner)
      (right.kind.trans closed)

/-- Operands in another case are operands of the same kinds, with the same values. -/
theorem Listed.recased {kinds : List OperandKind} {parts : List (List Token)}
    {values : List (Except RangeFault Operand)}
    (listed : Listed immediate kinds ts parts values) (recased : Recased false ts ts') :
    ∃ parts', Listed immediate kinds ts' parts' values ∧ List.Forall₂ (Recased false) parts parts' := by
  induction listed generalizing ts' with
  | nil =>
    cases recased
    exact ⟨[], .nil, .nil⟩
  | last operand => exact ⟨[ts'], .last (operand.recased keeps recased), .cons recased .nil⟩
  | cons operand parted _ ih =>
    obtain ⟨us', _, named, rfl, first, rest⟩ := recased.append_inv
    obtain ⟨comma', _, rfl, comma, rest⟩ := rest.cons_inv
    rw [parted] at rest
    obtain ⟨parts', listed', later⟩ := ih rest
    exact ⟨us' :: parts', .cons (operand.recased keeps first) (comma.kind.trans parted) listed', .cons first later⟩

end Grammar

theorem CommaList.recased {α : Type} {item : List Token → α → Prop} {as : List α} (listed : CommaList item ts as)
    (keeps : ∀ ts ts' a, item ts a → Recased false ts ts' → item ts' a) (recased : Recased false ts ts') :
    CommaList item ts' as := by
  induction listed generalizing ts' with
  | last shape => exact .last (keeps _ _ _ shape recased)
  | cons shape parted _ ih =>
    obtain ⟨us', _, named, rfl, first, rest⟩ := recased.append_inv
    obtain ⟨comma', _, rfl, comma, rest⟩ := rest.cons_inv
    rw [parted] at rest
    exact .cons (keeps _ _ _ shape first) (comma.kind.trans parted) (ih rest)

end Operands

/-! ## Statements -/

section Statements

variable {ts ts' : List Token}

theorem LineStop.recased {behind : List Token} (stop : LineStop ts behind) {named : Bool}
    (recased : Recased named ts ts') :
    ∃ behind', LineStop ts' behind' := by
  cases stop with
  | ended =>
    cases recased
    exact ⟨[], .ended⟩
  | separator ends =>
    obtain ⟨stop', behind', rfl, same, -⟩ := recased.cons_inv
    exact ⟨behind', .separator (same.isSeparator.trans ends)⟩

theorem LineEnd.recased {behind : List Token} (ends : LineEnd ts behind) {named : Bool}
    (recased : Recased named ts ts') :
    ∃ behind', LineEnd ts' behind' := by
  cases ends with
  | plain stop =>
    obtain ⟨behind', stop'⟩ := stop.recased recased
    exact ⟨behind', .plain stop'⟩
  | commented comment stop =>
    obtain ⟨t', _, rfl, same, rest⟩ := recased.cons_inv
    obtain ⟨behind', stop'⟩ := stop.recased rest
    exact ⟨behind', .commented (same.isComment.trans comment) stop'⟩

/-- Directives that record the spelling of words. -/
def Directive.records : Directive → Bool
  | .namedSection | .constantDefinition | .macroHeader => true
  | _ => false

theorem DirectiveOperands.recased {pos : Position} {d : Directive} {ss : List Step}
    (operands : DirectiveOperands pos d ts ss)
    (other : d.records = false) (recased : Recased false ts ts') : DirectiveOperands pos d ts' ss := by
  cases operands with
  | standardSection =>
    cases recased
    exact .standardSection
  | macroEnd =>
    cases recased
    exact .macroEnd
  | values listed => exact .values (listed.recased (fun _ _ _ => IsConstant.recased) recased)
  | zeros kind =>
    obtain ⟨t', rfl, same⟩ := recased.singleton_inv
    rw [← same.number]
    exact .zeros (same.kind.trans kind)
  | @text t terminated body bytes kind quoted unescaped =>
    obtain ⟨t', rfl, same⟩ := recased.singleton_inv
    have raw : t'.raw = t.raw := same.raw (by simp [Token.caseless, Token.isWord, kind, TokenKind.isWord])
    exact .text (same.kind.trans kind) (by rw [Token.literalBody?, raw, ← Token.literalBody?, quoted]) unescaped
  | plainSection | dottedSection | constantDefinition | macroHeader | macroParameters => cases other

variable {isa : InstructionSet} {t t' : Token} {free : Prop} (same : t.Recased free t')
  {last last' : Position} {ss : List Step}
include same

theorem statement_instruction_recased (recased : Recased false ts ts')
    (read : Reader.statement (instructionStep isa t) ⟨ts, last⟩ = ⟨ss, none⟩) :
    Reader.statement (instructionStep isa t') ⟨ts', last'⟩ = ⟨ss, none⟩ := by
  obtain ⟨op, o, us, parts, rest, behind, whole, known, format, listed, ends, rfl⟩ :=
    statement_instruction_iff.mp read
  cases whole
  obtain ⟨us', rest', named, rfl, first, second⟩ := recased.append_inv
  obtain ⟨parts', listed', -⟩ := listed.recased @IsConstant.recased first
  obtain ⟨behind', ends'⟩ := ends.recased second
  refine statement_instruction_iff.mpr ⟨op, o, us', parts', rest', behind', rfl, ?_, format, listed', ends', ?_⟩
  · rw [same.name, known]
  · rw [same.pos]

theorem statement_directive_recased (recased : Recased true ts ts')
    (other : ∀ name us d, ts = name :: us → name.isWord → directiveTable.lookup name.name = some d →
      d.records = false)
    (read : Reader.statement (Reader.directive t) ⟨ts, last⟩ = ⟨ss, none⟩) :
    Reader.statement (Reader.directive t') ⟨ts', last'⟩ = ⟨ss, none⟩ := by
  obtain ⟨name, d, us, rest, behind, whole, word, known, operands, ends⟩ := statement_directive_iff.mp read
  cases whole
  obtain ⟨name', _, rfl, names, recased⟩ := recased.cons_inv
  rw [decide_eq_false (Token.kind_ne_of_isWord word rfl)] at recased
  obtain ⟨us', rest', named, rfl, first, second⟩ := recased.append_inv
  obtain ⟨behind', ends'⟩ := ends.recased second
  refine statement_directive_iff.mpr ⟨name', d, us', rest', behind', rfl, names.isWord.trans word, ?_, ?_, ends'⟩
  · rw [names.name, known]
  · rw [same.pos]
    exact operands.recased (other name _ d rfl word known) first

end Statements

/-! ## Pseudo-instructions -/

theorem readOperands_immediate {ts : List Token} {value : Except RangeFault Constant}
    (shape : IsImmediate ts value) {pos : Position}
    {kinds : List OperandKind} {more : List (List Token)} {os : List Operand} :
    readOperands pos (.immediate :: kinds) (ts :: more) = .ok os ↔
      ∃ c os', value = .ok c ∧ readOperands pos kinds more = .ok os' ∧ os = .constant c :: os' := by
  obtain ⟨t, -, u, -, read⟩ := constant_immediate shape follows_nil pos
  rw [List.append_nil] at read
  constructor
  · intro given
    obtain ⟨⟨o, d⟩, first, given⟩ := bind_eq_ok.mp given
    obtain ⟨os', later, same⟩ := bind_eq_ok.mp given
    obtain ⟨c, d', here, made⟩ := reader_bind_eq_ok.mp first
    cases same
    cases made
    rw [read] at here
    cases value with
    | error fault => cases here
    | ok c' =>
      cases here
      exact ⟨c, os', rfl, later, rfl⟩
  · rintro ⟨c, os', rfl, later, rfl⟩
    exact bind_eq_ok.mpr ⟨_, reader_bind_eq_ok.mpr ⟨c, _, read, rfl⟩, bind_eq_ok.mpr ⟨os', later, rfl⟩⟩

theorem readOperands_recased {pos : Position} {kinds : List OperandKind} {groups groups' : List (List Token)}
    (operands : AreOperands kinds groups) (recased : List.Forall₂ (Recased false) groups groups') {os : List Operand}
    (read : readOperands pos kinds groups = .ok os) : readOperands pos kinds groups' = .ok os := by
  induction operands generalizing groups' os with
  | nil =>
    cases recased
    exact read
  | @register t kinds more kind _ ih =>
    cases recased with
    | cons first rest =>
      obtain ⟨t', rfl, same⟩ := first.singleton_inv
      rw [readOperands_register kind] at read
      obtain ⟨os', later, rfl⟩ := map_eq_ok.mp read
      rw [readOperands_register (same.kind.trans kind), ih rest later, same.number]
      rfl
  | immediate shape _ ih =>
    cases recased with
    | cons first rest =>
      obtain ⟨c, os', value, later, rfl⟩ := (readOperands_immediate shape).mp read
      exact (readOperands_immediate (shape.recased first)).mpr ⟨c, os', value, ih rest later, rfl⟩

/-- Operands in another case give the instructions that they gave before. -/
theorem Means.recased {name : String} {pos : Position} {kinds : List OperandKind} {groups groups' : List (List Token)}
    {is : List Instruction} {result : Except RangeFault (List Instruction)}
    (means : Means name pos kinds groups (.ok is))
    (operands : AreOperands kinds groups) (recased : List.Forall₂ (Recased false) groups groups')
    (means' : Means name pos kinds groups' result) : result = .ok is := by
  obtain ⟨os, read, meaning⟩ := means
  have read' := readOperands_recased operands recased read
  cases result with
  | error fault =>
    obtain ⟨-, pos, failed⟩ := means'
    rw [read'] at failed
    cases failed
  | ok is' =>
    obtain ⟨os', again, meaning'⟩ := means'
    rw [read'] at again
    cases again
    rw [meaning] at meaning'
    cases meaning'
    rfl

/-- The second run does what the first does, if the first goes to its end. -/
def Run.Repeats (r s : Run Step) : Prop := r.failure = none → s.edits = r.edits

namespace Run

variable {r s r' s' : Run Step}

theorem repeats_refl (r : Run Step) : Repeats r r := fun _ => rfl
theorem repeats_of_failure {e : Error} (failed : r.failure = some e) : Repeats r s :=
  fun ended => by simp [failed] at ended

theorem Repeats.append (first : Repeats r s) (second : Repeats r' s') : Repeats (r ++ r') (s ++ s') := by
  intro ended
  obtain ⟨ended, ended'⟩ := failure_append ended
  rw [edits_append, edits_append, first ended, second ended']

theorem Repeats.cons (rest : Repeats r s) (step : Step) : Repeats (.cons step r) (.cons step s) := by
  intro ended
  have whole (r : Run Step) : Run.cons step r = ⟨[step], none⟩ ++ r := rfl
  rw [whole, whole, edits_append, edits_append, rest ended]

theorem repeats_statement {read read' : Reader (List Step)} {c c' : Cursor}
    (same : ∀ ss, Reader.statement read c = ⟨ss, none⟩ → Reader.statement read' c' = ⟨ss, none⟩) :
    Repeats (Reader.statement read c) (Reader.statement read' c') := by
  intro ended
  have done := eq_of_ended ended
  rw [same _ done]
  exact congrArg edits done.symm

end Run

section Pseudo

variable {t t' : Token} {free : Prop} (same : t.Recased free t') {rest rest' : List Token}
  (recased : Recased false rest rest')
  (spelled : ∀ u ∈ rest, u.WellSpelled bisc) (spelled' : ∀ u ∈ rest', u.WellSpelled bisc)
  (room : t.depth + 2 < maxDepth)
include same recased spelled spelled' room

/-- The arguments are in the same form or in none. In a form they are read again with its lines as
    they are, and come to the same; in none they are those of a real instruction. -/
theorem repeats_readPseudo (n : Nat) :
    Run.Repeats (readPseudo bisc (readTokens bisc (n + 3)) t rest)
      (readPseudo bisc (readTokens bisc (n + 3)) t' rest') := by
  have arguments := recased.line.uncommented
  cases found : matchForm? (bisc.forms t.name) (Token.uncommented (Token.line rest)) with
  | none =>
    have found' : matchForm? (bisc.forms t'.name) (Token.uncommented (Token.line rest')) = none := by
      -- Which forms take arguments depends on the kinds of their tokens only.
      rw [same.name, matchForm?_eq_none]
      intro form member
      have none := matchForm?_eq_none.mp found form member
      rw [← Option.isNone_iff_eq_none, splitOperands_kinds _ arguments.kinds, none]
      rfl
    rw [readPseudo, readPseudo]
    simp only [found, found']
    rw [same.name]
    split
    · exact Run.repeats_statement fun ss => statement_instruction_recased same (arguments.append recased.stop)
    · exact Run.repeats_of_failure rfl
  | some form =>
    obtain ⟨form, texts⟩ := form
    obtain ⟨member, groups, split, -⟩ := split_of_matchForm? found
    obtain ⟨values, listed⟩ := listed_of_split split
    obtain ⟨groups', listed', regrouped⟩ := listed.recased @IsImmediate.recased arguments
    have entry := mem_pseudoTable member
    have entry' : (t'.name, form) ∈ pseudoTable := by rwa [same.name]
    -- Both unfold to the meaning of the mnemonic for their operands, which is the same wherever the first has one.
    obtain ⟨result, means, unfolds⟩ := unfolds_pseudo entry split spelled n
    obtain ⟨result', means', unfolds'⟩ := unfolds_pseudo entry' (split_of_listed listed') spelled' n
    have shallow : ¬maxDepth ≤ t.depth + 2 := by omega
    have edits := unfolds.resolve_right fun deep => shallow deep.1
    have edits' := unfolds'.resolve_right fun deep => shallow (same.depth ▸ deep.1)
    rw [same.name, same.pos] at means'
    rw [same.pos] at edits'
    cases result with
    | error fault =>
      refine Run.repeats_of_failure (e := ⟨.outOfRange fault, t.pos⟩) ?_
      rw [← Run.edits_failure, edits]
      rfl
    | ok is =>
      have simple : ∀ entry ∈ pseudoTable, OperandKind.memory ∉ entry.2.signature := by decide
      have meant := means.recased (areOperands_of_listed (simple _ entry) listed) regrouped means'
      intro _
      rw [edits, edits', meant]

end Pseudo

/-! ## Lines -/

/-- No directive of the list is one that records how words are spelled. -/
def Unrecording (ts : List Token) : Prop :=
  ∀ us name, us <:+ ts → directiveAt? us = some name → name ∉ ["define", "macro", "section"]

theorem Unrecording.suffix {ts us : List Token} (unrecording : Unrecording ts)
    (behind : us <:+ ts) : Unrecording us :=
  fun vs name later => unrecording vs name (later.trans behind)

theorem records_of_unrecording {dot name : Token} {us : List Token}
    (dotted : dot.kind = .directive) (word : name.isWord)
    (unrecording : Unrecording (dot :: name :: us)) {d : Directive}
    (known : directiveTable.lookup name.name = some d) :
    d.records = false := by
  have table : ∀ entry ∈ directiveTable, entry.2.records → entry.1 ∈ ["define", "macro", "section"] := by decide
  have here := unrecording _ name.name List.suffix_rfl (if_pos ⟨dotted, word⟩)
  obtain ⟨earlier, later, split, -⟩ := List.lookup_eq_some_iff.mp known
  by_contra records
  exact here (table (name.name, d) (by simp [split]) (by simpa using records))

section Lines

/-- The tokens were read from a text, and leave room for the levels of a pseudo-instruction. -/
def Fresh (t : Token) : Prop := t.WellSpelled bisc ∧ t.depth + 2 < maxDepth

theorem repeats_readLine (n : Nat) {l l' : List Token} (recased : Recased false l l') (fresh : ∀ t ∈ l, Fresh t)
    (fresh' : ∀ t ∈ l', Fresh t) (unrecording : Unrecording l) :
    Run.Repeats (readLine bisc (readTokens bisc (n + 3)) l) (readLine bisc (readTokens bisc (n + 3)) l') := by
  induction length : l.length using Nat.strong_induction_on generalizing l l' with
  | _ m ih =>
    cases recased with
    | nil => exact Run.repeats_refl _
    | @cons _ t t' ts ts' same rest =>
      obtain ⟨here, later⟩ := List.forall_mem_cons.mp fresh
      obtain ⟨here', later'⟩ := List.forall_mem_cons.mp fresh'
      have behind := unrecording.suffix (List.suffix_cons t ts)
      rw [readLine.eq_def, readLine.eq_def]
      dsimp only
      rw [same.kind]
      cases kind : t.kind with
      | comment | lineSeparator =>
        rw [kind] at rest
        exact ih _ (by simp [← length]) rest later later' behind rfl
      | identifier =>
        rw [Recased.raw_identifier same kind, same.pos]
        cases rest with
        | nil => exact Run.repeats_of_failure rfl
        | @cons _ colon colon' ts ts' colons rest =>
          dsimp only
          rw [colons.kind]
          split
          · rename_i marked
            rw [marked] at rest
            exact (ih _ (by simp [← length]) rest (List.forall_mem_cons.mp later).2 (List.forall_mem_cons.mp later').2
              (behind.suffix (List.suffix_cons colon ts)) rfl).cons _
          · exact Run.repeats_of_failure rfl
      | opcode =>
        rw [kind] at rest
        exact Run.repeats_statement fun ss => statement_instruction_recased same rest
      | pseudoOp =>
        rw [kind] at rest
        exact repeats_readPseudo same rest (fun u member => (later u member).1)
          (fun u member => (later' u member).1) here.2 n
      | directive =>
        rw [kind] at rest
        refine Run.repeats_statement fun ss =>
          statement_directive_recased same rest fun name us d split word known => ?_
        subst split
        exact records_of_unrecording kind word unrecording known
      | _ => exact Run.repeats_of_failure rfl

theorem repeats_lines (n : Nat) {ls ls' : List (List Token)} (recased : List.Forall₂ (Recased false) ls ls')
    (fresh : ∀ l ∈ ls, ∀ t ∈ l, Fresh t) (fresh' : ∀ l ∈ ls', ∀ t ∈ l, Fresh t)
    (unrecording : ∀ l ∈ ls, Unrecording l) :
    Run.Repeats ((ls.map (readLine bisc (readTokens bisc (n + 3)))).foldr (· ++ ·) .done)
      ((ls'.map (readLine bisc (readTokens bisc (n + 3)))).foldr (· ++ ·) .done) := by
  induction recased with
  | nil => exact Run.repeats_refl _
  | cons first _ ih =>
    obtain ⟨here, later⟩ := List.forall_mem_cons.mp fresh
    obtain ⟨here', later'⟩ := List.forall_mem_cons.mp fresh'
    obtain ⟨own, others⟩ := List.forall_mem_cons.mp unrecording
    exact (repeats_readLine n first here here' own).append (ih later later' others)

theorem unrecording_of_lines {ts l : List Token} (member : l ∈ Token.lines ts)
    (unrecording : Unrecording ts) : Unrecording l := by
  rintro us name ⟨front, rfl⟩ directive
  obtain ⟨before, after, split⟩ := List.append_of_mem member
  have whole := lines_flatten ts
  rw [split, List.flatten_append, List.flatten_cons] at whole
  have behind : us ++ after.flatten <:+ ts := ⟨before.flatten ++ front, by rw [← whole]; simp⟩
  -- The name of a directive is its second token, so the lines that follow do not change it.
  match us with
  | [] => cases directive
  | [_] => cases directive
  | dot :: word :: us => exact unrecording (dot :: word :: us ++ after.flatten) name behind directive

theorem repeats_steps {ts ts' : List Token} (recased : Recased false ts ts') (fresh : ∀ t ∈ ts, Fresh t)
    (fresh' : ∀ t ∈ ts', Fresh t)
    (unrecording : Unrecording ts) : Run.Repeats (steps bisc ts) (steps bisc ts') := by
  have cut : List.Forall₂ (Recased false) (Token.lines ts) (Token.lines ts') := by
    rcases recased.lines with ⟨left, right⟩ | ⟨l, l', ls, ls', left, right, first, later⟩
    · rw [left, right]
      exact .nil
    · rw [left, right]
      exact .cons first later
  exact repeats_lines (maxDepth - 3) cut (fun l line t member => fresh t (mem_of_lines line member))
    (fun l line t member => fresh' t (mem_of_lines line member)) fun l line => unrecording_of_lines line unrecording

end Lines

/-! ## Programs -/

theorem parse_recased {ts ts' : List Token} (recased : Recased false ts ts') (fresh : ∀ t ∈ ts, Fresh t)
    (fresh' : ∀ t ∈ ts', Fresh t)
    (unrecording : Unrecording ts) {p : Program} (parsed : parse bisc ts = .ok p) : parse bisc ts' = .ok p := by
  rw [parse_eq_programOf] at parsed ⊢
  have ended := programOf_ok_iff.mp ⟨p, parsed⟩
  rw [← programOf_edits, repeats_steps recased fresh fresh' unrecording ended, programOf_edits, parsed]

theorem fresh_of_tokenize {s : String} {t : Token} (member : t ∈ tokenize bisc s) : Fresh t :=
  ⟨wellSpelled_of_tokenize member, by rw [depth_of_tokenize member]; decide⟩

theorem Recased.directiveAt? {named : Bool} {ts ts' : List Token} (recased : Recased named ts ts') :
    directiveAt? ts' = directiveAt? ts := by
  cases recased with
  | nil => rfl
  | cons dots rest =>
    cases rest with
    | nil => rfl
    | cons words _ => rw [Bisc.directiveAt?, Bisc.directiveAt?, dots.kind, words.isWord, words.name]

theorem Recased.unrecording {named : Bool} {ts ts' : List Token} (recased : Recased named ts ts')
    (unrecording : Unrecording ts) :
    Unrecording ts' := by
  rintro us' name ⟨front', rfl⟩ directive
  obtain ⟨front, us, named', rfl, -, second⟩ := recased.symm.append_inv
  rw [← second.directiveAt?] at directive
  exact unrecording us name (List.suffix_append front us) directive

theorem preprocess_unrecording {ts : List Token} (uninvoking : ∀ t ∈ ts, t.kind ≠ .macroOp)
    (unrecording : Unrecording ts) :
    preprocess ts = .ok ts := by
  refine preprocess_unchanged (fun us behind => ⟨fun define => ?_, fun template => ?_⟩) uninvoking
  · exact unrecording us _ behind define (by decide)
  · exact unrecording us _ behind template (by decide)

theorem Recased.uninvoking {named : Bool} {ts ts' : List Token} (recased : Recased named ts ts')
    (uninvoking : ∀ t ∈ ts, t.kind ≠ .macroOp) : ∀ t ∈ ts', t.kind ≠ .macroOp := by
  intro t member invoking
  have kinds : t.kind ∈ ts'.map Token.kind := List.mem_map_of_mem member
  rw [recased.kinds] at kinds
  obtain ⟨u, own, kind⟩ := List.mem_map.mp kinds
  exact uninvoking u own (kind.trans invoking)

theorem build_recased {s s' : String} (recased : Recased false (tokenize bisc s) (tokenize bisc s'))
    (uninvoking : ∀ t ∈ tokenize bisc s, t.kind ≠ .macroOp) (unrecording : Unrecording (tokenize bisc s)) {b : Build}
    (built : build s = .ok b) : build s' = .ok b := by
  obtain ⟨p, parsed, rest⟩ := bind_eq_ok.mp built
  obtain ⟨ts, preprocessed, parsed⟩ := bind_eq_ok.mp parsed
  rw [preprocess_unrecording uninvoking unrecording] at preprocessed
  cases preprocessed
  have preprocessed' := preprocess_unrecording (recased.uninvoking uninvoking) (recased.unrecording unrecording)
  have parsed' := parse_recased recased (fun t => fresh_of_tokenize) (fun t => fresh_of_tokenize) unrecording parsed
  exact bind_eq_ok.mpr ⟨p, bind_eq_ok.mpr ⟨_, preprocessed', parsed'⟩, rest⟩

/-- Mnemonics, registers and directives may be spelled in any case. Sources that differ in the
    letter case of such words are both accepted or both refused, and come to the same program,
    symbols and object. -/
theorem words_in_any_case {s s' : String}
    (variant : CaseVariant (caselessAt false (tokenize bisc s) ·) ⟨1, 1⟩ s.toList s'.toList)
    (uninvoking : ∀ t ∈ tokenize bisc s, t.kind ≠ .macroOp) (unrecording : Unrecording (tokenize bisc s))
    (b : Build) :
    build s = .ok b ↔ build s' = .ok b := by
  have recased := recased_tokenize variant
  exact ⟨build_recased recased uninvoking unrecording,
    build_recased recased.symm (recased.uninvoking uninvoking) (recased.unrecording unrecording)⟩

/-- The tokens of a loop whose label is a capital. -/
private def capitalLoop : List Token := [⟨.identifier, "L", none, ⟨1, 1⟩, 0⟩, ⟨.colon, ":", none, ⟨1, 2⟩, 0⟩,
  ⟨.opcode, "LLI", some 0x10, ⟨1, 4⟩, 0⟩, ⟨.register, "R1", some 1, ⟨1, 8⟩, 0⟩, ⟨.comma, ",", none, ⟨1, 10⟩, 0⟩,
  ⟨.directive, ".", none, ⟨1, 12⟩, 0⟩, ⟨.identifier, "Lo", none, ⟨1, 13⟩, 0⟩, ⟨.identifier, "L", none, ⟨1, 16⟩, 0⟩,
  ⟨.lineSeparator, "\n", none, ⟨1, 17⟩, 0⟩, ⟨.pseudoOp, "goto", none, ⟨2, 1⟩, 0⟩, ⟨.identifier, "L", none, ⟨2, 6⟩, 0⟩]

/-- All words but the label are in another case. -/
theorem words_in_any_case_capitalLoop :
    CaseVariant (caselessAt false (tokenize bisc "L: LLI R1, .Lo L\ngoto L") ·) ⟨1,
      1⟩ "L: LLI R1, .Lo L\ngoto L".toList
      "L: lli r1, .lO L\nGOTO L".toList ∧
    (∀ t ∈ tokenize bisc "L: LLI R1, .Lo L\ngoto L", t.kind ≠ .macroOp) ∧
    Unrecording (tokenize bisc "L: LLI R1, .Lo L\ngoto L") ∧
    ∃ b, build "L: LLI R1, .Lo L\ngoto L" = .ok b ∧ build "L: lli r1, .lO L\nGOTO L" = .ok b := by
  have tokens : tokenize bisc "L: LLI R1, .Lo L\ngoto L" = capitalLoop := by decide +kernel
  have variant : CaseVariant (caselessAt false (tokenize bisc "L: LLI R1, .Lo L\ngoto L") ·) ⟨1, 1⟩
      "L: LLI R1, .Lo L\ngoto L".toList "L: lli r1, .lO L\nGOTO L".toList := by
    rw [tokens]
    decide +kernel
  have uninvoking : ∀ t ∈ tokenize bisc "L: LLI R1, .Lo L\ngoto L", t.kind ≠ .macroOp := by
    rw [tokens]
    decide
  have unrecording : Unrecording (tokenize bisc "L: LLI R1, .Lo L\ngoto L") := by
    have tails : ∀ us ∈ capitalLoop.tails, ∀ name ∈ directiveAt? us, name ∉ ["define", "macro", "section"] := by
      decide +kernel
    rw [tokens]
    exact fun us name behind => tails us ((List.mem_tails us capitalLoop).mpr behind) name
  have accepted : (build "L: LLI R1, .Lo L\ngoto L").isOk := by
    unfold build parseSource
    rw [preprocess_unrecording uninvoking unrecording, tokens]
    decide +kernel
  obtain ⟨b, built⟩ : ∃ b, build "L: LLI R1, .Lo L\ngoto L" = .ok b := by
    cases result : build "L: LLI R1, .Lo L\ngoto L" with
    | ok b => exact ⟨b, rfl⟩
    | error e =>
      rw [result] at accepted
      cases accepted
  exact ⟨variant, uninvoking, unrecording, b, built, (words_in_any_case variant uninvoking unrecording b).mp built⟩

end Bisc
