import Bisc.Proofs.Readers
import Bisc.Proofs.SelectedParts
import Bisc.Proofs.Spelling

/-!
What is read does not depend on places. From tokens of the same kinds, spellings and values readers
give the same values, wherever the tokens stand; and what they give is made of the names, registers
and constants that the tokens spell.
-/
namespace Bisc

variable {α β γ δ : Type} {P : Token → Prop}

/-- The second token is the first at another place, and was expanded no more often; the first has the property. -/
structure Token.Alike (P : Token → Prop) (t u : Token) : Prop where
  kind : u.kind = t.kind
  raw : u.raw = t.raw
  value : u.value = t.value
  depth : u.depth ≤ t.depth
  holds : P t

namespace Token.Alike

variable {t u : Token} (alike : t.Alike P u)
include alike

theorem name : u.name = t.name := by rw [Token.name, alike.raw, Token.name]
theorem number : u.number = t.number := by rw [Token.number, alike.value, Token.number]
theorem isWord : u.isWord = t.isWord := by rw [Token.isWord, alike.kind, Token.isWord]
theorem literalBody? : u.literalBody? = t.literalBody? := by rw [Token.literalBody?, alike.raw, Token.literalBody?]
theorem isComment : u.isComment = t.isComment := by rw [Token.isComment, alike.kind, Token.isComment]
theorem isSeparator : u.isSeparator = t.isSeparator := by rw [Token.isSeparator, alike.kind, Token.isSeparator]

end Token.Alike

/-! ## What tokens spell -/

/-- The name is an identifier among tokens with the property. -/
def Named (P : Token → Prop) (name : String) : Prop := ∃ t, P t ∧ t.kind = .identifier ∧ t.raw = name

/-- The index is that of a register among tokens with the property. -/
def Indexed (P : Token → Prop) (index : UInt8) : Prop := ∃ t, P t ∧ t.kind = .register ∧ t.number.toUInt8 = index

/-- A number, a symbol, or one or two bytes of a symbol. -/
inductive Constant.Simple (P : Token → Prop) : Constant → Prop
  | number (value : UInt32) : Simple P (.number value)
  | symbol {name : String} (named : Named P name) : Simple P (.symbol name)
  | slice {name : String} {first last : UInt8} (named : Named P name) (ordered : first ≤ last) (inside : last ≤ 3)
      (narrow : last.toNat - first.toNat ≤ 1) : Simple P (.part (.symbol name) (.bytes first last))

/-- A simple constant, or a half of one. -/
inductive Constant.Written (P : Token → Prop) : Constant → Prop
  | simple {c : Constant} (inner : c.Simple P) : Written P c
  | lo {c : Constant} (inner : c.Simple P) : Written P (.part c .lo)
  | hi {c : Constant} (inner : c.Simple P) : Written P (.part c .hi)

/-- Operands with registers and constants that are written. -/
inductive Operands.Written (P : Token → Prop) : Operands → Prop
  | bare : Written P .bare
  | reg {r : UInt8} (register : Indexed P r) : Written P (.reg r)
  | regImm {r : UInt8} {imm : Constant} (register : Indexed P r) (constant : imm.Written P) : Written P
      (.regImm r imm)
  | regMem {dst base : UInt8} {offset : Constant} (target : Indexed P dst) (register : Indexed P base)
      (constant : offset.Written P) : Written P (.regMem dst base offset)
  | regReg {dst src : UInt8} (target : Indexed P dst) (register : Indexed P src) : Written P (.regReg dst src)
  | regRegReg {dst src₁ src₂ : UInt8} (target : Indexed P dst) (first : Indexed P src₁) (second : Indexed P src₂) :
      Written P (.regRegReg dst src₁ src₂)

/-- What a statement can add. The start of a section is none of it. -/
inductive Node.Written (isa : InstructionSet) (P : Token → Prop) : Node → Prop
  | label {name : String} (named : Named P name) : Written isa P (.label name)
  | instruction {op : Opcode} {operands : Operands} (listed : op ∈ isa.opcodes) (format : operands.format = op.format)
      (written : operands.Written P) : Written isa P (.instruction ⟨op.code, operands⟩)
  | bytes (bs : List UInt8) : Written isa P (.data (.bytes bs))
  | zeros (count : UInt32) : Written isa P (.data (.zeros count))
  | values {width : Width} {cs : List Constant} (filled : cs ≠ []) (written : ∀ c ∈ cs, c.Written P) :
      Written isa P (.data (.values width cs))
  | constantRecord (name value : String) : Written isa P (.constantRecord name value)
  | macroRecord (name : String) (params : List String) : Written isa P (.macroRecord name params)

/-! ## Parallel runs -/

/-- Token lists of which each member of the second is the member of the first at another place. -/
abbrev AllAlike (P : Token → Prop) : List Token → List Token → Prop := List.Forall₂ (Token.Alike P)

/-- From tokens that are alike both readers give values in relation and leave tokens that are alike, or both fail. -/
def Parallel (P : Token → Prop) (related : α → β → Prop) (r : Reader α) (s : Reader β) : Prop :=
  ∀ c d, AllAlike P c.rest d.rest →
    Agree (fun _ => True) (fun x y => related x.1 y.1 ∧ AllAlike P x.2.rest y.2.rest) (r c) (s d)

/-- The values are the same, and the value has the property. -/
def Same (good : α → Prop) (a b : α) : Prop := b = a ∧ good a

section Combinators

variable {related : α → β → Prop} {related' : γ → δ → Prop}

theorem Parallel.bind {r : Reader α} {s : Reader β} {f : α → Reader γ} {g : β → Reader δ}
    (first : Parallel P related r s)
    (rest : ∀ a b, related a b → Parallel P related' (f a) (g b)) : Parallel P related' (r >>= f) (s >>= g) := by
  intro c d alike
  refine Agree.bind (first c d alike) ?_
  rintro ⟨a, c'⟩ ⟨b, d'⟩ - - ⟨same, alike'⟩
  exact rest a b same c' d' alike'

theorem Parallel.mono {r : Reader α} {s : Reader β} {weaker : α → β → Prop} (run : Parallel P related r s)
    (implied : ∀ a b, related a b → weaker a b) : Parallel P weaker r s := by
  intro c d alike
  have agreed := run c d alike
  generalize r c = x at agreed ⊢
  generalize s d = y at agreed ⊢
  cases agreed with
  | ok same => exact .ok ⟨implied _ _ same.1, same.2⟩
  | error here => exact .error here

theorem parallel_pure {a : α} {b : β} (same : related a b) : Parallel P related (pure a : Reader α) (pure b) :=
  fun _ _ alike => .ok ⟨same, alike⟩
theorem parallel_throw {e e' : Error} : Parallel P related (throw e : Reader α) (throw e') :=
  fun _ _ _ => .error trivial

end Combinators

/-! ## Single tokens -/

theorem parallel_next (what : Expected) : Parallel P (Token.Alike P) (Reader.next what) (Reader.next what) := by
  rintro ⟨ts, p⟩ ⟨us, q⟩ alike
  cases alike with
  | nil => exact .error trivial
  | cons first rest => exact .ok ⟨first, rest⟩

/-- A token is taken that passes a test on kinds. -/
theorem parallel_passing (what : Expected) (test : TokenKind → Prop) [DecidablePred test] :
    Parallel P (fun t u => t.Alike P u ∧ test t.kind)
      (do let t ← Reader.next what; if test t.kind then return t else throw (t.refused what))
      (do let t ← Reader.next what; if test t.kind then return t else throw (t.refused what)) := by
  refine (parallel_next what).bind fun t u alike => ?_
  rw [alike.kind]
  by_cases passes : test t.kind
  · rw [if_pos passes, if_pos passes]
    exact parallel_pure ⟨alike, passes⟩
  · rw [if_neg passes, if_neg passes]
    exact parallel_throw

theorem parallel_expect (kind : TokenKind) :
    Parallel P (fun t u => t.Alike P u ∧ t.kind = kind) (Reader.expect kind) (Reader.expect kind) :=
  parallel_passing (.token kind) (· = kind)
theorem parallel_word (what : Expected) :
    Parallel P (fun t u => t.Alike P u ∧ t.isWord) (Reader.word what) (Reader.word what) :=
  parallel_passing what (·.isWord)

theorem head_any_alike {ts us : List Token} (alike : AllAlike P ts us) {test : Token → Bool}
    (same : ∀ t u : Token, t.Alike P u → test u = test t) : us.head?.any test = ts.head?.any test := by
  cases alike with
  | nil => rfl
  | cons first rest => exact same _ _ first

theorem parallel_nextIs (kind : TokenKind) :
    Parallel P (Same fun _ => True) (Reader.nextIs kind) (Reader.nextIs kind) := by
  intro c d alike
  refine .ok ⟨⟨head_any_alike alike fun t u same => ?_, trivial⟩, alike⟩
  rw [same.kind]

theorem parallel_register : Parallel P (Same (Indexed P)) Reader.register Reader.register := by
  refine (parallel_expect .register).bind fun t u ⟨alike, kind⟩ => parallel_pure ⟨?_, t, alike.holds, kind, rfl⟩
  rw [alike.number]

/-! ## Constants -/

theorem parallel_slice {t u : Token} (alike : t.Alike P u) (kind : t.kind = .identifier) :
    Parallel P (Same (Constant.Simple P)) (Reader.slice t) (Reader.slice u) := by
  refine (parallel_expect .leftParen).bind fun _ _ _ => ?_
  refine (parallel_expect .immediate).bind fun first first' low => ?_
  refine (parallel_expect .colon).bind fun _ _ _ => ?_
  refine (parallel_expect .immediate).bind fun last last' high => ?_
  refine (parallel_expect .rightParen).bind fun _ _ _ => ?_
  dsimp only
  rw [low.1.number, high.1.number, alike.raw]
  split
  · have refused {e e' : Error} :
        Parallel P (fun _ _ => False) (throw e : Reader PUnit) (throw e' : Reader PUnit) := parallel_throw
    exact refused.bind fun _ _ impossible => impossible.elim
  · rename_i fits
    simp only [not_or, gt_iff_lt, UInt32.not_lt, Nat.not_lt] at fits
    obtain ⟨ordered, inside, narrow⟩ := fits
    obtain ⟨ordered, inside, narrow⟩ := bytes_of_words ordered inside narrow
    exact parallel_pure ⟨rfl, .slice ⟨t, alike.holds, kind, rfl⟩ ordered inside narrow⟩

theorem parallel_plainConstant (what : Expected) {t u : Token} (alike : t.Alike P u) :
    Parallel P (Same (Constant.Simple P)) (Reader.plainConstant what t) (Reader.plainConstant what u) := by
  unfold Reader.plainConstant
  rw [alike.kind]
  cases kind : t.kind with
  | immediate => exact parallel_pure ⟨by rw [alike.number], .number _⟩
  | identifier =>
    refine (parallel_nextIs .leftParen).bind fun sliced _ ⟨same, _⟩ => ?_
    rw [same]
    split
    · exact parallel_slice alike kind
    · exact parallel_pure ⟨by rw [alike.raw], .symbol ⟨t, alike.holds, kind, rfl⟩⟩
  | _ => exact parallel_throw

theorem parallel_halfSelector {t u : Token} (alike : t.Alike P u) :
    Parallel P (Same fun s => s = .lo ∨ s = .hi)
    (Reader.halfSelector t : Reader Selector) (Reader.halfSelector u) := by
  unfold Reader.halfSelector
  rw [alike.name]
  split
  · exact parallel_pure ⟨rfl, .inl rfl⟩
  · split
    · exact parallel_pure ⟨rfl, .inr rfl⟩
    · exact parallel_throw

theorem parallel_constant : Parallel P (Same (Constant.Written P)) Reader.constant Reader.constant := by
  refine (parallel_next .constant).bind fun t u alike => ?_
  rw [alike.kind]
  split
  · refine (parallel_word .halfSelector).bind fun name name' ⟨named, _⟩ => ?_
    refine (parallel_halfSelector named).bind fun selector _ ⟨same, half⟩ => ?_
    subst same
    refine (parallel_next .constant).bind fun v w alike => ?_
    refine (parallel_plainConstant .plainConstant alike).bind fun c _ ⟨same, inner⟩ =>
      parallel_pure ⟨by rw [same], ?_⟩
    rcases half with rfl | rfl
    · exact .lo inner
    · exact .hi inner
  · exact (parallel_plainConstant .constant alike).mono fun c _ ⟨same, inner⟩ => ⟨same, .simple inner⟩

/-! ## Lists -/

section Lists

variable {item : Reader α} {good : α → Prop} (reads : Parallel P (Same good) item item)
include reads

theorem parallel_moreItems (n : Nat) :
    Parallel P (Same fun as => ∀ a ∈ as, good a) (Reader.moreItems item n) (Reader.moreItems item n) := by
  induction n with
  | zero => exact parallel_pure ⟨rfl, by simp⟩
  | succ n ih =>
    refine (parallel_nextIs .comma).bind fun more _ ⟨same, _⟩ => ?_
    rw [same]
    split
    · refine (parallel_expect .comma).bind fun _ _ _ => reads.bind fun a _ ⟨same, fine⟩ => ?_
      refine ih.bind fun as _ ⟨others, all⟩ => parallel_pure ⟨by rw [same, others], ?_⟩
      exact List.forall_mem_cons.mpr ⟨fine, all⟩
    · exact parallel_pure ⟨rfl, by simp⟩

theorem parallel_commaSeparated :
    Parallel P (Same fun as => as ≠ [] ∧ ∀ a ∈ as, good a) (Reader.commaSeparated item)
      (Reader.commaSeparated item) := by
  refine reads.bind fun a _ ⟨same, fine⟩ => ?_
  intro c d alike
  have run (x : α) (e : Cursor) : (do return x :: (← Reader.moreItems item (← get).rest.length) : Reader (List α)) e =
      (Reader.moreItems item e.rest.length >>= fun as => pure (x :: as)) e := rfl
  rw [run, run, ← alike.length_eq]
  refine (parallel_moreItems reads c.rest.length).bind (fun as _ ⟨others, all⟩ => parallel_pure ?_) c d alike
  exact ⟨by rw [same, others], by simp, List.forall_mem_cons.mpr ⟨fine, all⟩⟩

end Lists

/-- The tokens of lists that are alike, up to places and depths. -/
theorem AllAlike.retagged {ts us : List Token} (alike : AllAlike P ts us) :
    us.map (Token.retag ⟨0, 0⟩ 0) = ts.map (Token.retag ⟨0, 0⟩ 0) := by
  induction alike with
  | nil => rfl
  | cons first rest ih =>
    rw [List.map_cons, List.map_cons, ih, Token.retag, Token.retag, first.kind, first.raw, first.value]

theorem AllAlike.line {ts us : List Token} (alike : AllAlike P ts us) :
    AllAlike P (Token.line ts) (Token.line us) := by
  induction alike with
  | nil => exact .nil
  | @cons t u ts us first rest ih =>
    rw [Token.line, List.takeWhile_cons, Token.line, List.takeWhile_cons, first.isSeparator]
    split
    · exact .cons first ih
    · exact .nil

theorem AllAlike.afterLine {ts us : List Token} (alike : AllAlike P ts us) :
    AllAlike P (Token.afterLine ts) (Token.afterLine us) := by
  induction alike with
  | nil => exact .nil
  | @cons t u ts us first rest ih =>
    rw [Token.afterLine, List.dropWhile_cons, Token.afterLine, List.dropWhile_cons, first.isSeparator]
    split
    · exact ih
    · exact .cons first rest

theorem AllAlike.uncommented {ts us : List Token} (alike : AllAlike P ts us) :
    AllAlike P (Token.uncommented ts) (Token.uncommented us) := by
  induction alike with
  | nil => exact .nil
  | @cons t u ts us first rest ih =>
    rw [Token.uncommented, List.filter_cons, Token.uncommented, List.filter_cons, first.isComment]
    split
    · exact .cons first ih
    · exact ih

theorem AllAlike.lines {ts us : List Token} (alike : AllAlike P ts us) :
    List.Forall₂ (AllAlike P) (Token.lines ts) (Token.lines us) := by
  induction alike with
  | nil => exact .nil
  | @cons t u ts us first rest ih =>
    rw [Token.lines, Token.lines, first.isSeparator]
    split
    · exact .cons (.cons first .nil) ih
    · generalize Token.lines ts = ls at ih ⊢
      generalize Token.lines us = ms at ih ⊢
      cases ih with
      | nil => exact .cons (.cons first .nil) .nil
      | cons line more => exact .cons (.cons first line) more

theorem renderFrom_retag (pos : Position) (depth : Nat) (atStart : Bool) (ts : List Token) :
    Token.renderFrom atStart (ts.map (Token.retag pos depth)) = Token.renderFrom atStart ts := by
  induction ts generalizing atStart with
  | nil => rfl
  | cons t ts ih =>
    rw [List.map_cons, Token.renderFrom, Token.renderFrom, Token.retag_isSeparator, ih, ih]
    rfl

theorem AllAlike.render {ts us : List Token} (alike : AllAlike P ts us) : Token.render us = Token.render ts := by
  have same := congrArg Token.render alike.retagged
  rwa [Token.render, renderFrom_retag, Token.render, renderFrom_retag] at same

/-! ## Statements -/

theorem parallel_operands (format : Format) :
    Parallel P (Same fun o => o.format = format ∧ o.Written P) (Reader.operands format) (Reader.operands format) := by
  have comma : Parallel P _ (Reader.expect .comma) (Reader.expect .comma) := parallel_expect .comma
  cases format with
  | bare => exact parallel_pure ⟨rfl, rfl, .bare⟩
  | reg => exact parallel_register.bind fun r _ ⟨same, register⟩ => parallel_pure ⟨by rw [same], rfl, .reg register⟩
  | regImm =>
    refine parallel_register.bind fun r _ ⟨same, register⟩ => comma.bind fun _ _ _ => ?_
    refine parallel_constant.bind fun c _ ⟨same', constant⟩ => ?_
    exact parallel_pure ⟨by rw [same, same'], rfl, .regImm register constant⟩
  | regMem =>
    refine parallel_register.bind fun dst _ ⟨same, target⟩ => comma.bind fun _ _ _ => ?_
    refine parallel_register.bind fun base _ ⟨same', register⟩ => (parallel_expect .leftBracket).bind fun _ _ _ => ?_
    refine parallel_constant.bind fun c _ ⟨same'', constant⟩ => (parallel_expect .rightBracket).bind fun _ _ _ => ?_
    exact parallel_pure ⟨by rw [same, same', same''], rfl, .regMem target register constant⟩
  | regReg =>
    refine parallel_register.bind fun dst _ ⟨same, target⟩ => comma.bind fun _ _ _ => ?_
    refine parallel_register.bind fun src _ ⟨same', register⟩ => ?_
    exact parallel_pure ⟨by rw [same, same'], rfl, .regReg target register⟩
  | regRegReg =>
    refine parallel_register.bind fun dst _ ⟨same, target⟩ => comma.bind fun _ _ _ => ?_
    refine parallel_register.bind fun src₁ _ ⟨same', first⟩ => comma.bind fun _ _ _ => ?_
    refine parallel_register.bind fun src₂ _ ⟨same'', second⟩ => ?_
    exact parallel_pure ⟨by rw [same, same', same''], rfl, .regRegReg target first second⟩

variable {isa : InstructionSet}

theorem parallel_instruction {t u : Token} (alike : t.Alike P u) :
    Parallel P (Same fun i => (Node.instruction i).Written isa P) (Reader.instruction isa t)
      (Reader.instruction isa u) := by
  unfold Reader.instruction
  rw [alike.name]
  split
  · exact parallel_throw
  · rename_i op found
    refine (parallel_operands op.format).bind fun o _ ⟨same, format, written⟩ => parallel_pure ⟨by rw [same], ?_⟩
    exact .instruction (List.mem_of_find?_eq_some found) format written

theorem parallel_wordText (what : Expected) : Parallel P (Same fun _ => True)
    (return (← Reader.word what).raw : Reader String)
    (return (← Reader.word what).raw) :=
  (parallel_word what).bind fun _ _ ⟨alike, _⟩ => parallel_pure ⟨alike.raw, trivial⟩

theorem parallel_sectionName : Parallel P (Same fun _ => True) Reader.sectionName Reader.sectionName := by
  refine (parallel_nextIs .directive).bind fun dotted _ ⟨same, _⟩ => ?_
  rw [same]
  split
  · refine (parallel_next .sectionName).bind fun _ _ _ =>
      (parallel_word .sectionName).bind fun name _ ⟨alike, _⟩ => ?_
    exact parallel_pure ⟨by rw [alike.raw], trivial⟩
  · exact parallel_wordText .sectionName

theorem parallel_parameters : Parallel P (Same fun _ => True) Reader.parameters Reader.parameters := by
  intro c d alike
  unfold Reader.parameters
  rw [head_any_alike alike fun _ _ same => same.isWord]
  split
  · exact ((parallel_commaSeparated (parallel_wordText .parameterName)).mono fun _ _ same =>
      ⟨same.1, trivial⟩) c d alike
  · exact .ok ⟨⟨rfl, trivial⟩, alike⟩

theorem parallel_stringBytes : Parallel P (Same fun _ => True) Reader.stringBytes Reader.stringBytes := by
  refine (parallel_expect .stringLiteral).bind fun literal _ ⟨alike, _⟩ => ?_
  rw [alike.literalBody?]
  split
  · exact parallel_throw
  · split
    · exact parallel_pure ⟨rfl, trivial⟩
    · exact parallel_throw

theorem parallel_restOfLine : Parallel P (AllAlike P) Reader.restOfLine Reader.restOfLine :=
  fun _ _ alike => .ok ⟨alike.line, alike.afterLine⟩

theorem parallel_endOfLine : Parallel P (fun _ _ => True) Reader.endOfLine Reader.endOfLine := by
  rintro ⟨ts, p⟩ ⟨us, q⟩ alike
  have stop {t u : Token} {ts us : List Token} (first : t.Alike P u) (rest : AllAlike P ts us) : Agree (fun _ => True)
      (fun x y : Unit × Cursor => True ∧ AllAlike P x.2.rest y.2.rest)
      (if t.isSeparator then .ok ((), ⟨ts, t.pos⟩) else .error (t.refused (.token .lineSeparator)))
      (if u.isSeparator then .ok ((), ⟨us, u.pos⟩) else .error (u.refused (.token .lineSeparator))) := by
    rw [first.isSeparator]
    split
    · exact .ok ⟨trivial, rest⟩
    · exact .error trivial
  cases alike with
  | nil => exact .ok ⟨trivial, .nil⟩
  | @cons t u ts us first rest =>
    by_cases comment : t.isComment
    · have comment' : u.isComment := first.isComment.trans comment
      cases rest with
      | nil =>
        have last {v : Token} (own : v.isComment) (r : Position) : Reader.endOfLine ⟨[v], r⟩ = .ok ((), ⟨[], r⟩) := by
          simp [Reader.endOfLine, own]
        rw [last comment, last comment']
        exact .ok ⟨trivial, .nil⟩
      | cons second rest =>
        rw [Comparison.endOfLine_commented comment, Comparison.endOfLine_commented comment']
        exact stop second rest
    · have plain : t.isComment = false := by simpa using comment
      rw [Comparison.endOfLine_uncommented plain, Comparison.endOfLine_uncommented (first.isComment.trans plain)]
      exact stop first rest

/-! ## Steps -/

/-- The item at no place. -/
def Item.unplaced (i : Item) : Item := { i with pos := ⟨0, 0⟩ }

/-- The step at no place. -/
def Step.unplaced : Step → Step
  | item i => item i.unplaced
  | newSection name _ => newSection name ⟨0, 0⟩
  | unfolded _ name operands form => unfolded ⟨0, 0⟩ name operands form

/-- What the step adds has the property. -/
def Step.Adds (good : Node → Prop) : Step → Prop
  | .item i => good i.node
  | _ => True

/-- The second list has the steps of the first at other places, and what they add has the property. -/
def Retells (good : Node → Prop) (ss ss' : List Step) : Prop :=
  ss'.map Step.unplaced = ss.map Step.unplaced ∧ ∀ s ∈ ss, s.Adds good

section Steps

variable {good : Node → Prop}

theorem retells_nil : Retells good [] [] := ⟨rfl, by simp⟩

theorem Retells.cons {s s' : Step} {ss ss' : List Step} (same : s'.unplaced = s.unplaced) (fine : s.Adds good)
    (rest : Retells good ss ss') : Retells good (s :: ss) (s' :: ss') :=
  ⟨by rw [List.map_cons, List.map_cons, same, rest.1], List.forall_mem_cons.mpr ⟨fine, rest.2⟩⟩

theorem Retells.append {ss ss' us us' : List Step} (first : Retells good ss ss') (second : Retells good us us') :
    Retells good (ss ++ us) (ss' ++ us') :=
  ⟨by rw [List.map_append, List.map_append, first.1, second.1], List.forall_mem_append.mpr ⟨first.2, second.2⟩⟩

theorem parallel_item {node : Node} (fine : good node) (p q : Position) :
    Parallel P (Retells good) (pure [.item { node, pos := p }] : Reader (List Step))
      (pure [.item { node, pos := q }]) :=
  parallel_pure (.cons rfl fine retells_nil)

theorem parallel_section (name : String) (p q : Position) :
    Parallel P (Retells good) (pure [.newSection name p] : Reader (List Step)) (pure [.newSection name q]) :=
  parallel_pure (.cons rfl trivial retells_nil)

end Steps

theorem parallel_directiveOperands (p q : Position) (d : Directive) : Parallel P (Retells (Node.Written isa P))
    (Reader.directiveOperands p d) (Reader.directiveOperands q d) := by
  cases d with
  | standardSection name => exact parallel_section name p q
  | namedSection =>
    refine parallel_sectionName.bind fun name _ ⟨same, _⟩ => ?_
    rw [same]
    exact parallel_section name p q
  | constantDefinition =>
    refine (parallel_word .constantName).bind fun name _ ⟨alike, _⟩ => parallel_restOfLine.bind fun line _ value => ?_
    rw [alike.raw, value.uncommented.render]
    exact parallel_item (.constantRecord _ _) p q
  | macroHeader =>
    refine (parallel_word .macroName).bind fun name _ ⟨alike, _⟩ =>
      parallel_parameters.bind fun params _ ⟨same, _⟩ => ?_
    rw [alike.raw, same]
    exact parallel_item (.macroRecord _ _) p q
  | macroEnd => exact parallel_pure retells_nil
  | values width =>
    refine (parallel_commaSeparated parallel_constant).bind fun cs _ ⟨same, filled, written⟩ => ?_
    rw [same]
    exact parallel_item (.values filled written) p q
  | zeros =>
    refine (parallel_expect .immediate).bind fun count _ ⟨alike, _⟩ => ?_
    rw [alike.number]
    exact parallel_item (.zeros _) p q
  | text terminated =>
    refine parallel_stringBytes.bind fun bytes _ ⟨same, _⟩ => ?_
    rw [same]
    exact parallel_item (.bytes _) p q

theorem parallel_directive {dot dot' : Token} : Parallel P (Retells (Node.Written isa P)) (Reader.directive dot)
    (Reader.directive dot') := by
  refine (parallel_word .directiveName).bind fun name _ ⟨alike, _⟩ => ?_
  rw [alike.name]
  split
  · exact parallel_directiveOperands _ _ _
  · exact parallel_throw

theorem parallel_instructionStep {t u : Token} (alike : t.Alike P u) :
    Parallel P (Retells (Node.Written isa P)) (instructionStep isa t) (instructionStep isa u) := by
  refine (parallel_instruction alike).bind fun i _ ⟨same, written⟩ => ?_
  rw [same]
  exact parallel_item written t.pos u.pos

/-! ## Runs -/

/-- If the first run ends, the second ends with its steps at other places. The second may end where
    the first fails, because its tokens were expanded less often. -/
def Run.Retold (good : Node → Prop) (r s : Run Step) : Prop :=
  ∀ ss, r.result = .ok ss → ∃ ss', s.result = .ok ss' ∧ Retells good ss ss'

namespace Run

variable {good : Node → Prop} {r s r' s' : Run Step}

theorem retold_done : Retold good done done := by
  intro ss ended
  cases ended
  exact ⟨[], rfl, retells_nil⟩

theorem retold_fail (e : Error) : Retold good (fail e) s := by
  intro ss ended
  cases ended

theorem Retold.cons {step step' : Step} (same : step'.unplaced = step.unplaced) (fine : step.Adds good)
    (rest : Retold good r s) : Retold good (Run.cons step r) (Run.cons step' s) := by
  intro ss ended
  rw [result_cons] at ended
  obtain ⟨tail, read, rfl⟩ := map_eq_ok.mp ended
  obtain ⟨tail', read', retells⟩ := rest tail read
  exact ⟨step' :: tail', by rw [result_cons, read']; rfl, retells.cons same fine⟩

theorem Retold.append (first : Retold good r s) (second : Retold good r' s') : Retold good (r ++ r') (s ++ s') := by
  intro ss ended
  rw [result_append] at ended
  obtain ⟨front, read, ended⟩ := bind_eq_ok.mp ended
  obtain ⟨back, read', rfl⟩ := map_eq_ok.mp ended
  obtain ⟨front', again, retells⟩ := first front read
  obtain ⟨back', again', retells'⟩ := second back read'
  refine ⟨front' ++ back', ?_, retells.append retells'⟩
  rw [result_append, again, again']
  rfl

end Run

theorem retold_statement {good : Node → Prop} {r s : Reader (List Step)}
    (reads : Parallel P (Retells good) r s) {c d : Cursor}
    (alike : AllAlike P c.rest d.rest) : Run.Retold good (Reader.statement r c) (Reader.statement s d) := by
  intro ss ended
  rw [Comparison.result_statement] at ended
  obtain ⟨⟨front, c'⟩, read, ended⟩ := bind_eq_ok.mp ended
  obtain ⟨⟨_, c''⟩, stopped, ended⟩ := bind_eq_ok.mp ended
  cases ended
  have agreed := reads c d alike
  rw [read] at agreed
  obtain ⟨⟨front', d'⟩, read', retells, alike'⟩ := agreed.ok_left
  have stop := parallel_endOfLine c' d' alike'
  rw [stopped] at stop
  obtain ⟨⟨_, d''⟩, stopped', -⟩ := stop.ok_left
  refine ⟨front', ?_, retells⟩
  rw [Comparison.result_statement, read']
  change Reader.endOfLine d' >>= _ = _
  rw [stopped']
  rfl

/-! ## Pseudo-instructions -/

section Forms

variable {f : Token → Token} (keeps : ∀ t, (f t).kind = t.kind)
include keeps

theorem immediateLength?_map (ts : List Token) : immediateLength? (ts.map f) = immediateLength? ts := by
  cases ts with
  | nil => rfl
  | cons t ts =>
    have slice : ((ts.map f).take 5).map Token.kind = (ts.take 5).map Token.kind := by
      simp [← List.map_take, keeps]
    rw [List.map_cons, immediateLength?, immediateLength?, slice, keeps]

theorem length?_map (kind : OperandKind) (ts : List Token) : kind.length? (ts.map f) = kind.length? ts := by
  cases kind with
  | register => cases ts <;> simp [OperandKind.length?, keeps]
  | immediate => exact immediateLength?_map keeps ts
  | memory =>
    match ts with
    | [] | [_] => rfl
    | base :: bracket :: ts =>
      simp only [List.map_cons, OperandKind.length?, immediateLength?_map keeps, keeps,
        ← List.map_drop, List.head?_map,
        Option.map_map]
      simp [Function.comp_def, keeps]

/-- Operands are split by kinds only. -/
theorem splitOperands_map (kinds : List OperandKind) (ts : List Token) :
    splitOperands kinds (ts.map f) = (splitOperands kinds ts).map fun parts => parts.map fun part => part.map f := by
  induction kinds generalizing ts with
  | nil => cases ts <;> rfl
  | cons kind kinds ih =>
    rw [splitOperands, splitOperands, length?_map keeps]
    cases kind.length? ts with
    | none => rfl
    | some n =>
      dsimp only
      rw [← List.map_drop, ← List.map_take]
      cases ts.drop n with
      | nil => cases kinds <;> rfl
      | cons comma rest =>
        rw [List.map_cons]
        dsimp only
        rw [ih, keeps]
        split
        · rfl
        · rw [Option.map_map, Option.map_map]
          rfl

end Forms

theorem matchForm?_retag (pos : Position) (depth : Nat) (forms : List PseudoForm) (ts : List Token) :
    matchForm? forms (ts.map (Token.retag pos depth)) = matchForm? forms ts := by
  have same (form : PseudoForm) : form.operands? (ts.map (Token.retag pos depth)) = form.operands? ts := by
    unfold PseudoForm.operands?
    rw [splitOperands_map (Token.retag_kind pos depth), Option.map_map]
    congr 1
    funext parts
    simp [Token.render, renderFrom_retag]
  simp only [matchForm?, same]

theorem AllAlike.matchForm? {ts us : List Token} (alike : AllAlike P ts us) (forms : List PseudoForm) :
    Bisc.matchForm? forms us = Bisc.matchForm? forms ts := by
  rw [← matchForm?_retag ⟨0, 0⟩ 0 forms us, alike.retagged, matchForm?_retag]

/-- The property of every token that a form stands for. -/
def Producible (isa : InstructionSet) (P : Token → Prop) : Prop :=
  ∀ form operands origin, ∀ t ∈ PseudoForm.unfold isa form operands origin, P t

/-- What a text is read as does not depend on its place. -/
theorem tokensFrom_alike {p q : Position} {d e : Nat} (shallower : e ≤ d)
    {line line' column column' skip : Nat} {text : List Char}
    (holds : ∀ t ∈ tokensFrom isa line column skip text, P (t.retag p d)) :
    AllAlike P ((tokensFrom isa line column skip text).map (Token.retag p d))
      ((tokensFrom isa line' column' skip text).map (Token.retag q e)) := by
  induction text generalizing column column' skip with
  | nil => cases skip <;> exact .nil
  | cons c cs ih =>
    cases skip with
    | succ skip =>
      rw [tokensFrom] at holds ⊢
      rw [tokensFrom]
      exact ih holds
    | zero =>
      rw [tokensFrom] at holds ⊢
      rw [tokensFrom]
      split
      · rename_i blank
        rw [if_pos blank] at holds
        exact ih holds
      · rename_i blank
        rw [if_neg blank] at holds
        obtain ⟨first, rest⟩ := List.forall_mem_cons.mp holds
        exact .cons ⟨rfl, rfl, rfl, shallower, first⟩ (ih rest)

theorem unfold_alike (producible : Producible isa P) (form : PseudoForm) (operands : List String) {t u : Token}
    (alike : t.Alike P u) : AllAlike P (form.unfold isa operands t) (form.unfold isa operands u) := by
  have holds := producible form operands t
  unfold PseudoForm.unfold at holds ⊢
  generalize form.template = template at holds ⊢
  induction template with
  | nil => exact .nil
  | cons line lines ih =>
    simp only [List.flatMap_cons, List.map_append, List.forall_mem_append, List.forall_mem_map] at holds ih ⊢
    obtain ⟨⟨first, stop⟩, rest⟩ := holds
    have depth := Nat.succ_le_succ alike.depth
    refine List.rel_append (List.rel_append (tokensFrom_alike depth first) (.cons ?_ .nil)) (ih rest)
    exact ⟨rfl, rfl, rfl, depth, stop _ (List.mem_singleton_self _)⟩

/-! ## Lines -/

section Lines

variable {readLines readLines' : List Token → Run Step}
  (unfolds : ∀ ts us, AllAlike P ts us → Run.Retold (Node.Written isa P) (readLines ts) (readLines' us))
  (producible : Producible isa P)
include unfolds producible

theorem retold_readPseudo {t u : Token} (alike : t.Alike P u) {ts us : List Token} (rest : AllAlike P ts us) :
    Run.Retold (Node.Written isa P) (readPseudo isa readLines t ts) (readPseudo isa readLines' u us) := by
  unfold readPseudo
  dsimp only
  rw [rest.line.uncommented.matchForm?, alike.name]
  split
  · rename_i form operands _
    by_cases deep : t.depth ≥ maxDepth
    · rw [if_pos deep]
      exact Run.retold_fail _
    · have shallow : ¬u.depth ≥ maxDepth := fun deeper => deep (deeper.trans alike.depth)
      rw [if_neg deep, if_neg shallow]
      exact (unfolds _ _ (unfold_alike producible form operands alike)).cons rfl trivial
  · split
    · refine retold_statement (parallel_instructionStep alike) ?_
      exact List.rel_append rest.line.uncommented (List.forall₂_take 1 rest.afterLine)
    · exact Run.retold_fail _

theorem retold_readLine {ts us : List Token} (alike : AllAlike P ts us) :
    Run.Retold (Node.Written isa P) (readLine isa readLines ts) (readLine isa readLines' us) := by
  induction length : ts.length using Nat.strong_induction_on generalizing ts us with
  | _ n ih =>
  cases alike with
  | nil => exact Run.retold_done
  | @cons t u ts us first rest =>
    have later := ih _ (by simp [← length]) rest rfl
    rw [readLine.eq_def, readLine.eq_def]
    dsimp only
    rw [first.kind]
    cases kind : t.kind with
    | comment | lineSeparator => exact later
    | identifier =>
      cases rest with
      | nil => exact Run.retold_fail _
      | @cons colon colon' ts us second rest =>
        dsimp only
        rw [second.kind, first.raw]
        split
        · exact (ih _ (by simp [← length]) rest rfl).cons rfl (.label ⟨t, first.holds, kind, rfl⟩)
        · exact Run.retold_fail _
    | opcode => exact retold_statement (parallel_instructionStep first) rest
    | pseudoOp => exact retold_readPseudo unfolds producible first rest
    | directive => exact retold_statement parallel_directive rest
    | _ => exact Run.retold_fail _

end Lines

section Tokens

variable (producible : Producible isa P)
include producible

/-- Tokens that are alike make the same steps at other places, and what they add is written in the tokens. -/
theorem retold_readTokens (n : Nat) {ts us : List Token} (alike : AllAlike P ts us) :
    Run.Retold (Node.Written isa P) (readTokens isa n ts) (readTokens isa n us) := by
  induction n generalizing ts us with
  | zero => exact Run.retold_done
  | succ n ih =>
    rw [readTokens, readTokens]
    have cut := alike.lines
    generalize Token.lines ts = ls at cut ⊢
    generalize Token.lines us = ms at cut ⊢
    induction cut with
    | nil => exact Run.retold_done
    | cons line more later => exact (retold_readLine (fun _ _ => ih) producible line).append later

theorem retold_steps {ts us : List Token} (alike : AllAlike P ts us) :
    Run.Retold (Node.Written isa P) (steps isa ts) (steps isa us) := retold_readTokens producible (maxDepth + 1) alike

/-- What steps add is written in the tokens. -/
theorem written_of_steps {ts : List Token} (holds : ∀ t ∈ ts, P t) {ss : List Step}
    (read : (steps isa ts).result = .ok ss) :
    ∀ s ∈ ss, s.Adds (Node.Written isa P) := by
  have alike : AllAlike P ts ts := List.forall₂_same.mpr fun t inside => ⟨rfl, rfl, rfl, le_rfl, holds t inside⟩
  obtain ⟨_, -, -, adds⟩ := retold_steps producible alike ss read
  exact adds

end Tokens

/-! ## Programs -/

/-- The section at no place. -/
def Section.unplaced (s : Section) : Section := ⟨s.name, s.items.map Item.unplaced⟩

private def Block.unplaced (b : Block) : Block := ⟨b.name, b.start.map Item.unplaced, b.items.map Item.unplaced⟩

private theorem blocksFrom_unplaced (ss : List Step) : blocksFrom (ss.map Step.unplaced) =
    ((blocksFrom ss).1.map Item.unplaced, (blocksFrom ss).2.map Block.unplaced) := by
  induction ss with
  | nil => rfl
  | cons s ss ih =>
    cases s with
    | item i => simp only [List.map_cons, Step.unplaced, blocksFrom, ih]
    | newSection name pos =>
      simp only [List.map_cons, Step.unplaced, blocksFrom, ih]
      rfl
    | unfolded pos name operands form => simp only [List.map_cons, Step.unplaced, blocksFrom, ih]

private theorem hasContent_unplaced (s : Section) : s.unplaced.hasContent = s.hasContent := by
  rw [Section.hasContent, Section.unplaced, List.any_map]
  rfl

private theorem contentSections_unplaced (carried : List Item) (bs : List Block) :
    contentSections (carried.map Item.unplaced) (bs.map Block.unplaced) =
      (contentSections carried bs).map Section.unplaced := by
  induction bs generalizing carried with
  | nil => rfl
  | cons b bs ih =>
    have same : (⟨b.unplaced.name, b.unplaced.start.toList ++ carried.map Item.unplaced ++
      b.unplaced.items⟩ : Section) =
        Section.unplaced ⟨b.name, b.start.toList ++ carried ++ b.items⟩ := by
      cases start : b.start <;> simp [Block.unplaced, Section.unplaced, start]
    rw [List.map_cons, contentSections, contentSections, same, hasContent_unplaced]
    split
    · rw [List.map_cons, ← ih []]
      rfl
    · rw [← ih, List.map_append]
      rfl

theorem program_unplaced (ss : List Step) : contentSections [] (blocks (ss.map Step.unplaced)) =
    (contentSections [] (blocks ss)).map Section.unplaced := by
  rw [← contentSections_unplaced, blocks, blocksFrom_unplaced]
  rfl

/-- Tokens that are alike are the same program at other places. -/
theorem parse_alike (producible : Producible isa P) {ts us : List Token} (alike : AllAlike P ts us) {p : Program}
    (parsed : parse isa ts = .ok p) :
    ∃ p', parse isa us = .ok p' ∧ p'.map Section.unplaced = p.map Section.unplaced := by
  obtain ⟨ss, read, made⟩ := bind_eq_ok.mp parsed
  cases made
  obtain ⟨ss', read', same, -⟩ := retold_steps producible alike ss read
  refine ⟨_, bind_eq_ok.mpr ⟨ss', read', rfl⟩, ?_⟩
  rw [← program_unplaced, ← program_unplaced, same]

end Bisc
