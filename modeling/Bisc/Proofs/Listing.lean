import Bisc.Assembly
import Bisc.Program.Printer
import Bisc.Proofs.OneReading
import Bisc.Proofs.PrintedText
import Bisc.Proofs.PseudoExpansion
import Bisc.Proofs.Sections
import Bisc.Proofs.Writing

/-!
Listings are source. What is written of a constant, an operand or a datum is read as tokens that the
reader for it takes as the same value; and no pseudo-instruction has a form that the operands of the
real instruction of its name are spelled in. So the line of a listing for a label, an instruction or
data is a program of that item.
-/
namespace Bisc

variable {α β : Type}

/-! ## Texts as tokens -/

theorem Stops.append {text tail : List Char} (first : Stops text) (second : Stops tail) : Stops (text ++ tail) := by
  cases text with
  | nil => exact second
  | cons c cs => exact first

namespace Token

def leftParen : Token := fixed .leftParen "(" none
def rightParen : Token := fixed .rightParen ")" none
def colon : Token := fixed .colon ":" none
def upper : Token := fixed .identifier "hi" none

/-- Punctuation, which nothing runs on with. -/
def marks : List Token := [comma, dot, leftBracket, rightBracket, leftParen, rightParen, colon]

theorem marks_spelled : ∀ t ∈ marks, t.spelled bisc ∧ t.kind.isCode ∧ t.kind.runsOn = false := by decide +kernel

end Token

/-- The text is read as the tokens before a text that does not run on. -/
def Spells (text : String) (ts : List Token) : Prop :=
  ∀ tail us, Stops tail → Reads bisc tail us → Reads bisc (text.toList ++ tail) (ts ++ us)

namespace Spells

variable {text text' : String} {ts us : List Token}

theorem nil : Spells "" [] := fun _ _ _ reads => reads

theorem token {t : Token} (spelled : t.spelled bisc) (code : t.kind.isCode) : Spells t.raw [t] := by
  intro tail us stops reads
  exact .token spelled code (fun _ => stops) reads

theorem append (first : Spells text ts) (second : Spells text' us) (stops : Stops text'.toList) :
    Spells (text ++ text') (ts ++ us) := by
  intro tail vs stop reads
  rw [String.toList_append, List.append_assoc, List.append_assoc]
  exact first _ _ (stops.append stop) (second tail vs stop reads)

theorem mark {t : Token} (listed : t ∈ Token.marks) (rest : Spells text ts) : Spells (t.raw ++ text) (t :: ts) := by
  obtain ⟨spelled, code, shut⟩ := Token.marks_spelled t listed
  intro tail us stop reads
  rw [String.toList_append, List.append_assoc]
  exact .token spelled code (fun runsOn => by simp [shut] at runsOn) (rest tail us stop reads)

theorem blank (rest : Spells text ts) : Spells (" " ++ text) ts := by
  intro tail us stop reads
  rw [String.toList_append]
  exact .blank (by decide) (rest tail us stop reads)

theorem reads (spells : Spells text ts) : Reads bisc text.toList ts := by
  have alone := spells [] [] stops_nil .nil
  rwa [List.append_nil, List.append_nil] at alone

end Spells

theorem stops_blank (text : String) : Stops (" " ++ text).toList := by
  rw [String.toList_append]
  exact stops_cons (by decide)
theorem stops_mark {t : Token} (listed : t ∈ Token.marks) (other : t.kind ≠ .directive) (text : String) :
    Stops (t.raw ++ text).toList := by
  have table : ∀ t ∈ Token.marks, t.kind ≠ .directive → t.raw.toList.head?.map isWordChar = some false := by
    decide +kernel
  obtain ⟨c, head, stop⟩ := Option.map_eq_some_iff.mp (table t listed other)
  intro d first
  rw [String.toList_append, List.head?_append, head, Option.some_or] at first
  cases first
  exact stop

/-! ## Tokens that readers take -/

/-- The text is read as tokens that the reader takes as the value. -/
structure Prints (text : String) (ts : List Token) (r : Reader α) (a : α) : Prop where
  code : ∀ t ∈ ts, t.kind.isCode
  spells : Spells text ts
  takes : Takes r ts a
  follows : Follows ts

namespace Prints

variable {text text' : String} {ts us : List Token} {r : Reader α} {f : α → Reader β} {a : α} {b : β}

theorem pure (a : α) : Prints "" [] (Pure.pure a : Reader α) a where
  code := by simp
  spells := .nil
  takes := fun _ last _ => ⟨last, rfl⟩
  follows := by simp [Follows]

theorem bind (first : Prints text ts r a) (second : Prints text' us (f a) b) (stops : Stops text'.toList) :
    Prints (text ++ text') (ts ++ us) (r >>= f) b where
  code := List.forall_mem_append.mpr ⟨first.code, second.code⟩
  spells := first.spells.append second.spells stops
  takes := first.takes.bind second.takes second.follows
  follows := first.follows.append second.follows

theorem blank (prints : Prints text ts r a) : Prints (" " ++ text) ts r a :=
  { prints with spells := prints.spells.blank }

/-- Punctuation is expected, and other tokens are taken after it. -/
theorem mark {t : Token} {f : Token → Reader β} (listed : t ∈ Token.marks) (other : t.kind ≠ .leftParen)
    (prints : Prints text us (f t) b) : Prints (t.raw ++ text) (t :: us) (Reader.expect t.kind >>= f) b where
  code := List.forall_mem_cons.mpr ⟨(Token.marks_spelled t listed).2.1, prints.code⟩
  spells := prints.spells.mark listed
  takes := takes_expect rfl prints.takes
  follows := by simpa [Follows] using other

end Prints

theorem prints_register {index : UInt8} (indexed : Indexed (Token.WellSpelled bisc) index) :
    Prints (bisc.registerName index) [Token.numbered index] Reader.register index where
  code := by simp [Token.numbered, TokenKind.isCode]
  spells := .token (t := .numbered index) (Token.numbered_spelled indexed).1 rfl
  takes := by
    intro rest last _
    have taken := register_found (r := Token.numbered index) rfl rest last
    rw [(Token.numbered_spelled indexed).2] at taken
    exact ⟨_, taken⟩
  follows := by simp [Follows, Token.numbered]

/-! ## Constants -/

/-- A number, a symbol or a slice is written as the tokens of an immediate. -/
theorem spells_simple {c : Constant} (simple : c.Simple (Token.WellSpelled bisc)) :
    ∃ ts, IsImmediate ts (.ok c) ∧ Spells c.text ts ∧ Follows ts := by
  cases simple with
  | number v =>
    let t := Token.literal (Constant.number v).text v
    exact ⟨[t], .number rfl, .token (t := t) (Token.hexadecimal_spelled bisc v) rfl, by simp [Follows, t]⟩
  | @symbol name named =>
    let t := Token.symbol name
    exact ⟨[t], .symbol rfl, .token (t := t) (Token.symbol_spelled named) rfl,
      by simp [Follows, t, Token.symbol, Token.fixed]⟩
  | @slice name first last named ordered inside narrow =>
    let low := first.toUInt32
    let high := last.toUInt32
    have lowest : low.toNat = first.toNat := UInt8.toNat_toUInt32 first
    have highest : high.toNat = last.toNat := UInt8.toNat_toUInt32 last
    have fits : sliceOf name low high = .ok (.part (.symbol name) (.bytes first last)) := by
      rw [sliceOf, if_neg, UInt8.toUInt8_toUInt32, UInt8.toUInt8_toUInt32]
      simp only [not_or, gt_iff_lt, UInt32.not_lt, UInt32.le_iff_toNat_le, lowest, highest]
      exact ⟨ordered, inside, by omega⟩
    let t := Token.symbol name
    let u := Token.literal (toString low.toNat) low
    let v := Token.literal (toString high.toNat) high
    have text : (Constant.part (.symbol name) (.bytes first last)).text = t.raw ++ (Token.leftParen.raw ++ (u.raw ++
        (Token.colon.raw ++ (v.raw ++ (Token.rightParen.raw ++ ""))))) := by
      change name ++ "(" ++ toString first.toNat ++ ":" ++ toString last.toNat ++ ")" =
        name ++ ("(" ++ (toString low.toNat ++ (":" ++ (toString high.toNat ++ (")" ++ "")))))
      rw [lowest, highest, String.append_empty]
      simp only [String.append_assoc]
    have spells : Spells (t.raw ++
      (Token.leftParen.raw ++ (u.raw ++ (Token.colon.raw ++ (v.raw ++ (Token.rightParen.raw ++ ""))))))
        [t, .leftParen, u, .colon, v, .rightParen] := by
      refine .append (.token (Token.symbol_spelled named) rfl) (.mark (by decide) ?_)
        (stops_mark (by decide) (by decide) _)
      refine .append (.token (Token.decimal_spelled bisc low) rfl) (.mark (by decide) ?_)
        (stops_mark (by decide) (by decide) _)
      refine .append (.token (Token.decimal_spelled bisc high) rfl) (.mark (by decide) .nil)
        (stops_mark (by decide) (by decide) _)
    have shape : IsImmediate [t, .leftParen, u, .colon, v, .rightParen] (sliceOf name low high) :=
      .slice rfl rfl rfl rfl rfl rfl
    rw [fits] at shape
    rw [text]
    exact ⟨_, shape, spells, by simp [Follows, t, Token.symbol, Token.fixed]⟩

/-- A half of a constant is written with its selector in front. -/
theorem prints_half (half : Token) (word : half.isWord) (spelled : half.spelled bisc) {c : Constant}
    (simple : c.Simple (Token.WellSpelled bisc)) {selector : Selector}
    (named : Reader.halfSelector half = .ok selector) :
    ∃ ts, Prints ("." ++ (half.raw ++ (" " ++ c.text))) ts Reader.constant (.part c selector) := by
  obtain ⟨ts, shape, spells, -⟩ := spells_simple simple
  have code : half.kind.isCode := Token.isCode_of_isWord word
  refine ⟨.dot :: ([half] ++ ts), ?_, ?_, ?_, by simp [Follows]⟩
  · exact List.forall_mem_cons.mpr ⟨rfl, List.forall_mem_append.mpr ⟨by simpa using code, code_of_isImmediate shape⟩⟩
  · exact .mark (t := .dot) (by decide) (.append (.token spelled code) spells.blank (stops_blank _))
  · intro rest last follows
    obtain ⟨t, -, u, -, read⟩ := constant_half Token.dot_kind word named shape follows last
    exact ⟨u.pos, read⟩

/-- A constant is written as what is read as it. -/
theorem prints_constant {c : Constant} (written : c.Written (Token.WellSpelled bisc)) :
    ∃ ts, Prints c.text ts Reader.constant c := by
  cases written with
  | simple inner =>
    obtain ⟨ts, shape, spells, first⟩ := spells_simple inner
    refine ⟨ts, code_of_isImmediate shape, spells, ?_, first⟩
    intro rest last follows
    obtain ⟨t, -, u, -, read⟩ := constant_immediate shape follows last
    exact ⟨u.pos, read⟩
  | @lo c inner =>
    have text : (Constant.part c .lo).text = "." ++ ("lo" ++ (" " ++ c.text)) := by
      change ".lo " ++ c.text = _
      rw [← String.append_assoc, ← String.append_assoc]
      rfl
    rw [text]
    exact prints_half .lower rfl (by decide +kernel) inner rfl
  | @hi c inner =>
    have text : (Constant.part c .hi).text = "." ++ ("hi" ++ (" " ++ c.text)) := by
      change ".hi " ++ c.text = _
      rw [← String.append_assoc, ← String.append_assoc]
      rfl
    rw [text]
    exact prints_half .upper rfl (by decide +kernel) inner rfl

/-! ## Operands -/

/-- What stands after the mnemonic. -/
def Operands.text : Operands → String
  | bare => ""
  | reg a => " " ++ (bisc.registerName a ++ "")
  | regImm a imm => " " ++ (bisc.registerName a ++ ("," ++ (" " ++ (imm.text ++ ""))))
  | regMem dst base offset =>
    " " ++ (bisc.registerName dst ++
      ("," ++ (" " ++ (bisc.registerName base ++ ("[" ++ (offset.text ++ ("]" ++ "")))))))
  | regReg dst src => " " ++ (bisc.registerName dst ++ ("," ++ (" " ++ (bisc.registerName src ++ ""))))
  | regRegReg dst src₁ src₂ => " " ++ (bisc.registerName dst ++ ("," ++ (" " ++ (bisc.registerName src₁ ++
      ("," ++ (" " ++ (bisc.registerName src₂ ++ "")))))))

theorem Operands.stops_text (o : Operands) : Stops o.text.toList := by
  cases o with
  | bare => exact stops_nil
  | _ => exact stops_blank _

theorem comma_blank (text : String) : "," ++ (" " ++ text) = ", " ++ text := by
  rw [← String.append_assoc]
  rfl

theorem Instruction.text_eq (i : Instruction) : i.text = bisc.mnemonic i.code ++ i.operands.text := by
  obtain ⟨code, operands⟩ := i
  cases operands with
  | bare => exact (String.append_empty).symm
  | reg a =>
    change bisc.mnemonic code ++ " " ++ bisc.registerName a = _
    simp only [Operands.text, String.append_empty, String.append_assoc]
  | regImm a imm =>
    change bisc.mnemonic code ++ " " ++ bisc.registerName a ++ ", " ++ imm.text = _
    simp only [Operands.text, comma_blank, String.append_empty, String.append_assoc]
  | regMem dst base offset =>
    change bisc.mnemonic code ++ " " ++ bisc.registerName dst ++ ", " ++ bisc.registerName base ++ "[" ++
      offset.text ++ "]" = _
    simp only [Operands.text, comma_blank, String.append_empty, String.append_assoc]
  | regReg dst src =>
    change bisc.mnemonic code ++ " " ++ bisc.registerName dst ++ ", " ++ bisc.registerName src = _
    simp only [Operands.text, comma_blank, String.append_empty, String.append_assoc]
  | regRegReg dst src₁ src₂ =>
    change bisc.mnemonic code ++ " " ++ bisc.registerName dst ++ ", " ++ bisc.registerName src₁ ++ ", " ++
      bisc.registerName src₂ = _
    simp only [Operands.text, comma_blank, String.append_empty, String.append_assoc]

/-- Operands are written as what is read as them. -/
theorem prints_operands {o : Operands} (written : o.Written (Token.WellSpelled bisc)) :
    ∃ ts, Prints o.text ts (Reader.operands o.format) o := by
  have comma {text : String} {ts : List Token} {f : Token → Reader Operands} {o : Operands}
      (later : Prints text ts (f .comma) o) :
      Prints ("," ++ text) (.comma :: ts) (Reader.expect .comma >>= f) o :=
        later.mark (t := .comma) (by decide) (by decide)
  have parted (text : String) : Stops ("," ++ text).toList := stops_mark (t := .comma) (by decide) (by decide) text
  cases written with
  | bare => exact ⟨[], .pure _⟩
  | @reg r register =>
    refine ⟨[.numbered r], ?_⟩
    exact .blank (.bind (prints_register register) (.pure _) stops_nil)
  | @regImm r imm register constant =>
    obtain ⟨ts, prints⟩ := prints_constant constant
    refine ⟨.numbered r :: .comma :: (ts ++ []), ?_⟩
    refine .blank (.bind (prints_register register) (comma ?_) (parted _))
    exact .blank (.bind prints (.pure _) stops_nil)
  | @regMem dst base offset target register constant =>
    obtain ⟨ts, prints⟩ := prints_constant constant
    refine ⟨.numbered dst :: .comma :: .numbered base :: .leftBracket :: (ts ++ [.rightBracket]), ?_⟩
    refine .blank (.bind (prints_register target) (comma ?_) (parted _))
    refine .blank (.bind (prints_register register) ?_ (stops_mark (t := .leftBracket) (by decide) (by decide) _))
    refine .mark (t := .leftBracket) (by decide) (by decide) ?_
    refine .bind prints ?_ (stops_mark (t := .rightBracket) (by decide) (by decide) _)
    exact .mark (t := .rightBracket) (by decide) (by decide) (.pure _)
  | @regReg dst src target register =>
    refine ⟨[.numbered dst, .comma, .numbered src], ?_⟩
    refine .blank (.bind (prints_register target) (comma ?_) (parted _))
    exact .blank (.bind (prints_register register) (.pure _) stops_nil)
  | @regRegReg dst src₁ src₂ target first second =>
    refine ⟨[.numbered dst, .comma, .numbered src₁, .comma, .numbered src₂], ?_⟩
    refine .blank (.bind (prints_register target) (comma ?_) (parted _))
    refine .blank (.bind (prints_register first) (comma ?_) (parted _))
    exact .blank (.bind (prints_register second) (.pure _) stops_nil)

/-! ## Values -/

/-- Constants that follow another, each after a comma. -/
def listText : List Constant → String
  | [] => ""
  | c :: cs => "," ++ (" " ++ (c.text ++ listText cs))

theorem stops_listText (cs : List Constant) : Stops (listText cs).toList := by
  cases cs with
  | nil => exact stops_nil
  | cons c cs => exact stops_mark (t := .comma) (by decide) (by decide) _

theorem commaSeparated_eq (c : Constant) (cs : List Constant) :
    commaSeparated ((c :: cs).map Constant.text) = c.text ++ listText cs := by
  induction cs generalizing c with
  | nil => simp [commaSeparated, listText]
  | cons d cs ih =>
    have later := ih d
    rw [List.map_cons, commaSeparated] at later
    rw [List.map_cons, List.map_cons, commaSeparated, String.intercalate_cons_cons, later, listText, comma_blank]
    exact String.append_assoc

/-- The constants after the first are taken to the end of the line; every comma is a token, so a
    bound on tokens will do. -/
theorem takes_moreItems {cs : List Constant} (written : ∀ c ∈ cs, c.Written (Token.WellSpelled bisc)) :
    ∃ ts, (∀ t ∈ ts, t.kind.isCode) ∧ Spells (listText cs) ts ∧ Follows ts ∧ ∀ n last, ts.length ≤ n →
      ∃ last', Reader.moreItems Reader.constant n ⟨ts, last⟩ = .ok (cs, ⟨[], last'⟩) := by
  induction cs with
  | nil =>
    refine ⟨[], by simp, .nil, by simp [Follows], fun n last _ => ⟨last, ?_⟩⟩
    exact Comparison.moreItems_stop rfl
  | cons c cs ih =>
    obtain ⟨here, later⟩ := List.forall_mem_cons.mp written
    obtain ⟨us, prints⟩ := prints_constant here
    obtain ⟨ts, code, spells, follows, takes⟩ := ih later
    refine ⟨.comma :: (us ++ ts), ?_, ?_, by simp [Follows], ?_⟩
    · exact List.forall_mem_cons.mpr ⟨rfl, List.forall_mem_append.mpr ⟨prints.code, code⟩⟩
    · exact .mark (t := .comma) (by decide) (.blank (.append prints.spells spells (stops_listText cs)))
    · intro n last enough
      rw [List.length_cons, List.length_append] at enough
      obtain ⟨m, rfl⟩ : ∃ m, n = m + 1 := ⟨n - 1, by omega⟩
      obtain ⟨last', read⟩ := prints.takes ts Token.comma.pos follows
      obtain ⟨last'', read'⟩ := takes m last' (by omega)
      refine ⟨last'', ?_⟩
      rw [Comparison.moreItems_comma rfl Token.comma_kind]
      exact bind_eq_ok.mpr ⟨_, read, bind_eq_ok.mpr ⟨_, read', rfl⟩⟩

theorem takes_commaSeparated {cs : List Constant} (filled : cs ≠ [])
    (written : ∀ c ∈ cs, c.Written (Token.WellSpelled bisc)) :
    ∃ ts, (∀ t ∈ ts, t.kind.isCode) ∧ Spells (commaSeparated (cs.map Constant.text)) ts ∧
      ∀ last, ∃ last', Reader.commaSeparated Reader.constant ⟨ts, last⟩ = .ok (cs, ⟨[], last'⟩) := by
  cases cs with
  | nil => exact absurd rfl filled
  | cons c cs =>
    obtain ⟨here, later⟩ := List.forall_mem_cons.mp written
    obtain ⟨us, prints⟩ := prints_constant here
    obtain ⟨ts, code, spells, follows, takes⟩ := takes_moreItems later
    refine ⟨us ++ ts, List.forall_mem_append.mpr ⟨prints.code, code⟩, ?_, fun last => ?_⟩
    · rw [commaSeparated_eq]
      exact prints.spells.append spells (stops_listText cs)
    · obtain ⟨last', read⟩ := prints.takes ts last follows
      obtain ⟨last'', read'⟩ := takes ts.length last' le_rfl
      refine ⟨last'', bind_eq_ok.mpr ⟨_, read, ?_⟩⟩
      exact bind_eq_ok.mpr ⟨_, read', rfl⟩

/-! ## Lines -/

section Lines

theorem steps_inline {t : Token} {ts : List Token} (inline : ∀ u ∈ t :: ts, u.isSeparator = false) :
    steps bisc (t :: ts) = readLine bisc (readTokens bisc maxDepth) (t :: ts) := by
  rw [steps, readTokens, lines_of_inline inline]
  exact Run.append_done _

/-- A statement that takes the whole line. -/
theorem statement_taken {r : Reader (List Step)} {ts : List Token} {ss : List Step} {last : Position}
    (taken : ∃ last', r ⟨ts, last⟩ = .ok (ss, ⟨[], last'⟩)) : Reader.statement r ⟨ts, last⟩ = ⟨ss, none⟩ := by
  obtain ⟨last', taken⟩ := taken
  rw [Reader.statement, taken]
  rfl

theorem inline_of_code {ts : List Token} (code : ∀ t ∈ ts, t.kind.isCode) : ∀ t ∈ ts, t.isSeparator = false :=
  fun t member => Token.isSeparator_of_isCode (code t member)

variable {ts : List Token} (code : ∀ t ∈ ts, t.kind.isCode)
include code

/-- A mnemonic with the operands of its real instruction, which are then in no form of a pseudo-instruction. -/
theorem steps_instruction {op : Opcode} (listed : op ∈ opcodeTable) {o : Operands}
    (takes : Takes (Reader.operands op.format) ts o) :
    steps bisc (op.token :: ts) = ⟨[.item { node := .instruction ⟨op.code, o⟩, pos := op.token.pos }], none⟩ := by
  have readable := Opcode.readable listed
  have instruction (last : Position) :
      ∃ last', Reader.instruction bisc op.token ⟨ts, last⟩ = .ok (⟨op.code, o⟩, ⟨[], last'⟩) := by
    obtain ⟨last', read⟩ := takes [] last follows_nil
    rw [List.append_nil] at read
    refine ⟨last', ?_⟩
    unfold Reader.instruction
    rw [readable.known]
    exact bind_eq_ok.mpr ⟨_, read, rfl⟩
  have statement (last : Position) : Reader.statement (instructionStep bisc op.token) ⟨ts, last⟩ =
      ⟨[.item { node := .instruction ⟨op.code, o⟩, pos := op.token.pos }], none⟩ := by
    obtain ⟨last', read⟩ := instruction last
    exact statement_taken ⟨last', bind_eq_ok.mpr ⟨_, read, rfl⟩⟩
  have inline := inline_of_code code
  have inside : op.token.isSeparator = false := by
    rcases readable.kind with kind | kind <;> simp [Token.isSeparator, kind]
  rw [steps_inline (List.forall_mem_cons.mpr ⟨inside, inline⟩)]
  rcases readable.kind with real | pseudo
  · rw [readLine_opcode _ real]
    exact statement _
  · have plain : Token.uncommented ts = ts := by
      refine Token.uncommented_of_plain fun t member => ?_
      have own := code t member
      cases kind : t.kind <;> simp_all [Token.isComment, TokenKind.isCode]
    have none : matchForm? (bisc.forms op.token.name) ts = none := by
      rw [matchForm?_eq_none]
      intro form shared
      by_contra matched
      have found : (form.operands? ts).isSome := by
        rw [PseudoForm.operands?, Option.isSome_map]
        exact Option.isSome_iff_ne_none.mpr matched
      obtain ⟨e, refused⟩ := instruction_refuses shared found [] op.token.pos
      obtain ⟨last', read⟩ := instruction op.token.pos
      rw [List.append_nil, read] at refused
      cases refused
    rw [readLine_pseudoOp _ pseudo, readPseudo, Token.line_of_inline inline,
      Token.afterLine_of_inline inline, plain, none]
    simp only [readable.known, Option.isSome_some, if_true, List.take_nil, List.append_nil]
    exact statement _

/-- A directive whose operands take the whole line. -/
theorem steps_directive {dot name : Token} (directive : dot.kind = .directive) (word : name.isWord) {d : Directive}
    (known : directiveTable.lookup name.name = some d) {ss : List Step}
    (takes : ∀ last, ∃ last', Reader.directiveOperands dot.pos d ⟨ts, last⟩ = .ok (ss, ⟨[], last'⟩)) :
    steps bisc (dot :: name :: ts) = ⟨ss, none⟩ := by
  obtain ⟨last', read⟩ := takes name.pos
  have taken : Reader.directive dot ⟨name :: ts, dot.pos⟩ = .ok (ss, ⟨[], last'⟩) := by
    refine bind_eq_ok.mpr ⟨_, word_found word .directiveName ts dot.pos, ?_⟩
    dsimp only
    rw [known]
    exact read
  have first : dot.isSeparator = false := by simp [Token.isSeparator, directive]
  have second := Token.isSeparator_of_isWord word
  rw [steps_inline (List.forall_mem_cons.mpr ⟨first, List.forall_mem_cons.mpr ⟨second, inline_of_code code⟩⟩),
    readLine, directive]
  exact statement_taken ⟨last', taken⟩

end Lines

/-- Tokens of one step that adds content are a program of that item. -/
theorem parse_of_steps {ts : List Token} {node : Node} {pos : Position}
    (read : steps bisc ts = ⟨[.item { node, pos }], none⟩)
    (content : node.isContent) : parse bisc ts = .ok [⟨".text", [{ node, pos }]⟩] := by
  unfold parse
  rw [read]
  change Except.ok (contentSections [] [⟨".text", none, [{ node, pos }]⟩]) = _
  rw [contentSections, if_pos (by simp [Section.hasContent, content])]
  rfl

/-- A text that is read as tokens of one step is a program of the item that the step adds. -/
theorem parse_of_reads {text : List Char} {ts : List Token} (reads : Reads bisc text ts)
    {node : Node} {pos : Position}
    (read : steps bisc ts = ⟨[.item { node, pos }], none⟩) (content : node.isContent) (line : Nat) :
    ∃ pos', parse bisc (tokenizeLine bisc text line) = .ok [⟨".text", [{ node, pos := pos' }]⟩] := by
  have alike : AllAlike (fun _ => True) ts (tokenizeLine bisc text line) :=
    allAlike_of_retagged (reads line 1 ⟨0, 0⟩ 0) fun t member => depth_of_tokensFrom member
  obtain ⟨p, again, same⟩ := parse_alike (fun _ _ _ _ _ => trivial) alike (parse_of_steps read content)
  obtain ⟨s, rfl⟩ : ∃ s, p = [s] := List.length_eq_one_iff.mp (by simpa using congrArg List.length same)
  obtain ⟨name, items⟩ := s
  simp only [List.map_cons, List.map_nil, Section.unplaced, List.cons.injEq, and_true, Section.mk.injEq] at same
  obtain ⟨rfl, same⟩ := same
  obtain ⟨i, rfl⟩ : ∃ i, items = [i] := List.length_eq_one_iff.mp (by simpa using congrArg List.length same)
  obtain ⟨node', pos', address⟩ := i
  simp only [List.map_cons, List.map_nil, Item.unplaced, List.cons.injEq, and_true, Item.mk.injEq, true_and] at same
  obtain ⟨rfl, rfl⟩ := same
  exact ⟨pos', again⟩

/-! ## Listings -/

/-- A listing writes the node as a source does. Bytes are only counted in a listing, and records are no content. -/
def Node.isReadable : Node → Bool
  | label _ | instruction _ | data (.zeros _) | data (.values ..) => true
  | _ => false

theorem Node.isContent_of_isReadable {n : Node} (readable : n.isReadable) : n.isContent := by
  cases n with
  | label | instruction | data => rfl
  | _ => cases readable

/-- The name of the directive for data of a width. -/
def Width.token : Width → Token
  | .byte => .symbol "byte"
  | .half => .symbol "half"
  | .word => .symbol "word"

theorem Width.named (width : Width) : width.token.spelled bisc ∧ width.token.isWord ∧
    directiveTable.lookup width.token.name = some (.values width) ∧ width.text = "." ++ width.token.raw := by
  cases width <;> decide +kernel

theorem spells_indented {text : String} {ts : List Token} (spells : Spells text ts) : Spells ("    " ++ text) ts := by
  have blanks : "    " ++ text = " " ++ (" " ++ (" " ++ (" " ++ text))) := by
    simp only [← String.append_assoc]
    rfl
  rw [blanks]
  exact spells.blank.blank.blank.blank

/-- A directive, its name and what follows. -/
theorem spells_directive {name : Token} (spelled : name.spelled bisc) (word : name.isWord)
    {text : String} {ts : List Token}
    (spells : Spells text ts) : Spells ("." ++ (name.raw ++ (" " ++ text))) (.dot :: name :: ts) := by
  have code : name.kind.isCode := Token.isCode_of_isWord word
  exact .mark (t := .dot) (by decide) (.append (.token spelled code) spells.blank (stops_blank text))

/-- The line of a listing for the node is a program of that node alone. -/
def Node.Reassembles (n : Node) : Prop :=
  ∀ line, ∃ pos, parse bisc (tokenizeLine bisc n.text.toList line) = .ok [⟨".text", [{ node := n, pos }]⟩]

theorem reassembles_label {name : String} (named : Named (Token.WellSpelled bisc) name) :
    (Node.label name).Reassembles := by
  intro line
  have text : (Node.label name).text = (Token.symbol name).raw ++ (Token.colon.raw ++ "") := by
    rw [String.append_empty]
    rfl
  have spells : Spells ((Token.symbol name).raw ++ (Token.colon.raw ++ "")) [.symbol name, .colon] :=
    .append (.token (Token.symbol_spelled named) rfl) (.mark (by decide) .nil) (stops_mark (by decide) (by decide) _)
  have read : steps bisc [.symbol name, .colon] = ⟨[.item { node := .label name, pos := ⟨0, 0⟩ }], none⟩ := by
    rw [steps_inline (by simp [Token.symbol, Token.colon, Token.fixed, Token.isSeparator])]
    exact readLine_label [] rfl rfl
  rw [text]
  exact parse_of_reads spells.reads read rfl line

theorem reassembles_instruction {op : Opcode} {operands : Operands} (listed : op ∈ opcodeTable)
    (format : operands.format = op.format)
    (written : operands.Written (Token.WellSpelled bisc)) : (Node.instruction ⟨op.code, operands⟩).Reassembles := by
  intro line
  obtain ⟨ts, prints⟩ := prints_operands written
  have readable := Opcode.readable listed
  have text : (Node.instruction ⟨op.code, operands⟩).text = "    " ++ (op.token.raw ++ operands.text) := by
    change "    " ++ Instruction.text ⟨op.code, operands⟩ = _
    rw [Instruction.text_eq, readable.printed]
  have code : op.token.kind.isCode := by
    rcases readable.kind with kind | kind <;> rw [kind] <;> rfl
  have spells : Spells (op.token.raw ++ operands.text) ([op.token] ++ ts) :=
    .append (.token readable.spelled code) prints.spells operands.stops_text
  have takes := prints.takes
  rw [format] at takes
  rw [text]
  exact parse_of_reads (spells_indented spells).reads (steps_instruction prints.code listed takes) rfl line

theorem reassembles_zeros (count : UInt32) : (Node.data (.zeros count)).Reassembles := by
  intro line
  let number := Token.literal (toString count.toNat) count
  have spells : Spells number.raw [number] := .token (Token.decimal_spelled bisc count) rfl
  have text : (Node.data (.zeros count)).text =
      "    " ++ ("." ++ ((Token.register "zero" 0).raw ++ (" " ++ number.raw))) := by
    change "    " ++ (".zero " ++ toString count.toNat) = _
    simp only [← String.append_assoc]
    rfl
  have read : steps bisc [.dot, .register "zero" 0, number] =
      ⟨[.item { node := .data (.zeros count), pos := ⟨0, 0⟩ }], none⟩ :=
    steps_directive (by simp [number, TokenKind.isCode]) rfl rfl rfl fun last => ⟨_, rfl⟩
  rw [text]
  exact parse_of_reads (spells_indented (spells_directive (by decide +kernel) rfl spells)).reads read rfl line

theorem reassembles_values {width : Width} {cs : List Constant} (filled : cs ≠ [])
    (written : ∀ c ∈ cs, c.Written (Token.WellSpelled bisc)) : (Node.data (.values width cs)).Reassembles := by
  intro line
  obtain ⟨ts, code, spells, takes⟩ := takes_commaSeparated filled written
  obtain ⟨spelled, word, known, directive⟩ := width.named
  have text : (Node.data (.values width cs)).text =
      "    " ++ ("." ++ (width.token.raw ++ (" " ++ commaSeparated (cs.map Constant.text)))) := by
    change "    " ++ (width.text ++ " " ++ commaSeparated (cs.map Constant.text)) = _
    rw [directive, String.append_assoc, String.append_assoc]
  have read : steps bisc (.dot :: width.token :: ts) =
      ⟨[.item { node := .data (.values width cs), pos := ⟨0, 0⟩ }], none⟩ := by
    refine steps_directive code rfl word known fun last => ?_
    obtain ⟨last', taken⟩ := takes last
    exact ⟨last', bind_eq_ok.mpr ⟨_, taken, rfl⟩⟩
  rw [text]
  exact parse_of_reads (spells_indented (spells_directive spelled word spells)).reads read rfl line

/-- What a listing writes as a source does is read back from it. -/
theorem Node.Written.reassembles {n : Node} (written : n.Written bisc (Token.WellSpelled bisc))
    (readable : n.isReadable) :
    n.Reassembles := by
  cases written with
  | label named => exact reassembles_label named
  | instruction listed format written => exact reassembles_instruction listed format written
  | zeros count => exact reassembles_zeros count
  | values filled written => exact reassembles_values filled written
  | bytes | constantRecord | macroRecord => cases readable

/-! ## Programs of a source -/

/-- Numbers in place of constants can be written too. -/
theorem Node.Written.valued {isa : InstructionSet} {P : Token → Prop} {n : Node} (written : n.Written isa P)
    (symbols : SymbolTable) :
    (n.valued symbols).Written isa P := by
  have number (v : UInt32) : (Constant.number v).Written P := .simple (.number v)
  cases written with
  | label named => exact .label named
  | instruction listed format written =>
    refine .instruction listed ?_ ?_
    · cases written <;> exact format
    · cases written with
      | bare => exact .bare
      | reg register => exact .reg register
      | regImm register => exact .regImm register (number _)
      | regMem target register => exact .regMem target register (number _)
      | regReg target register => exact .regReg target register
      | regRegReg target first second => exact .regRegReg target first second
  | bytes bs => exact .bytes bs
  | zeros count => exact .zeros count
  | values filled =>
    refine .values (by simpa using filled) fun c member => ?_
    obtain ⟨d, -, rfl⟩ := List.mem_map.mp member
    exact number _
  | constantRecord name value => exact .constantRecord name value
  | macroRecord name params => exact .macroRecord name params

theorem Node.valued_isReadable (symbols : SymbolTable) (n : Node) : (n.valued symbols).isReadable = n.isReadable := by
  cases n with
  | data d => cases d <;> rfl
  | _ => rfl

theorem producible_wellSpelled (isa : InstructionSet) : Producible isa (Token.WellSpelled isa) :=
  fun form operands origin => wellSpelled_of_unfold form operands origin

/-- The content of a source is made of what its tokens spell. -/
theorem written_of_parseSource {source : String} {p : Program} (parsed : parseSource source = .ok p)
    {i : Item} (member : i ∈ p.items)
    (content : i.node.isContent) : i.node.Written bisc (Token.WellSpelled bisc) := by
  obtain ⟨ts, preprocessed, parsed⟩ := bind_eq_ok.mp parsed
  exact written_of_parse (producible_wellSpelled bisc) (wellSpelled_of_preprocess preprocessed) parsed member content

/-- Listings re-assemble: the line of a listing for a label, an instruction, values or zeros of a
    source, as it was read or after it was laid out, is a program of one section with that item
    alone. -/
theorem listing_reassembles {source : String} {p : Program} (parsed : parseSource source = .ok p) {i : Item}
    (listed : i ∈ p.items ∨ ∃ p' symbols, analyze p = .ok (p', symbols) ∧ i ∈ p'.items)
    (readable : i.node.isReadable) (line : Nat) :
    ∃ pos, parse bisc (tokenizeLine bisc i.node.text.toList line) = .ok [⟨".text", [{ node := i.node, pos }]⟩] := by
  rcases listed with member | ⟨p', symbols, analyzed, member⟩
  · exact (written_of_parseSource parsed member (Node.isContent_of_isReadable readable)).reassembles readable line
  · have own : i.origin ∈ p'.items.map Item.origin := List.mem_map_of_mem member
    rw [(laidOut_of_analyze analyzed).origins] at own
    obtain ⟨j, origin, same⟩ := List.mem_map.mp own
    have node : j.node.valued symbols = i.node := congrArg Prod.fst same
    have before : j.node.isReadable := by rwa [← node, Node.valued_isReadable] at readable
    have written := written_of_parseSource parsed origin (Node.isContent_of_isReadable before)
    have later := written.valued symbols
    rw [node] at later
    exact later.reassembles readable line

/-- An instruction whose mnemonic is a pseudo-instruction too, with two bytes of a symbol. -/
private def slicedLoad : List Token := [⟨.pseudoOp, "ld", none, ⟨1, 1⟩, 0⟩, ⟨.register, "sp", some 14, ⟨1, 4⟩, 0⟩,
  ⟨.comma, ",", none, ⟨1, 6⟩, 0⟩, ⟨.register, "r2", some 2, ⟨1, 8⟩, 0⟩, ⟨.leftBracket, "[", none, ⟨1, 10⟩, 0⟩,
  ⟨.identifier, "x", none, ⟨1, 11⟩, 0⟩, ⟨.leftParen, "(", none, ⟨1, 12⟩, 0⟩, ⟨.immediate, "0", some 0, ⟨1, 13⟩, 0⟩,
  ⟨.colon, ":", none, ⟨1, 14⟩, 0⟩, ⟨.immediate, "1", some 1, ⟨1, 15⟩, 0⟩, ⟨.rightParen, ")", none, ⟨1, 16⟩, 0⟩,
  ⟨.rightBracket, "]", none, ⟨1, 17⟩, 0⟩, ⟨.lineSeparator, "\n", none, ⟨1, 18⟩, 0⟩,
    ⟨.identifier, "x", none, ⟨2, 1⟩, 0⟩,
  ⟨.colon, ":", none, ⟨2, 2⟩, 0⟩]

private def slicedProgram (offset : Constant) (address : UInt32) : Program :=
  [⟨".text", [⟨.instruction ⟨0x20, .regMem 14 2 offset⟩, ⟨1, 1⟩, 0⟩, ⟨.label "x", ⟨2, 1⟩, address⟩]⟩]

/-- The instruction as it was read, and with the value of the slice. -/
theorem listing_reassembles_slicedLoad :
    parseSource "ld sp, r2[x(0:1)]\nx:" = .ok (slicedProgram (.part (.symbol "x") (.bytes 0 1)) 0) ∧
    (∃ pos, parse bisc (tokenizeLine bisc "    ld r14, r2[x(0:1)]".toList 7) =
      .ok [⟨".text", [⟨.instruction ⟨0x20, .regMem 14 2 (.part (.symbol "x") (.bytes 0 1))⟩, pos, 0⟩]⟩]) ∧
    ∃ pos, parse bisc (tokenizeLine bisc "    ld r14, r2[0x4]".toList 7) =
      .ok [⟨".text", [⟨.instruction ⟨0x20, .regMem 14 2 (.number 4)⟩, pos, 0⟩]⟩] := by
  have tokens : tokenize bisc "ld sp, r2[x(0:1)]\nx:" = slicedLoad := by decide +kernel
  have parsed : parseSource "ld sp, r2[x(0:1)]\nx:" = .ok (slicedProgram (.part (.symbol "x") (.bytes 0 1)) 0) := by
    unfold parseSource
    rw [tokens, preprocess_plain (by decide)]
    rfl
  have analyzed : ∃ symbols, analyze (slicedProgram (.part (.symbol "x") (.bytes 0 1)) 0) =
      .ok (slicedProgram (.number 4) 4, symbols) := ⟨_, rfl⟩
  obtain ⟨symbols, analyzed⟩ := analyzed
  refine ⟨parsed, ?_, ?_⟩
  · exact listing_reassembles parsed (.inl List.mem_cons_self) rfl 7
  · exact listing_reassembles parsed (.inr ⟨_, symbols, analyzed, List.mem_cons_self⟩) rfl 7

end Bisc
