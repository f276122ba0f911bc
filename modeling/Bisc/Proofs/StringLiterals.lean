import Bisc.Proofs.ConstantSubstitution
import Bisc.Proofs.Listing
import Bisc.Proofs.ObjectReader
import Bisc.Proofs.Slices

/-!
Strings in a source. The lexer ends a literal where no escape goes on, and the bytes of the literal
are found by reading the escapes between the quotes; both take a backslash together with the
character after it, so the only thing that can be wrong with a literal is an escape that means
nothing. Any text, written with escapes for what cannot stand in a literal, is read as its own
bytes.
-/
namespace Bisc

namespace Text

/-! ## Literals as they are written -/

/-- A character as it stands in a literal. -/
def escapeChar : Char → List Char
  | '\\' => ['\\', '\\']
  | '"' => ['\\', '"']
  | '\n' => ['\\', 'n']
  | '\r' => ['\\', 'r']
  | c => [c]

/-- A text as it stands between the quotes of a literal. -/
def escape (cs : List Char) : List Char := cs.flatMap escapeChar

/-- The character at an index is the second of an escape: before it is a backslash, which is not
    itself the second of one. -/
def isEscaped (cs : List Char) : Nat → Bool
  | 0 => false
  | index + 1 => cs[index]? = some '\\' && !isEscaped cs index

/-- The first quote that is not the second of an escape is at the index. -/
def IsClosing (cs : List Char) (index : Nat) : Prop :=
  cs[index]? = some '"' ∧ isEscaped cs index = false ∧ ∀ earlier < index, cs[earlier]? = some '"' →
  isEscaped cs earlier

/-- The escape in a body is complete and means nothing. -/
def UnknownEscape (body : List Char) (e : String) : Prop :=
  ∃ before c after, body = before ++ '\\' :: c :: after ∧ isEscaped body before.length = false ∧
  escapedByte? c = none ∧
    e = String.ofList ['\\', c]

theorem isEscaped_front {front : List Char} {index : Nat} (inside : index ≤ front.length) (cs : List Char) :
    isEscaped (front ++ cs) index = isEscaped front index := by
  induction index with
  | zero => rfl
  | succ index ih => rw [isEscaped, isEscaped, ih (by omega), List.getElem?_append_left (by omega)]

/-- Behind a front that no escape goes on from, escapes are what they are without the front. -/
theorem isEscaped_append {front cs : List Char} (ended : isEscaped (front ++ cs) front.length = false) (index : Nat) :
    isEscaped (front ++ cs) (front.length + index) = isEscaped cs index := by
  induction index with
  | zero => exact ended
  | succ index ih =>
    rw [← Nat.add_assoc, isEscaped, isEscaped, ih, List.getElem?_append_right (by omega),
      Nat.add_sub_cancel_left]

theorem isEscaped_plain {c : Char} (backslash : c ≠ '\\') (cs : List Char) (index : Nat) :
    isEscaped (c :: cs) (index + 1) = isEscaped cs index := by
  have shift := @isEscaped_append [c] cs (by simp [isEscaped, backslash]) index
  rwa [Nat.add_comm] at shift

theorem isEscaped_escape (c : Char) (cs : List Char) (index : Nat) :
    isEscaped ('\\' :: c :: cs) (index + 2) = isEscaped cs index := by
  have shift := @isEscaped_append ['\\', c] cs (by simp [isEscaped]) index
  rwa [Nat.add_comm] at shift

theorem unescape_plain {c : Char} (backslash : c ≠ '\\') (cs : List Char) :
    unescape (c :: cs) = (unescape cs).map (String.utf8EncodeChar c ++ ·) :=
  unescape.eq_4 _ _ (by simp [backslash]) (by simp [backslash])

namespace IsBody

variable {body : List Char} (shape : IsBody body)
include shape

/-- No escape goes on behind a body. -/
theorem ends : isEscaped body body.length = false := by
  induction shape with
  | nil => rfl
  | plain _ backslash _ ih => rw [List.length_cons, isEscaped_plain backslash, ih]
  | escape c _ ih => rw [List.length_cons, List.length_cons, isEscaped_escape, ih]

/-- A quote in a body is the second character of an escape. -/
theorem escaped_quote {index : Nat} (found : body[index]? = some '"') : isEscaped body index := by
  induction shape generalizing index with
  | nil => simp at found
  | plain quote backslash _ ih =>
    cases index with
    | zero => simp [quote] at found
    | succ index => rw [isEscaped_plain backslash, ih (by simpa using found)]
  | escape c _ ih =>
    match index, found with
    | 0, found => simp at found
    | 1, _ => rfl
    | index + 2, found => rw [isEscaped_escape, ih (by simpa using found)]

/-- The first quote behind a body closes it. -/
theorem isClosing (after : List Char) : IsClosing (body ++ '"' :: after) body.length := by
  refine ⟨by simp, ?_, fun earlier before found => ?_⟩
  · rw [isEscaped_front le_rfl, shape.ends]
  · rw [List.getElem?_append_left before] at found
    rw [isEscaped_front (Nat.le_of_lt before), shape.escaped_quote found]

/-- The only thing that can be wrong with a body is an escape that means nothing. -/
theorem unescape_error {e : String} (failed : unescape body = .error e) : UnknownEscape body e := by
  induction shape with
  | nil => cases failed
  | @plain c cs _ backslash _ ih =>
    rw [unescape_plain backslash] at failed
    obtain ⟨before, d, after, rfl, starts, unknown, rfl⟩ := ih (map_eq_error.mp failed)
    exact ⟨c :: before, d, after, rfl, by rw [List.length_cons, isEscaped_plain backslash, starts], unknown, rfl⟩
  | @escape c cs _ ih =>
    rw [unescape.eq_3] at failed
    cases known : escapedByte? c with
    | none =>
      rw [known] at failed
      cases failed
      exact ⟨[], c, cs, rfl, rfl, known, rfl⟩
    | some b =>
      rw [known] at failed
      obtain ⟨before, d, after, rfl, starts, unknown, rfl⟩ := ih (map_eq_error.mp failed)
      exact ⟨'\\' :: c :: before, d, after, rfl,
        by rw [List.length_cons, List.length_cons, isEscaped_escape, starts], unknown, rfl⟩

end IsBody

/-! ## Texts between quotes -/

/-- A character is written as itself, or as an escape for it. -/
theorem escapeChar_cases (c : Char) : (c ≠ '"' ∧ c ≠ '\\' ∧ c ≠ '\n' ∧ c ≠ '\r' ∧ escapeChar c = [c]) ∨
    ∃ d b, escapeChar c = ['\\', d] ∧ d ≠ '\n' ∧ d ≠ '\r' ∧ escapedByte? d = some b ∧
    String.utf8EncodeChar c = [b] := by
  unfold escapeChar
  split
  · exact .inr ⟨'\\', 0x5C, by decide⟩
  · exact .inr ⟨'"', 0x22, by decide⟩
  · exact .inr ⟨'n', 0x0A, by decide⟩
  · exact .inr ⟨'r', 0x0D, by decide⟩
  · simp_all

theorem isBody_escape (cs : List Char) : IsBody (escape cs) := by
  induction cs with
  | nil => exact .nil
  | cons c cs ih =>
    rw [escape, List.flatMap_cons]
    obtain ⟨quote, backslash, -, -, plain⟩ | ⟨d, b, escaped, -⟩ := escapeChar_cases c
    · rw [plain]
      exact .plain quote backslash ih
    · rw [escaped]
      exact .escape d ih

theorem unescape_escape (cs : List Char) : unescape (escape cs) = .ok (utf8 cs) := by
  induction cs with
  | nil => rfl
  | cons c cs ih =>
    rw [escape, List.flatMap_cons, utf8, List.flatMap_cons]
    rw [escape, utf8] at ih
    obtain ⟨-, backslash, -, -, plain⟩ | ⟨d, b, escaped, -, -, known, byte⟩ := escapeChar_cases c
    · rw [plain, List.singleton_append, unescape_plain backslash, ih]
      rfl
    · rw [escaped, byte, List.cons_append, List.singleton_append, unescape.eq_3, known, ih]
      rfl

theorem escape_oneLine (cs : List Char) : ∀ c ∈ escape cs, c ≠ '\n' ∧ c ≠ '\r' := by
  intro c member
  obtain ⟨d, -, inside⟩ := List.mem_flatMap.mp member
  obtain ⟨-, -, line, carriage, plain⟩ | ⟨e, b, escaped, line, carriage, -⟩ := escapeChar_cases d
  · rw [plain, List.mem_singleton] at inside
    exact inside ▸ ⟨line, carriage⟩
  · rw [escaped] at inside
    rcases List.mem_cons.mp inside with rfl | inside
    · decide
    · exact List.mem_singleton.mp inside ▸ ⟨line, carriage⟩

end Text

/-! ## Literals as they are read -/

/-- A body on one line is closed by the first quote behind it. -/
theorem closingQuote?_of_isBody {body : List Char} (shape : Text.IsBody body) (line : ∀ c ∈ body, c ≠ '\n')
    (after : List Char) :
    closingQuote? (body ++ '"' :: after) = some (body.length + 1) := by
  induction shape with
  | nil => rfl
  | @plain c cs quote backslash _ ih =>
    obtain ⟨-, later⟩ := List.forall_mem_cons.mp line
    rw [List.cons_append, closingQuote?.eq_5 _ _ quote (by simp [backslash]) (by simp [backslash]), ih later]
    rfl
  | @escape c cs _ ih =>
    obtain ⟨-, inside, later⟩ := by simpa only [List.forall_mem_cons] using line
    rw [List.cons_append, List.cons_append, closingQuote?, if_neg inside, ih later]
    rfl

/-- A string literal of a line is a body between quotes. -/
theorem quoted_of_tokenizeLine {isa : InstructionSet} {text : List Char} {line : Nat} {t : Token}
    (member : t ∈ tokenizeLine isa text line)
    (literal : t.kind = .stringLiteral) : ∃ before body after, text = before ++ '"' :: (body ++ '"' :: after) ∧
      t.pos = ⟨line, 1 + Text.utf8Length before⟩ ∧ t.raw.toList = '"' :: (body ++ ['"']) ∧ Text.IsBody body := by
  obtain ⟨before, c, cs, rfl, -, rfl⟩ := lexeme_of_tokensFrom member
  obtain ⟨rfl, closed⟩ := Lexeme.scan_stringLiteral literal
  obtain ⟨body, after, rfl, length, shape⟩ := isBody_of_closingQuote? closed
  refine ⟨before, body, after, rfl, rfl, ?_, shape⟩
  have taken : (body ++ '"' :: after).take (body.length + 1) = body ++ ['"'] := by
    rw [List.take_length_add_append]
    rfl
  rw [length, taken, String.toList_ofList]

/-- The bytes of a literal are those of what stands between its quotes. -/
theorem stringBytes_quoted {t : Token} (literal : t.kind = .stringLiteral) {body : List Char}
    (quoted : t.raw.toList = '"' :: (body ++ ['"'])) (rest : List Token) (last : Position) :
    Reader.stringBytes ⟨t :: rest, last⟩ =
      match Text.unescape body with
      | .ok bytes => .ok (bytes, ⟨rest, t.pos⟩)
      | .error e => .error ⟨.unexpected .escapeSequence (.spelled e), t.pos⟩ := by
  simp only [Reader.stringBytes, bind, StateT.bind, expect_found literal, Except.bind, Token.literalBody?_quoted quoted]
  cases Text.unescape body <;> rfl

/-! ## Sources of one literal -/

/-- A literal with a body. -/
def Token.quoted (body : List Char) : Token := fixed .stringLiteral (String.ofList ('"' :: (body ++ ['"']))) none

theorem Token.quoted_toList (body : List Char) : (quoted body).raw.toList = '"' :: (body ++ ['"']) :=
  String.toList_ofList

theorem Token.quoted_spelled {isa : InstructionSet} {body : List Char} (shape : Text.IsBody body)
    (line : ∀ c ∈ body, c ≠ '\n') :
    (quoted body).spelled isa := by
  refine spelled_iff.mpr ⟨'"', body ++ ['"'], quoted_toList body, by decide, ?_⟩
  change Lexeme.stringLiteral (body ++ ['"']) = _
  rw [Lexeme.stringLiteral, closingQuote?_of_isBody shape line]
  simp [quoted, fixed]

/-- A source without line breaks is one line. -/
theorem tokenize_oneLine {isa : InstructionSet} {source : String}
    (oneLine : ∀ c ∈ source.toList, c ≠ '\n' ∧ c ≠ '\r') :
    tokenize isa source = tokenizeLine isa source.toList 1 := by
  have kept : source.toList.filter (· ≠ '\r') = source.toList :=
    List.filter_eq_self.mpr fun c member => by simpa using (oneLine c member).2
  rw [tokenize, kept, textLines_inline fun c member => (oneLine c member).1]
  rfl

/-- A directive with one operand is three tokens. -/
theorem tokenizeLine_directive {name t : Token} (named : name.spelled bisc) (word : name.isWord)
    (spelled : t.spelled bisc)
    (code : t.kind.isCode) (line : Nat) : tokenizeLine bisc ("." ++ (name.raw ++ (" " ++ t.raw))).toList line =
      [Token.dot.retag ⟨line, 1⟩ 0, name.retag ⟨line, 2⟩ 0,
        t.retag ⟨line, 2 + Text.utf8Length name.raw.toList + 1⟩ 0] := by
  have dot := @tokensFrom_spelled bisc .dot (name.raw ++ (" " ++ t.raw)).toList (by decide +kernel) rfl nofun line 1
  have directive := tokensFrom_spelled named (Token.isCode_of_isWord word) (fun _ => stops_blank t.raw) line 2
  have blank (column : Nat) : tokensFrom bisc line column 0 (" " ++ t.raw).toList = tokensFrom bisc line
      (column + 1) 0 t.raw.toList := by
    rw [String.toList_append]
    rfl
  have operand (column : Nat) := tokensFrom_spelled spelled code (fun _ => stops_nil) line column
  simp only [List.append_nil, tokensFrom] at operand
  rw [blank, operand, ← String.toList_append] at directive
  calc
    _ = Token.dot.retag ⟨line, 1⟩ 0 :: tokensFrom bisc line 2 0 (name.raw ++ (" " ++ t.raw)).toList := by
      rw [tokenizeLine, String.toList_append]
      exact dot
    _ = _ := by rw [directive]

/-- A directive that defines nothing stays as it is. -/
theorem preprocess_directive {dot name t : Token} (directive : dot.kind = .directive) (word : name.isWord)
    (other : name.name ≠ "define" ∧ name.name ≠ "macro") (operand : t.kind ≠ .macroOp) :
    preprocess [dot, name, t] = .ok [dot, name, t] := by
  obtain ⟨uninvoking, undirected⟩ := Token.kind_of_isWord word
  refine preprocess_unchanged (fun us behind => ?_) (by simp [directive, uninvoking, operand])
  simp only [List.suffix_cons_iff, List.suffix_nil] at behind
  rcases behind with rfl | rfl | rfl | rfl
  · simpa [directiveAt?, directive, word] using other
  · simp [directiveAt?, undirected]
  · simp [directiveAt?]
  · simp [directiveAt?]

/-- The name of the directive for a text, with a zero after it or not. -/
def textDirective (terminated : Bool) : Token := .symbol (if terminated then "asciz" else "string")

theorem textDirective_named (terminated : Bool) :
    (textDirective terminated).spelled bisc ∧ (textDirective terminated).isWord ∧
    ((textDirective terminated).name ≠ "define" ∧ (textDirective terminated).name ≠ "macro") ∧
    directiveTable.lookup (textDirective terminated).name = some (.text terminated) := by
  cases terminated <;> decide +kernel

/-- The source of one directive for a text. -/
def textSource (terminated : Bool) (s : String) : String :=
  (if terminated then ".asciz" else ".string") ++ " \"" ++ String.ofList (Text.escape s.toList) ++ "\""

theorem textSource_eq (terminated : Bool) (s : String) : textSource terminated s =
    "." ++ ((textDirective terminated).raw ++ (" " ++ (Token.quoted (Text.escape s.toList)).raw)) := by
  apply String.toList_injective
  cases terminated <;> simp [textSource, textDirective, Token.symbol, Token.quoted, Token.fixed]

/-- The bytes of a text, with a zero after them or not. -/
def textBytes (terminated : Bool) (s : String) : List UInt8 := s.toUTF8.data.toList ++ if terminated then [0] else []

theorem utf8_toList (s : String) : Text.utf8 s.toList = s.toUTF8.data.toList := by
  rw [String.toUTF8, ← utf8_toByteArray]
  simp

/-- A text between quotes is an operand that stands for its own bytes. -/
theorem directiveOperands_quoted {t : Token} (literal : t.kind = .stringLiteral) {s : String}
    (quoted : t.raw.toList = '"' :: (Text.escape s.toList ++ ['"'])) (terminated : Bool) (dot last : Position) :
    Reader.directiveOperands dot (.text terminated) ⟨[t], last⟩ =
      .ok ([.item { node := .data (.bytes (textBytes terminated s)), pos := dot }], ⟨[], t.pos⟩) := by
  have bytes := stringBytes_quoted literal quoted [] last
  rw [Text.unescape_escape, utf8_toList] at bytes
  rw [Reader.directiveOperands]
  refine reader_bind_eq_ok.mpr ⟨_, _, bytes, ?_⟩
  cases terminated <;> simp [textBytes, pure, StateT.pure, Except.pure]

/-- Any text is read back as its own bytes. -/
theorem parseSource_textSource (terminated : Bool) (s : String) : parseSource (textSource terminated s) =
    .ok [⟨".text", [{ node := .data (.bytes (textBytes terminated s)), pos := ⟨1, 1⟩ }]⟩] := by
  obtain ⟨named, word, other, known⟩ := textDirective_named terminated
  have oneLine := Text.escape_oneLine s.toList
  have whole : ∀ c ∈ (textSource terminated s).toList, c ≠ '\n' ∧ c ≠ '\r' := by
    simp only [textSource, String.toList_append, String.toList_ofList, List.forall_mem_append]
    refine ⟨⟨⟨?_, by simp⟩, oneLine⟩, by simp⟩
    cases terminated <;> simp
  have spelled : (Token.quoted (Text.escape s.toList)).spelled bisc :=
    Token.quoted_spelled (Text.isBody_escape s.toList) fun c member => (oneLine c member).1
  -- The line is three tokens, there is nothing to expand in them, and reading them is one step.
  have tokens := tokenizeLine_directive named word spelled rfl 1
  rw [← textSource_eq, ← tokenize_oneLine whole] at tokens
  have unchanged : preprocess (tokenize bisc (textSource terminated s)) =
      .ok (tokenize bisc (textSource terminated s)) := by
    rw [tokens]
    exact preprocess_directive rfl word other nofun
  have read : steps bisc (tokenize bisc (textSource terminated s)) =
      ⟨[.item { node := .data (.bytes (textBytes terminated s)), pos := ⟨1, 1⟩ }], none⟩ := by
    rw [tokens]
    apply steps_directive
    · simp [TokenKind.isCode, Token.quoted, Token.fixed]
    · rfl
    · exact word
    · exact known
    · intro last
      refine ⟨_, directiveOperands_quoted rfl ?_ terminated ⟨1, 1⟩ last⟩
      exact Token.quoted_toList _
  exact bind_eq_ok.mpr ⟨_, unchanged, parse_of_steps read rfl⟩

/-! ## All literals -/

/-- Strings survive: any text, written with escapes in a directive, is read back as its own bytes.
    And any string literal of any line goes on from its quote to the first one that is not the
    second character of an escape; it has two bytes or more, the reader takes what is between the
    quotes, and fails only at an escape, a complete one, that means nothing. -/
theorem strings_survive :
    (∀ terminated s, parseSource (textSource terminated s) =
      .ok [⟨".text", [{ node := .data (.bytes (textBytes terminated s)), pos := ⟨1, 1⟩ }]⟩]) ∧
    ∀ isa text line t, t ∈ tokenizeLine isa text line → t.kind = .stringLiteral →
      ∃ before cs body, text = before ++ '"' :: cs ∧ t.pos = ⟨line, 1 + Text.utf8Length before⟩ ∧
        Text.IsClosing cs body.length ∧ body <+: cs ∧ t.raw.toList = '"' :: (body ++ ['"']) ∧ 2 ≤ t.raw.utf8ByteSize ∧
        Text.unescape body ≠ .error "\\" ∧ ∀ rest last,
          (∃ bytes, Text.unescape body = .ok bytes ∧ Reader.stringBytes ⟨t :: rest, last⟩ =
            .ok (bytes, ⟨rest, t.pos⟩)) ∨
          ∃ e, Text.unescape body = .error e ∧ Text.UnknownEscape body e ∧
            Reader.stringBytes ⟨t :: rest, last⟩ = .error ⟨.unexpected .escapeSequence (.spelled e), t.pos⟩ := by
  refine ⟨parseSource_textSource, fun isa text line t member literal => ?_⟩
  obtain ⟨before, body, after, rfl, place, quoted, shape⟩ := quoted_of_tokenizeLine member literal
  refine ⟨before, body ++ '"' :: after, body, rfl, place, shape.isClosing after, List.prefix_append ..,
    quoted, ?_, ?_, fun rest last => ?_⟩
  · have quote : '"'.utf8Size = 1 := by decide
    rw [← String.utf8Len_toList, quoted, String.utf8Len_cons, String.utf8Len_append]
    simp [quote]
  · intro failed
    obtain ⟨before, c, after, -, -, -, short⟩ := shape.unescape_error failed
    have lengths := congrArg String.length short
    simp at lengths
  · have read := stringBytes_quoted literal quoted rest last
    cases outcome : Text.unescape body with
    | ok bytes =>
      rw [outcome] at read
      exact .inl ⟨bytes, rfl, read⟩
    | error e =>
      rw [outcome] at read
      exact .inr ⟨e, rfl, shape.unescape_error outcome, read⟩

/-- Marks and escapes in a text, and a literal behind another one. -/
theorem strings_survive_marks :
    parseSource ".asciz \"\\\\\\\";%\\né\"" =
    .ok [⟨".text", [⟨.data (.bytes [92, 34, 59, 37, 10, 195, 169, 0]), ⟨1, 1⟩, 0⟩]⟩] ∧
    ∃ t, t ∈ tokenizeLine bisc "\"\\\\\" \"\\\"é;\\q\"".toList 7 ∧ t.kind = .stringLiteral ∧ t.pos = ⟨7, 6⟩ ∧
      ∃ e, Text.UnknownEscape ['\\', '"', 'é', ';', '\\', 'q'] e ∧
        Reader.stringBytes ⟨[t], ⟨7, 1⟩⟩ = .error ⟨.unexpected .escapeSequence (.spelled e), ⟨7, 6⟩⟩ := by
  have source : textSource true "\\\";%\né" = ".asciz \"\\\\\\\";%\\né\"" := by decide +kernel
  have bytes : textBytes true "\\\";%\né" = [92, 34, 59, 37, 10, 195, 169, 0] := by decide +kernel
  have member : ⟨.stringLiteral, "\"\\\"é;\\q\"", none, ⟨7, 6⟩,
    0⟩ ∈ tokenizeLine bisc "\"\\\\\" \"\\\"é;\\q\"".toList 7 := by
    decide +kernel
  obtain ⟨survives, literals⟩ := strings_survive
  refine ⟨?_, _, member, rfl, rfl, ?_⟩
  · rw [← source, survives, bytes]
  · obtain ⟨before, cs, body, -, -, -, -, quoted, -, -, read⟩ := literals _ _ _ _ member rfl
    have inner : body = ['\\', '"', 'é', ';', '\\', 'q'] := by
      have inside := congrArg (fun cs => (cs.drop 1).dropLast) quoted
      simpa using inside.symm
    subst inner
    rcases read [] ⟨7, 1⟩ with ⟨bytes, unescaped, -⟩ | ⟨e, -, unknown, failed⟩
    · cases unescaped
    · exact ⟨e, unknown, failed⟩

end Bisc
