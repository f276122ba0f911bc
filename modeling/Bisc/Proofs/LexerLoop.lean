import Bisc.Proofs.Loop
import Bisc.Proofs.Slices
import Bisc.Proofs.Spelling

/-!
Reading a line as a loop over byte offsets, where every piece of the line is cut out by bytes. A cut
inside a character or behind the end has no result, and the loop would have none then. It has one
for every text: lexemes end where characters end, so the loop stops with the tokens of the line.
-/
namespace Bisc

namespace Text

/-- The byte offsets of the characters of a text that starts at a byte. -/
def charIndices (start : Nat) : List Char → List (Nat × Char)
  | [] => []
  | c :: cs => (start, c) :: charIndices (start + c.utf8Size) cs

/-- A mark of a base is cut off behind its characters. -/
theorem sliceFrom?_mark (cs : List Char) : sliceFrom? (baseAndMark cs).2 cs = some (cs.drop (baseAndMark cs).2) := by
  have marked (letter : Char) (narrow : letter.utf8Size = 1) (rest : List Char) :
      sliceFrom? 2 ('0' :: letter :: rest) = some rest := by
    have cut := sliceFrom?_append ['0', letter] rest
    rwa [utf8Length_cons, utf8Length_cons, narrow] at cut
  unfold baseAndMark
  split
  case h_5 => simp [sliceFrom?, cut?]
  all_goals exact marked _ rfl _

end Text

/-! ## Lexemes by bytes -/

namespace Lexeme

/-- What a lexeme is, and its length in bytes. -/
structure Measured where
  kind : TokenKind
  length : Nat
  value : Option UInt32

/-- A lexeme at a character, measured in bytes. -/
def measured (x : Lexeme) (c : Char) (cs : List Char) : Measured :=
  ⟨x.kind, Text.utf8Length (c :: cs.take x.more), x.value⟩

/-- The length of an invalid lexeme: the offset of the next blank or delimiter, or that of the end. -/
def runLength (c : Char) (cs : List Char) : Nat :=
  match (Text.charIndices c.utf8Size cs).find? fun entry => Text.isBlank entry.2 || isDelimiter entry.2 with
  | some (offset, _) => max offset c.utf8Size
  | none => Text.utf8Length (c :: cs)

/-- The value of a character literal, whose body is cut out between its apostrophes. -/
def characterValue? (literal : List Char) : Option (Option UInt32) :=
  (Text.slice? 1 (Text.utf8Length literal - 1) literal).map fun body =>
    match Text.unescape body with
    | .ok [b] => some b.toUInt32
    | _ => none

/-- The value of the text of a numeral, whose digits are cut out behind the mark of its base. -/
def numeralValue? (text : List Char) : Option (Option UInt32) :=
  let (negative, unsigned) := Text.splitSign text
  let (base, mark) := Text.baseAndMark unsigned
  (Text.sliceFrom? mark unsigned).map fun digits => (Text.parseDigits? base digits).bind (Text.wordOf? negative)

/-- A character literal or what is invalid at an apostrophe, by bytes. -/
def characterBytes? (cs : List Char) : Option Measured :=
  match characterBody? cs with
  | none => some ⟨.invalid, runLength '\x27' cs, none⟩
  | some body =>
    let literal := '\x27' :: (body ++ ['\x27'])
    (characterValue? literal).map fun
      | some w => ⟨.immediate, Text.utf8Length literal, some w⟩
      | none => ⟨.invalid, Text.utf8Length literal, none⟩

/-- A number or what it runs into, by bytes. -/
def numberBytes? (n : Text.Numeral) (c : Char) (cs : List Char) : Option Measured :=
  (Text.sliceFrom? (Text.utf8Length n.text) (c :: cs)).bind fun trailing =>
    match trailing.head?.map isWordChar with
    | some true => some ⟨.invalid, runLength c cs, none⟩
    | _ => (numeralValue? n.text).map fun
      | some w => ⟨.immediate, Text.utf8Length n.text, some w⟩
      | none => ⟨.invalid, Text.utf8Length n.text, none⟩

/-- A number or a word, by bytes. -/
def numberOrWordBytes? (isa : InstructionSet) (c : Char) (cs : List Char) : Option Measured :=
  match Text.Numeral.scan? (c :: cs) with
  | some n => numberBytes? n c cs
  | none =>
    if isWordStart c then
      let word := c :: cs.takeWhile isWordChar
      some ⟨(classify isa word).1, Text.utf8Length word, (classify isa word).2⟩
    else some ⟨.invalid, runLength c cs, none⟩

/-- What begins at a character that is not blank, by bytes; none where a cut fails. -/
def scanBytes? (isa : InstructionSet) (c : Char) (cs : List Char) : Option Measured :=
  match c with
  | ';' => some ⟨.comment, Text.utf8Length (';' :: cs), none⟩
  | ',' => some ⟨.comma, 1, none⟩
  | '[' => some ⟨.leftBracket, 1, none⟩
  | ']' => some ⟨.rightBracket, 1, none⟩
  | '(' => some ⟨.leftParen, 1, none⟩
  | ')' => some ⟨.rightParen, 1, none⟩
  | ':' => some ⟨.colon, 1, none⟩
  | '.' => some ⟨.directive, 1, none⟩
  | '%' => some ⟨.macroOp, 1, none⟩
  | '"' =>
    match closingQuote? cs with
    | some n => some ⟨.stringLiteral, Text.utf8Length ('"' :: cs.take n), none⟩
    | none => some ⟨.invalid, Text.utf8Length ('"' :: cs), none⟩
  | '\x27' => characterBytes? cs
  | _ => numberOrWordBytes? isa c cs

variable {isa : InstructionSet} {c : Char} {cs : List Char}

theorem find?_charIndices (start : Nat) (p : Char → Bool) (cs : List Char) :
    (Text.charIndices start cs).find? (fun entry => p entry.2) =
      (cs.dropWhile (!p ·)).head?.map fun d => (start + Text.utf8Length (cs.takeWhile (!p ·)), d) := by
  induction cs generalizing start with
  | nil => rfl
  | cons c cs ih =>
    cases stops : p c with
    | true => simp [Text.charIndices, stops]
    | false => simp [Text.charIndices, stops, ih, Nat.add_assoc]

/-- An invalid lexeme has the characters before the next blank or delimiter. -/
theorem runLength_eq (c : Char) (cs : List Char) : runLength c cs = ((invalidRun cs).measured c cs).length := by
  have front := List.takeWhile_append_dropWhile (p := fun d => !(Text.isBlank d || isDelimiter d)) (l := cs)
  rw [runLength, find?_charIndices _ fun d => Text.isBlank d || isDelimiter d, measured, invalidRun]
  dsimp only
  rw [take_takeWhile]
  cases rest : cs.dropWhile fun d => !(Text.isBlank d || isDelimiter d) with
  | nil =>
    rw [rest, List.append_nil] at front
    rw [front]
    rfl
  | cons d ds => simp

/-- The body of a character literal is what stands between its first byte and its last. -/
theorem characterValue?_eq (body : List Char) : characterValue? ('\x27' :: (body ++ ['\x27'])) = some
    (match Text.unescape body with
    | .ok [b] => some b.toUInt32
    | _ => none) := by
  have upTo : Text.sliceTo? (Text.utf8Length ('\x27' :: (body ++ ['\x27'])) - 1) ('\x27' :: (body ++ ['\x27'])) =
      some ('\x27' :: body) := by
    have length : Text.utf8Length ('\x27' :: (body ++ ['\x27'])) - 1 = Text.utf8Length ('\x27' :: body) := by
      simp only [Text.utf8Length_cons, Text.utf8Length_append, Text.utf8Length_nil, show '\x27'.utf8Size = 1 from rfl]
      omega
    rw [length]
    exact Text.sliceTo?_append ('\x27' :: body) ['\x27']
  have behind : Text.sliceFrom? 1 ('\x27' :: body) = some body := Text.sliceFrom?_append ['\x27'] body
  rw [characterValue?, Text.slice?, upTo, Option.bind_some, behind, Option.map_some]

theorem characterBytes?_eq (cs : List Char) :
    characterBytes? cs = some ((characterLiteral cs).measured '\x27' cs) := by
  unfold characterBytes? characterLiteral
  cases found : characterBody? cs with
  | none =>
    dsimp only
    rw [runLength_eq]
    rfl
  | some body =>
    obtain ⟨⟨rest, rfl⟩, -⟩ := characterBody?_again found
    have front : (body ++ ['\x27'] ++ rest).take (body.length + 1) = body ++ ['\x27'] := List.take_left' (by simp)
    dsimp only
    rw [characterValue?_eq, Option.map_some]
    rcases Text.unescape body with _ | (_ | ⟨_, _ | _⟩) <;> simp only [measured, front]

theorem numeralValue?_eq (text : List Char) : numeralValue? text = some (Text.number? text) := by
  simp only [numeralValue?, Text.sliceFrom?_mark, Option.map_some, Text.number?]

theorem numberBytes?_eq {n : Text.Numeral} (scanned : Text.Numeral.scan? (c :: cs) = some n) :
    numberBytes? n c cs = some ((number n c cs).measured c cs) := by
  obtain ⟨filled, ⟨rest, split⟩, -⟩ := Text.Numeral.scan?_again scanned
  obtain ⟨d, digits, spelled⟩ := List.exists_cons_of_ne_nil filled
  have trailing : (c :: cs).drop n.text.length = rest := by rw [← split, List.drop_left]
  have front : c :: cs.take (n.text.length - 1) = n.text := by
    rw [spelled, List.cons_append, List.cons.injEq] at split
    rw [spelled, List.length_cons, Nat.add_sub_cancel, ← split.1, ← split.2, List.take_left]
  have behind : Text.sliceFrom? (Text.utf8Length n.text) (c :: cs) = some rest := by
    rw [← split, Text.sliceFrom?_append]
  rw [numberBytes?, behind, Option.bind_some, number, trailing]
  have plain : (numeralValue? n.text).map (fun
      | some w => (⟨.immediate, Text.utf8Length n.text, some w⟩ : Measured)
      | none => ⟨.invalid, Text.utf8Length n.text, none⟩) = some ((match Text.number? n.text with
        | some w => (⟨.immediate, n.text.length - 1, some w⟩ : Lexeme)
        | none => ⟨.invalid, n.text.length - 1, none⟩).measured c cs) := by
    rw [numeralValue?_eq, Option.map_some]
    cases Text.number? n.text <;> simp only [measured, front]
  rcases rest.head?.map isWordChar with _ | _ | _
  · exact plain
  · exact plain
  · dsimp only
    rw [runLength_eq]
    rfl

theorem numberOrWordBytes?_eq (isa : InstructionSet) (c : Char) (cs : List Char) :
    numberOrWordBytes? isa c cs = some ((numberOrWord isa c cs).measured c cs) := by
  unfold numberOrWordBytes? numberOrWord
  cases scanned : Text.Numeral.scan? (c :: cs) with
  | some n => exact numberBytes?_eq scanned
  | none =>
    by_cases letter : isWordStart c
    · simp only [letter, if_true, measured, take_takeWhile]
    · simp only [letter, Bool.false_eq_true, if_false, runLength_eq]
      rfl

/-- Every cut succeeds, and what is measured in bytes is the lexeme. -/
theorem scanBytes?_eq (isa : InstructionSet) (c : Char) (cs : List Char) :
    scanBytes? isa c cs = some ((scan isa c cs).measured c cs) := by
  unfold scanBytes?
  split
  case h_1 => simp only [scan, measured, List.take_length]
  case h_10 =>
    simp only [scan, stringLiteral]
    cases closingQuote? cs <;> simp only [measured, List.take_length]
  case h_11 => exact characterBytes?_eq cs
  case h_12 =>
    rw [scan.eq_12] <;> first | assumption | exact numberOrWordBytes?_eq isa c cs
  all_goals rfl

/-- A lexeme ends in its line. -/
theorem scan_more_le (isa : InstructionSet) (c : Char) (cs : List Char) : (scan isa c cs).more ≤ cs.length := by
  have run : (invalidRun cs).more ≤ cs.length := (List.takeWhile_prefix _).length_le
  unfold scan
  split
  case h_1 => exact le_rfl
  case h_10 =>
    unfold stringLiteral
    split
    · rename_i closed
      exact (closingQuote?_again closed).1
    · exact le_rfl
  case h_11 =>
    unfold characterLiteral
    split
    · exact run
    · rename_i body found
      have inside := (characterBody?_again found).1.length_le
      rw [List.length_append, List.length_singleton] at inside
      split <;> exact inside
  case h_12 =>
    unfold numberOrWord
    split
    · rename_i n scanned
      have inside := (Text.Numeral.scan?_again scanned).2.1.length_le
      rw [List.length_cons] at inside
      unfold number
      split
      · exact run
      · split <;> exact Nat.sub_le_of_le_add inside
    · split
      · exact (List.takeWhile_prefix _).length_le
      · exact run
  all_goals exact Nat.zero_le _

end Lexeme

theorem tokensFrom_lexeme {isa : InstructionSet} {line column : Nat} {c : Char} {cs : List Char}
    (inked : Text.isBlank c = false) :
    tokensFrom isa line column 0 (c :: cs) =
      ⟨(Lexeme.scan isa c cs).kind, String.ofList (c :: cs.take (Lexeme.scan isa c cs).more),
        (Lexeme.scan isa c cs).value,
        ⟨line, column⟩, 0⟩ ::
      tokensFrom isa line (column + Text.utf8Length (c :: cs.take (Lexeme.scan isa c cs).more)) 0
        (cs.drop (Lexeme.scan isa c cs).more) := by
  have length : (cs.take (Lexeme.scan isa c cs).more).length = (Lexeme.scan isa c cs).more :=
    List.length_take_of_le (Lexeme.scan_more_le isa c cs)
  have skip := @tokensFrom_skip isa line (column + c.utf8Size) (cs.take (Lexeme.scan isa c cs).more)
    (cs.drop (Lexeme.scan isa c cs).more)
  rw [length, List.take_append_drop] at skip
  rw [tokensFrom, if_neg (by simp [inked])]
  dsimp only
  rw [skip, Text.utf8Length_cons, Nat.add_assoc]

/-! ## The loop -/

/-- The state of the reading of a line: the byte that is reached, and the tokens before it. -/
structure Scanning where
  offset : Nat
  out : List Token

/-- A round takes a blank or a lexeme at the byte that is reached, and stops at the end of the line
    or at a cut that fails. -/
def scanningRound (isa : InstructionSet) (line : Nat) (text : List Char) (s : Scanning) :
    Round Scanning (Option (List Token)) :=
  match Text.sliceFrom? s.offset text with
  | none => .stop none
  | some [] => .stop (some s.out)
  | some (c :: cs) =>
    if Text.isBlank c then .again ⟨s.offset + c.utf8Size, s.out⟩
    else match Lexeme.scanBytes? isa c cs with
      | none => .stop none
      | some x => match Text.sliceTo? x.length (c :: cs) with
        | none => .stop none
        | some raw =>
          .again ⟨s.offset + x.length, s.out ++ [⟨x.kind, String.ofList raw, x.value, ⟨line, s.offset + 1⟩, 0⟩]⟩

/-- The state after which the loop has a result: what is left of the line is read behind the tokens so far. -/
def Scanning.due (isa : InstructionSet) (line : Nat) (text : List Char) (s : Scanning) : Option (List Token) :=
  (Text.sliceFrom? s.offset text).map fun rest => s.out ++ tokensFrom isa line (s.offset + 1) 0 rest

variable {isa : InstructionSet} {line : Nat} {text : List Char} {s : Scanning}

theorem scanningRound_again {s' : Scanning} (next : scanningRound isa line text s = .again s') :
    Text.utf8Length text - s'.offset < Text.utf8Length text - s.offset ∧ s'.due isa line text =
    s.due isa line text := by
  unfold scanningRound at next
  split at next
  · cases next
  · cases next
  · rename_i c cs reached
    obtain ⟨front, rfl, offset⟩ := Text.sliceFrom?_eq_some.mp reached
    have size := c.utf8Size_pos
    split at next
    · rename_i blank
      cases next
      have beyond : Text.sliceFrom? (s.offset + c.utf8Size) (front ++ c :: cs) = some cs :=
        Text.sliceFrom?_eq_some.mpr ⟨front ++ [c], by simp, by simp [offset]⟩
      refine ⟨by simp; omega, ?_⟩
      simp only [Scanning.due, reached, beyond, Option.map_some, tokensFrom, blank, if_true, Nat.add_right_comm]
    · rename_i inked
      simp only [Lexeme.scanBytes?_eq, Lexeme.measured, Text.sliceTo?_take] at next
      cases next
      have beyond : Text.sliceFrom? (s.offset + Text.utf8Length (c :: cs.take (Lexeme.scan isa c cs).more))
          (front ++ c :: cs) =
          some (cs.drop (Lexeme.scan isa c cs).more) :=
        Text.sliceFrom?_eq_some.mpr ⟨front ++ c :: cs.take (Lexeme.scan isa c cs).more, by simp, by simp [offset]⟩
      refine ⟨by simp; omega, ?_⟩
      simp only [Scanning.due, reached, beyond, Option.map_some,
        tokensFrom_lexeme (by simpa using inked), List.append_assoc,
        List.singleton_append, Nat.add_right_comm]

theorem scanningRound_stop {result : Option (List Token)} (last : scanningRound isa line text s = .stop result) :
    result = s.due isa line text := by
  unfold scanningRound at last
  split at last
  · rename_i inside
    cases last
    rw [Scanning.due, inside, Option.map_none]
  · rename_i reached
    cases last
    simp [Scanning.due, reached, tokensFrom]
  · rename_i c cs reached
    split at last
    · cases last
    · simp only [Lexeme.scanBytes?_eq, Lexeme.measured, Text.sliceTo?_take] at last
      cases last

/-- The loop over the bytes of a line stops with its tokens, and no cut in it fails. -/
theorem halts_tokenizeLine (isa : InstructionSet) (line : Nat) (text : List Char) :
    Halts (scanningRound isa line text) ⟨0, []⟩ (some (tokenizeLine isa text line)) := by
  have whole : Scanning.due isa line text ⟨0, []⟩ = some (tokenizeLine isa text line) := by
    simp [Scanning.due, Text.sliceFrom?, Text.cut?, tokenizeLine]
  rw [← whole]
  exact halts_of_measure Nat.lt_wfRel.wf (fun s : Scanning => Text.utf8Length text - s.offset)
    (Scanning.due isa line text)
    (fun s s' => scanningRound_again) (fun s result => scanningRound_stop) _

end Bisc
