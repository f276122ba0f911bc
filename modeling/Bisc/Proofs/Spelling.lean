import Bisc.Token.Lexer
import Mathlib

/-!
Spelling and reading. What a lexeme is depends on its own characters only, as long as what follows
does not run on with it; so the text of tokens that are kept apart is read as these tokens again.
-/
namespace Bisc

/-- Nothing that a word or a number could go on with. -/
def Stops (tail : List Char) : Prop := ∀ c, tail.head? = some c → isWordChar c = false

theorem stops_nil : Stops [] := by simp [Stops]
theorem stops_cons {c : Char} {cs : List Char} (stop : isWordChar c = false) : Stops (c :: cs) := by
  intro d here
  cases here
  exact stop

theorem takeWhile_append_stop {p : Char → Bool} {xs tail : List Char} (all : ∀ c ∈ xs, p c)
    (stop : ∀ c, tail.head? = some c → p c = false) : (xs ++ tail).takeWhile p = xs := by
  rw [List.takeWhile_append_of_pos all]
  cases tail with
  | nil => simp
  | cons c cs => simp [stop c rfl]

theorem take_takeWhile (p : Char → Bool) (cs : List Char) :
    cs.take (cs.takeWhile p).length = cs.takeWhile p :=
  (List.prefix_iff_eq_take.mp (List.takeWhile_prefix p)).symm

private theorem takeWhile_all (p : Char → Bool) (cs : List Char) : ∀ c ∈ cs.takeWhile p, p c := by
  induction cs with
  | nil => simp
  | cons c cs ih =>
    rw [List.takeWhile_cons]
    split
    · simpa [*] using ih
    · simp

/-! ## Numerals -/

theorem isWordChar_of_isDigit {c : Char} (digit : c.isDigit) : isWordChar c := by
  simp [isWordChar, Char.isAlphanum, digit]
theorem isWordChar_of_isHexDigit {c : Char} (digit : Text.isHexDigit c) : isWordChar c := by
  simp only [Text.isHexDigit, Bool.or_eq_true, Bool.and_eq_true, decide_eq_true_eq] at digit
  simp only [isWordChar, Char.isAlphanum, Char.isAlpha, Char.isUpper, Char.isLower, Bool.or_eq_true, Bool.and_eq_true,
    decide_eq_true_eq]
  rcases digit with (digit | ⟨low, high⟩) | ⟨low, high⟩
  · simp [digit]
  · have up : c ≤ 'z' := Char.le_trans high (by decide)
    simp_all [Char.le_def]
  · have up : c ≤ 'Z' := Char.le_trans high (by decide)
    simp_all [Char.le_def]
theorem isWordChar_of_isBinaryDigit {c : Char} (digit : Text.isBinaryDigit c) : isWordChar c := by
  simp only [Text.isBinaryDigit, Bool.or_eq_true, beq_iff_eq] at digit
  rcases digit with rfl | rfl <;> decide

namespace Text.Numeral

variable {negative : Bool} {letters : List Char} {base : Nat} {isDigit : Char → Bool} {cs : List Char} {n : Numeral}

private theorem marked?_again (word : ∀ c, isDigit c → isWordChar c)
    (found : marked? negative letters base isDigit cs = some n) :
    n.negative = negative ∧ n.digits ≠ [] ∧ n.mark ++ n.digits <+: cs ∧ (∃ letter ∈ letters, n.mark = ['0', letter]) ∧
      ∀ tail, Stops tail → marked? negative letters base isDigit (n.mark ++ n.digits ++ tail) = some n := by
  match cs, found with
  | zero :: letter :: cs, found =>
    simp only [marked?] at found
    split at found
    · rename_i shape
      cases found
      refine ⟨rfl, shape.2.2, ?_, ⟨letter, shape.2.1, by rw [shape.1]⟩, fun tail stops => ?_⟩
      · simpa using List.takeWhile_prefix isDigit
      · have digits : (cs.takeWhile isDigit ++ tail).takeWhile isDigit = cs.takeWhile isDigit :=
          takeWhile_append_stop (takeWhile_all isDigit cs) fun c here => by
            have stop := stops c here
            cases digit : isDigit c with
            | false => rfl
            | true => simp [word c digit] at stop
        simp [marked?, digits, shape]
    · cases found

private theorem marked?_eq_none (second : ∀ c, cs[1]? = some c → c ∉ letters) :
    marked? negative letters base isDigit cs = none := by
  match cs, second with
  | [], _ => rfl
  | [_], _ => rfl
  | zero :: letter :: cs, second => simp [marked?, second letter rfl]

/-- The second character of decimal digits and what follows is no mark. -/
private theorem second_of_digits {digits tail : List Char} (filled : digits ≠ []) (all : ∀ c ∈ digits, c.isDigit)
    (stops : Stops tail) {c : Char} (second : (digits ++ tail)[1]? = some c) :
    c.isDigit ∨ isWordChar c = false := by
  match digits, filled with
  | [d], _ => exact .inr (stops c (by simpa [List.head?_eq_getElem?] using second))
  | d :: e :: digits, _ =>
    simp only [List.cons_append, List.getElem?_cons_succ, List.getElem?_cons_zero, Option.some.injEq] at second
    exact .inl (second ▸ all e (by simp))

private theorem unsigned?_of_hex (hex : marked? negative ['x', 'X'] 16 isHexDigit cs = some n) :
    unsigned? negative cs = some n := by
  rw [unsigned?, hex]
  rfl
private theorem unsigned?_of_binary (hex : marked? negative ['x', 'X'] 16 isHexDigit cs = none)
    (binary : marked? negative ['b', 'B'] 2 isBinaryDigit cs = some n) : unsigned? negative cs = some n := by
  rw [unsigned?, hex, binary]
  rfl
private theorem unsigned?_of_decimal (hex : marked? negative ['x', 'X'] 16 isHexDigit cs = none)
    (binary : marked? negative ['b', 'B'] 2 isBinaryDigit cs = none) :
    unsigned? negative cs = decimal? negative cs := by
  rw [unsigned?, hex, binary]
  rfl

theorem decimal?_again (found : decimal? negative cs = some n) :
    n.negative = negative ∧ n.digits ≠ [] ∧ n.mark ++ n.digits <+: cs ∧
      ∀ tail, Stops tail → unsigned? negative (n.mark ++ n.digits ++ tail) = some n := by
  simp only [decimal?] at found
  split at found
  · rename_i filled
    cases found
    refine ⟨rfl, filled, List.takeWhile_prefix _, fun tail stops => ?_⟩
    have second := fun c => second_of_digits filled (takeWhile_all Char.isDigit cs) stops (c := c)
    have digits : (cs.takeWhile Char.isDigit ++ tail).takeWhile Char.isDigit = cs.takeWhile Char.isDigit :=
      takeWhile_append_stop (takeWhile_all Char.isDigit cs) fun c here => by
        have stop := stops c here
        cases digit : c.isDigit with
        | false => rfl
        | true => simp [isWordChar_of_isDigit digit] at stop
    have noMark (letters : List Char) (base : Nat) (isDigit : Char → Bool)
        (marks : letters.all fun c => !c.isDigit && isWordChar c) :
        marked? negative letters base isDigit (cs.takeWhile Char.isDigit ++ tail) = none :=
      marked?_eq_none fun c here mark => by
        have := List.all_eq_true.mp marks c mark
        rcases second c here with digit | other <;> simp_all
    have hex := noMark ['x', 'X'] 16 isHexDigit (by decide)
    have binary := noMark ['b', 'B'] 2 isBinaryDigit (by decide)
    simp [unsigned?_of_decimal hex binary, decimal?, digits, filled]
  · cases found

/-- A numeral is read off its own text whatever follows, unless that runs on. -/
private theorem unsigned?_again (found : unsigned? negative cs = some n) :
    n.negative = negative ∧ n.digits ≠ [] ∧ n.mark ++ n.digits <+: cs ∧
      ∀ tail, Stops tail → unsigned? negative (n.mark ++ n.digits ++ tail) = some n := by
  cases hex : marked? negative ['x', 'X'] 16 isHexDigit cs with
  | some m =>
    rw [unsigned?_of_hex hex] at found
    cases found
    obtain ⟨sign, filled, front, -, again⟩ := marked?_again (fun _ => isWordChar_of_isHexDigit) hex
    exact ⟨sign, filled, front, fun tail stops => unsigned?_of_hex (again tail stops)⟩
  | none =>
    cases binary : marked? negative ['b', 'B'] 2 isBinaryDigit cs with
    | some m =>
      rw [unsigned?_of_binary hex binary] at found
      cases found
      obtain ⟨sign, filled, front, ⟨letter, mark, shape⟩, again⟩ :=
        marked?_again (fun _ => isWordChar_of_isBinaryDigit) binary
      refine ⟨sign, filled, front, fun tail stops => unsigned?_of_binary ?_ (again tail stops)⟩
      refine marked?_eq_none fun c second => ?_
      have same : letter = c := by simpa [shape] using second
      revert mark
      rw [same]
      simp only [List.mem_cons, List.not_mem_nil, or_false]
      rintro (rfl | rfl) <;> decide
    | none =>
      rw [unsigned?_of_decimal hex binary] at found
      exact decimal?_again found

/-- A numeral with its sign is the front of a text, and is read off that front again. -/
theorem scan?_again (found : scan? cs = some n) :
    n.text ≠ [] ∧ n.text <+: cs ∧ ∀ tail, Stops tail → scan? (n.text ++ tail) = some n := by
  unfold scan? at found
  split at found
  · obtain ⟨sign, filled, front, again⟩ := unsigned?_again found
    have spelled : n.text = '-' :: (n.mark ++ n.digits) := by simp [text, sign]
    rw [spelled]
    exact ⟨by simp, by simpa using front, fun tail stops => by simpa [scan?] using again tail stops⟩
  · rename_i unsigned
    obtain ⟨sign, filled, front, again⟩ := unsigned?_again found
    have spelled : n.text = n.mark ++ n.digits := by simp [text, sign]
    rw [spelled]
    refine ⟨by simp [filled], front, fun tail stops => ?_⟩
    obtain ⟨rest, rfl⟩ := front
    match shape : n.mark ++ n.digits with
    | [] => simp [filled] at shape
    | c :: word =>
      have plain : c ≠ '-' := by
        rintro rfl
        exact unsigned (word ++ rest) (by simp [shape])
      have again := again tail stops
      rw [shape] at again
      rw [List.cons_append, scan?.eq_2 _ (by simp [plain])]
      exact again

/-- No numeral begins with a letter. -/
theorem scan?_of_isWordStart {c : Char} (letter : isWordStart c) (cs : List Char) : scan? (c :: cs) = none := by
  have sign : c ≠ '-' := by
    rintro rfl
    revert letter
    decide
  have digit : c.isDigit = false := by
    cases digit : c.isDigit with
    | false => rfl
    | true =>
      simp only [isWordStart, Char.isAlpha, Char.isUpper, Char.isLower, Char.isDigit, Bool.or_eq_true,
        Bool.and_eq_true, decide_eq_true_eq, beq_iff_eq, UInt32.le_iff_toNat_le, ge_iff_le] at letter digit
      rcases letter with (letter | letter) | rfl
      · have : '9'.val.toNat < 'A'.val.toNat := by decide
        omega
      · have : '9'.val.toNat < 'a'.val.toNat := by decide
        omega
      · exact absurd digit (by decide)
  have zero : c ≠ '0' := by
    rintro rfl
    revert digit
    decide
  have noMark (letters : List Char) (base : Nat) (isDigit : Char → Bool) :
      marked? false letters base isDigit (c :: cs) = none := by
    cases cs <;> simp [marked?, zero]
  rw [scan?.eq_2 _ (by simp [sign]), unsigned?_of_decimal (noMark ..) (noMark ..)]
  simp [decimal?, digit]

end Text.Numeral

/-! ## Lexemes -/

/-- Kinds of tokens that a character of a word could go on with. -/
def TokenKind.runsOn : TokenKind → Bool
  | .opcode | .pseudoOp | .register | .immediate | .identifier => true
  | _ => false

theorem TokenKind.runsOn_of_isWord {kind : TokenKind} (word : kind.isWord) : kind.runsOn := by
  cases kind <;> first | rfl | cases word

/-- Kinds of tokens that mean something and stand on a line. -/
def TokenKind.isCode : TokenKind → Bool
  | .comment | .lineSeparator | .invalid => false
  | _ => true

namespace Lexeme

variable {isa : InstructionSet} {c : Char} {cs : List Char}

/-- A word is a pseudo-instruction, a real one, a register or an identifier. -/
theorem classify_cases (isa : InstructionSet) (word : List Char) : classify isa word = (.pseudoOp, none) ∨
    (∃ op : Opcode, classify isa word = (.opcode, some op.code.toUInt32)) ∨
    (∃ index, isa.register? (lowercase (String.ofList word)) = some index ∧
      classify isa word = (.register, some index.toUInt32)) ∨
    classify isa word = (.identifier, none) := by
  unfold classify
  dsimp only
  split
  · exact .inl rfl
  · split
    · rename_i op _
      exact .inr (.inl ⟨op, rfl⟩)
    · split
      · rename_i index found
        exact .inr (.inr (.inl ⟨index, found, rfl⟩))
      · exact .inr (.inr (.inr rfl))

theorem classify_isWord (isa : InstructionSet) (word : List Char) : (classify isa word).1.isWord := by
  rcases classify_cases isa word with pseudo | ⟨op, real⟩ | ⟨index, -, register⟩ | symbol
  all_goals
    simp only [*]
    rfl

private theorem number_again (isa : InstructionSet) {n : Text.Numeral}
    (scanned : Text.Numeral.scan? (c :: cs) = some n)
    (valid : (number n c cs).kind ≠ .invalid) :
    (number n c cs).more ≤ cs.length ∧ ∀ tail, Stops tail →
      numberOrWord isa c (cs.take (number n c cs).more ++ tail) = number n c cs := by
  obtain ⟨filled, front, again⟩ := Text.Numeral.scan?_again scanned
  obtain ⟨d, digits, spelled⟩ := List.exists_cons_of_ne_nil filled
  obtain ⟨rest, split⟩ := front
  rw [spelled, List.cons_append, List.cons.injEq] at split
  obtain ⟨rfl, rfl⟩ := split
  -- On a text that begins with the numeral and does not run on, the lexeme is the numeral's word.
  have onText (w : UInt32) (word : Text.number? n.text = some w) (tail : List Char) (stops : Stops tail) :
      number n d (digits ++ tail) = ⟨.immediate, digits.length, some w⟩ := by
    unfold number
    have after : (d :: (digits ++ tail)).drop n.text.length = tail := by simp [spelled]
    rw [after, word]
    cases tail with
    | nil => simp [spelled]
    | cons c cs => simp [stops c rfl, spelled]
  have whole : ∃ w, Text.number? n.text = some w ∧
      number n d (digits ++ rest) = ⟨.immediate, digits.length, some w⟩ := by
    unfold number at valid ⊢
    split at valid
    · exact absurd rfl valid
    · cases word : Text.number? n.text with
      | some w => exact ⟨w, rfl, by simp [spelled]⟩
      | none => simp [word] at valid
  obtain ⟨w, word, lexeme⟩ := whole
  rw [lexeme]
  refine ⟨by simp, fun tail stops => ?_⟩
  have scanned := again tail stops
  rw [spelled, List.cons_append] at scanned
  rw [List.take_left, numberOrWord, scanned]
  exact onText w word tail stops

private theorem word_again (letter : isWordStart c) :
    ∀ tail, Stops tail → numberOrWord isa c (cs.takeWhile isWordChar ++ tail) = numberOrWord isa c cs := by
  intro tail stops
  have same : (cs.takeWhile isWordChar ++ tail).takeWhile isWordChar = cs.takeWhile isWordChar :=
    takeWhile_append_stop (takeWhile_all isWordChar cs) stops
  simp only [numberOrWord, Text.Numeral.scan?_of_isWordStart letter, letter, if_true, same]

private theorem numberOrWord_again (valid : (numberOrWord isa c cs).kind ≠ .invalid) :
    (numberOrWord isa c cs).more ≤ cs.length ∧ (numberOrWord isa c cs).kind.runsOn ∧ ∀ tail, Stops tail →
      numberOrWord isa c (cs.take (numberOrWord isa c cs).more ++ tail) = numberOrWord isa c cs := by
  cases scanned : Text.Numeral.scan? (c :: cs) with
  | some n =>
    have same : numberOrWord isa c cs = number n c cs := by rw [numberOrWord, scanned]
    rw [same] at valid ⊢
    obtain ⟨inside, again⟩ := number_again isa scanned valid
    refine ⟨inside, ?_, again⟩
    revert valid
    unfold number
    split
    · simp [invalidRun]
    · split <;> simp [TokenKind.runsOn]
  | none =>
    by_cases letter : isWordStart c
    · have same : (numberOrWord isa c cs).more = (cs.takeWhile isWordChar).length := by
        simp [numberOrWord, scanned, letter]
      rw [same, take_takeWhile]
      refine ⟨(List.takeWhile_prefix _).length_le, ?_, word_again letter⟩
      simp only [numberOrWord, scanned, letter, if_true]
      exact TokenKind.runsOn_of_isWord (classify_isWord ..)
    · simp [numberOrWord, scanned, letter, invalidRun] at valid

theorem closingQuote?_again {n : Nat} (found : closingQuote? cs = some n) :
    n ≤ cs.length ∧ ∀ tail, closingQuote? (cs.take n ++ tail) = some n := by
  induction cs using closingQuote?.induct generalizing n with
  | case1 => simp [closingQuote?] at found
  | case2 cs =>
    simp only [closingQuote?, Option.some.injEq] at found
    subst found
    exact ⟨by simp, fun tail => by simp [closingQuote?]⟩
  | case3 => simp [closingQuote?] at found
  | case4 cs => simp [closingQuote?] at found
  | case5 c cs line ih =>
    simp only [closingQuote?, line, if_false] at found
    obtain ⟨m, inner, rfl⟩ := Option.map_eq_some_iff.mp found
    obtain ⟨inside, again⟩ := ih inner
    refine ⟨by simp; omega, fun tail => ?_⟩
    simp [closingQuote?, line, again tail]
  | case6 c cs quote single escape ih =>
    rw [closingQuote?.eq_5 _ _ quote single escape] at found
    obtain ⟨m, inner, rfl⟩ := Option.map_eq_some_iff.mp found
    obtain ⟨inside, again⟩ := ih inner
    have plain : c ≠ '\\' := by
      rintro rfl
      cases cs with
      | nil => exact single rfl rfl
      | cons d ds => exact escape d ds rfl rfl
    refine ⟨by simp; omega, fun tail => ?_⟩
    rw [List.take_succ_cons, List.cons_append, closingQuote?.eq_5 _ _ quote (by simp [plain]) (by simp [plain]),
      again tail]
    rfl

theorem characterBody?_again {body : List Char} (found : characterBody? cs = some body) :
    body ++ ['\x27'] <+: cs ∧ ∀ tail, characterBody? (body ++ '\x27' :: tail) = some body := by
  unfold characterBody? at found
  split at found
  · split at found
    · cases found
    · rename_i c rest line
      cases found
      exact ⟨⟨rest, rfl⟩, fun tail => by simp [characterBody?, line]⟩
  · split at found
    · cases found
    · rename_i c rest _ plain
      cases found
      have escape : c ≠ '\\' := fun same => plain (.inr same)
      refine ⟨⟨rest, rfl⟩, fun tail => ?_⟩
      rw [List.singleton_append, characterBody?.eq_2 _ _ (by simp [escape]), if_neg plain]
  · cases found

private theorem stringLiteral_again (valid : (stringLiteral cs).kind ≠ .invalid) :
    (stringLiteral cs).more ≤ cs.length ∧ ∀ tail,
      stringLiteral (cs.take (stringLiteral cs).more ++ tail) = stringLiteral cs := by
  unfold stringLiteral at valid ⊢
  cases closed : closingQuote? cs with
  | none => simp [closed] at valid
  | some n =>
    obtain ⟨inside, again⟩ := closingQuote?_again closed
    exact ⟨inside, fun tail => by simp [again tail]⟩

private theorem characterLiteral_again (valid : (characterLiteral cs).kind ≠ .invalid) :
    (characterLiteral cs).more ≤ cs.length ∧ ∀ tail,
      characterLiteral (cs.take (characterLiteral cs).more ++ tail) = characterLiteral cs := by
  cases found : characterBody? cs with
  | none => simp [characterLiteral, found, invalidRun] at valid
  | some body =>
    obtain ⟨⟨rest, rfl⟩, again⟩ := characterBody?_again found
    have length : (characterLiteral (body ++ ['\x27'] ++ rest)).more = body.length + 1 := by
      unfold characterLiteral
      rw [found]
      dsimp only
      split <;> rfl
    rw [length]
    refine ⟨by simp, fun tail => ?_⟩
    have front : (body ++ ['\x27'] ++ rest).take (body.length + 1) = body ++ ['\x27'] := by
      rw [List.take_left']
      simp
    rw [front, List.append_assoc, List.singleton_append]
    simp only [characterLiteral, again, found]

/-- A lexeme that means something is the same whatever follows it, unless that runs on with it. -/
theorem scan_again {x : Lexeme} (scanned : scan isa c cs = x) (code : x.kind.isCode) :
    x.more ≤ cs.length ∧ ∀ tail, (x.kind.runsOn → Stops tail) → scan isa c (cs.take x.more ++ tail) = x := by
  have valid : x.kind ≠ .invalid := by
    intro invalid
    simp [invalid, TokenKind.isCode] at code
  unfold scan at scanned
  split at scanned
  case h_1 =>
    subst scanned
    cases code
  case h_10 =>
    subst scanned
    obtain ⟨inside, again⟩ := stringLiteral_again valid
    exact ⟨inside, fun tail _ => again tail⟩
  case h_11 =>
    subst scanned
    obtain ⟨inside, again⟩ := characterLiteral_again valid
    exact ⟨inside, fun tail _ => again tail⟩
  case h_12 =>
    subst scanned
    obtain ⟨inside, runs, again⟩ := numberOrWord_again valid
    refine ⟨inside, fun tail stops => ?_⟩
    rw [scan.eq_12] <;> first | assumption | exact again tail (stops runs)
  all_goals
    subst scanned
    exact ⟨Nat.zero_le _, fun _ _ => rfl⟩

private theorem stringLiteral_kind (cs : List Char) :
    (stringLiteral cs).kind = .stringLiteral ∨ (stringLiteral cs).kind = .invalid := by
  unfold stringLiteral
  split <;> simp

private theorem characterLiteral_kind (cs : List Char) :
    (characterLiteral cs).kind = .immediate ∨ (characterLiteral cs).kind = .invalid := by
  unfold characterLiteral
  split
  · exact .inr rfl
  · split <;> simp

private theorem number_kind (n : Text.Numeral) (c : Char) (cs : List Char) :
    (number n c cs).kind = .immediate ∨ (number n c cs).kind = .invalid := by
  unfold number
  split
  · exact .inr rfl
  · split <;> simp

/-- A comment takes what is left of its line, and a word all characters of words that follow its first. -/
theorem scan_cases (isa : InstructionSet) (c : Char) (cs : List Char) :
    (c = ';' ∧ scan isa c cs = ⟨.comment, cs.length, none⟩) ∨
    (isWordStart c ∧ scan isa c cs =
      ⟨(classify isa (c :: cs.takeWhile isWordChar)).1, (cs.takeWhile isWordChar).length,
        (classify isa (c :: cs.takeWhile isWordChar)).2⟩) ∨
    ((scan isa c cs).kind.isWord = false ∧ (scan isa c cs).kind ≠ .comment ∧
      (scan isa c cs).kind ≠ .lineSeparator) := by
  unfold scan
  split
  case h_1 => exact .inl ⟨rfl, rfl⟩
  case h_10 => rcases stringLiteral_kind cs with kind | kind <;> simp [kind, TokenKind.isWord]
  case h_11 => rcases characterLiteral_kind cs with kind | kind <;> simp [kind, TokenKind.isWord]
  case h_12 =>
    unfold numberOrWord
    split
    · rename_i n _
      rcases number_kind n c cs with kind | kind <;> simp [kind, TokenKind.isWord]
    · split
      · rename_i letter
        exact .inr (.inl ⟨letter, rfl⟩)
      · simp [invalidRun, TokenKind.isWord]
  all_goals simp [single, TokenKind.isWord]

/-- A word begins with a letter and is what its characters are classified as. -/
theorem scan_word (word : (scan isa c cs).kind.isWord) : isWordStart c ∧ scan isa c cs =
    ⟨(classify isa (c :: cs.takeWhile isWordChar)).1, (cs.takeWhile isWordChar).length,
      (classify isa (c :: cs.takeWhile isWordChar)).2⟩ := by
  rcases scan_cases isa c cs with ⟨-, comment⟩ | found | ⟨other, -⟩
  · rw [comment] at word
    cases word
  · exact found
  · rw [other] at word
    cases word

/-- A string literal begins with a quote and goes on to the one that closes it. -/
theorem scan_stringLiteral (literal : (scan isa c cs).kind = .stringLiteral) :
    c = '"' ∧ closingQuote? cs = some (scan isa c cs).more := by
  unfold scan at literal ⊢
  split at literal
  case h_10 =>
    refine ⟨rfl, ?_⟩
    unfold stringLiteral at literal ⊢
    cases closed : closingQuote? cs with
    | none => simp [closed] at literal
    | some n => rfl
  case h_11 => rcases characterLiteral_kind cs with kind | kind <;> simp [kind] at literal
  case h_12 =>
    unfold numberOrWord at literal
    split at literal
    · rename_i n _
      rcases number_kind n c cs with kind | kind <;> simp [kind] at literal
    · split at literal
      · have word := classify_isWord isa (c :: cs.takeWhile isWordChar)
        change (classify isa (c :: cs.takeWhile isWordChar)).1 = .stringLiteral at literal
        rw [literal] at word
        cases word
      · simp [invalidRun] at literal
  all_goals simp [single] at literal

end Lexeme

/-! ## Tokens -/

/-- The token is what its spelling by itself is read as. -/
def Token.spelled (isa : InstructionSet) (t : Token) : Bool :=
  match t.raw.toList with
  | [] => false
  | c :: cs => !Text.isBlank c && Lexeme.scan isa c cs = ⟨t.kind, cs.length, t.value⟩

/-- Every token that means something is spelled as it is read. -/
def Token.WellSpelled (isa : InstructionSet) (t : Token) : Prop := t.kind.isCode → t.spelled isa

variable {isa : InstructionSet}

theorem Token.spelled_iff {t : Token} : t.spelled isa ↔ ∃ c cs, t.raw.toList = c :: cs ∧ Text.isBlank c = false ∧
    Lexeme.scan isa c cs = ⟨t.kind, cs.length, t.value⟩ := by
  unfold spelled
  cases t.raw.toList with
  | nil => simp
  | cons c cs => simp [and_assoc]

theorem Token.isSeparator_of_isCode {t : Token} (code : t.kind.isCode) : t.isSeparator = false := by
  cases kind : t.kind <;> simp_all [isSeparator, TokenKind.isCode]

namespace Token

variable (pos : Position) (depth : Nat) (t : Token)

@[simp] theorem retag_kind : (t.retag pos depth).kind = t.kind := rfl
@[simp] theorem retag_name : (t.retag pos depth).name = t.name := rfl
@[simp] theorem retag_number : (t.retag pos depth).number = t.number := rfl
@[simp] theorem retag_isSeparator : (t.retag pos depth).isSeparator = t.isSeparator := rfl

end Token

theorem Token.wellSpelled_retag {t : Token} (pos : Position) (depth : Nat) (spelled : t.WellSpelled isa) :
    (t.retag pos depth).WellSpelled isa := spelled

/-- A word is spelled with characters of words, which are classified as what it is. -/
theorem Token.classified {t : Token} (spelled : t.spelled isa) (word : t.isWord) :
    (∀ c ∈ t.raw.toList, isWordChar c) ∧ Lexeme.classify isa t.raw.toList = (t.kind, t.value) := by
  obtain ⟨c, cs, raw, -, scanned⟩ := spelled_iff.mp spelled
  have ownKind : (Lexeme.scan isa c cs).kind.isWord := by
    rw [scanned]
    exact word
  obtain ⟨letter, classified⟩ := Lexeme.scan_word ownKind
  rw [scanned, Lexeme.mk.injEq] at classified
  obtain ⟨kind, length, value⟩ := classified
  have whole : cs.takeWhile isWordChar = cs := (List.takeWhile_prefix isWordChar).eq_of_length length.symm
  have first : isWordChar c := by
    simp only [isWordStart, Bool.or_eq_true, beq_iff_eq] at letter
    rcases letter with letter | rfl
    · simp [isWordChar, Char.isAlphanum, letter]
    · decide
  rw [whole] at kind value
  rw [raw]
  exact ⟨List.forall_mem_cons.mpr ⟨first, whole ▸ takeWhile_all isWordChar cs⟩, by rw [kind, value]⟩

/-- A register is spelled with the characters of a word. -/
theorem Token.isWordChar_of_register {t : Token} (spelled : t.spelled isa) (register : t.kind = .register) :
    ∀ c ∈ t.raw.toList, isWordChar c :=
  (classified spelled (by simp [isWord, register, TokenKind.isWord])).1

theorem tokensFrom_skip (line column : Nat) (word tail : List Char) :
    tokensFrom isa line column word.length (word ++ tail) =
      tokensFrom isa line (column + Text.utf8Length word) 0 tail := by
  induction word generalizing column with
  | nil => rfl
  | cons c cs ih =>
    rw [List.length_cons, List.cons_append, tokensFrom, ih]
    simp [Text.utf8Length, Nat.add_assoc]

/-- A token that does not run on with what follows is read before it. -/
theorem tokensFrom_spelled {t : Token} {text : List Char} (spelled : t.spelled isa) (code : t.kind.isCode)
    (stops : t.kind.runsOn → Stops text) (line column : Nat) : tokensFrom isa line column 0 (t.raw.toList ++ text) =
      t.retag ⟨line, column⟩ 0 :: tokensFrom isa line (column + Text.utf8Length t.raw.toList) 0 text := by
  obtain ⟨c, cs, raw, blank, scanned⟩ := Token.spelled_iff.mp spelled
  have again := (Lexeme.scan_again scanned code).2 text stops
  rw [List.take_length] at again
  have same : String.ofList (c :: (cs ++ text).take cs.length) = t.raw := by
    rw [List.take_left, ← raw, String.ofList_toList]
  rw [raw, List.cons_append, tokensFrom, if_neg (by simp [blank]), again]
  simp only [tokensFrom_skip, same, Text.utf8Length, List.foldr_cons, Nat.add_assoc]
  rfl

/-- A token of a text is the lexeme at its column, where there is no blank. -/
theorem lexeme_of_tokensFrom {line column skip : Nat} {text : List Char} {t : Token}
    (member : t ∈ tokensFrom isa line column skip text) :
    ∃ before c cs, text = before ++ c :: cs ∧ Text.isBlank c = false ∧
      t = ⟨(Lexeme.scan isa c cs).kind, String.ofList (c :: cs.take (Lexeme.scan isa c cs).more),
        (Lexeme.scan isa c cs).value,
        ⟨line, column + Text.utf8Length before⟩, 0⟩ := by
  fun_induction tokensFrom isa line column skip text with
  | case1 => simp at member
  | case2 column skip d ds ih =>
    obtain ⟨before, c, cs, rfl, inked, rfl⟩ := ih member
    exact ⟨d :: before, c, cs, rfl, inked, by simp [Text.utf8Length, Nat.add_assoc]⟩
  | case3 column d ds blank ih =>
    obtain ⟨before, c, cs, rfl, inked, rfl⟩ := ih member
    exact ⟨d :: before, c, cs, rfl, inked, by simp [Text.utf8Length, Nat.add_assoc]⟩
  | case4 column d ds inked x ih =>
    rcases List.mem_cons.mp member with rfl | later
    · exact ⟨[], d, ds, rfl, by simpa using inked, rfl⟩
    · obtain ⟨before, c, cs, rfl, inked, rfl⟩ := ih later
      exact ⟨d :: before, c, cs, rfl, inked, by simp [Text.utf8Length, Nat.add_assoc]⟩

/-- The token is the lexeme at a character of the text that is no blank, at a column from `column` on. -/
def Token.IsLexemeOf (isa : InstructionSet) (line column : Nat) (text : List Char) (t : Token) : Prop :=
  ∃ c cs x column', c :: cs <:+ text ∧ Text.isBlank c = false ∧ Lexeme.scan isa c cs = x ∧ column ≤ column' ∧
    t = ⟨x.kind, String.ofList (c :: cs.take x.more), x.value, ⟨line, column'⟩, 0⟩

theorem isLexemeOf_of_tokensFrom {line column skip : Nat} {text : List Char} {t : Token}
    (member : t ∈ tokensFrom isa line column skip text) : t.IsLexemeOf isa line column text := by
  obtain ⟨before, c, cs, rfl, inked, rfl⟩ := lexeme_of_tokensFrom member
  exact ⟨c, cs, _, _, ⟨before, rfl⟩, inked, rfl, Nat.le_add_right .., rfl⟩

theorem wellSpelled_of_tokensFrom {line column skip : Nat} {text : List Char} {t : Token}
    (member : t ∈ tokensFrom isa line column skip text) : t.WellSpelled isa := by
  obtain ⟨c, cs, x, column', -, inked, scanned, -, rfl⟩ := isLexemeOf_of_tokensFrom member
  intro code
  obtain ⟨inside, again⟩ := Lexeme.scan_again scanned code
  refine Token.spelled_iff.mpr ⟨c, cs.take x.more, by simp, inked, ?_⟩
  have alone := again [] fun _ => stops_nil
  rw [List.append_nil] at alone
  rw [alone, List.length_take_of_le inside]

/-- A token of consecutive lines is in one of them, or is the separator after one. -/
theorem mem_tokenizeLines {line : Nat} {texts : List (List Char)} {t : Token}
    (member : t ∈ tokenizeLines isa line texts) :
    ∃ line' text, line ≤ line' ∧ text ∈ texts ∧
      (t ∈ tokenizeLine isa text line' ∨ t = Token.separator ⟨line', Text.utf8Length text + 1⟩ 0) := by
  induction texts generalizing line with
  | nil => simp [tokenizeLines] at member
  | cons text texts ih =>
    cases texts with
    | nil => exact ⟨line, text, le_rfl, List.mem_cons_self, .inl (by simpa [tokenizeLines] using member)⟩
    | cons next texts =>
      simp only [tokenizeLines, List.mem_append, List.mem_cons] at member
      rcases member with here | ends | later
      · exact ⟨line, text, le_rfl, List.mem_cons_self, .inl here⟩
      · exact ⟨line, text, le_rfl, List.mem_cons_self, .inr ends⟩
      · have later' : t ∈ tokenizeLines isa (line + 1) (next :: texts) := by simpa [tokenizeLines] using later
        obtain ⟨line', text', after, listed, found⟩ := ih later'
        exact ⟨line', text', by omega, List.mem_cons_of_mem _ listed, found⟩

/-- A token of a source is in one of its lines, or is the separator after one. -/
theorem mem_tokenize {source : String} {t : Token} (member : t ∈ tokenize isa source) :
    ∃ line text, 1 ≤ line ∧ (t ∈ tokenizeLine isa text line ∨
      t = Token.separator ⟨line, Text.utf8Length text + 1⟩ 0) := by
  obtain ⟨line, text, after, -, found⟩ := mem_tokenizeLines member
  exact ⟨line, text, after, found⟩

theorem wellSpelled_of_tokenize {source : String} {t : Token} (member : t ∈ tokenize isa source) :
    t.WellSpelled isa := by
  obtain ⟨line, text, -, inside | rfl⟩ := mem_tokenize member
  · exact wellSpelled_of_tokensFrom inside
  · intro code
    cases code

/-- The text is read as these tokens, wherever it stands. -/
def Reads (isa : InstructionSet) (text : List Char) (ts : List Token) : Prop :=
  ∀ line column pos depth,
    (tokensFrom isa line column 0 text).map (Token.retag pos depth) = ts.map (Token.retag pos depth)

namespace Reads

theorem nil : Reads isa [] [] := fun _ _ _ _ => rfl

theorem blank {c : Char} {text : List Char} {ts : List Token} (blank : Text.isBlank c) (reads : Reads isa text ts) :
    Reads isa (c :: text) ts := by
  intro line column pos depth
  rw [tokensFrom, if_pos blank]
  exact reads ..

/-- A token is read before a text that does not run on with it. -/
theorem token {t : Token} {text : List Char} {ts : List Token} (spelled : t.spelled isa) (code : t.kind.isCode)
    (stops : t.kind.runsOn → Stops text) (reads : Reads isa text ts) :
    Reads isa (t.raw.toList ++ text) (t :: ts) := by
  intro line column pos depth
  rw [tokensFrom_spelled spelled code stops, List.map_cons, List.map_cons, reads]
  rfl

/-- A blank stands between the tokens of a line. -/
theorem stops_renderFrom {ts : List Token} (inline : ∀ t ∈ ts, t.isSeparator = false) {text : List Char}
    (stops : Stops text) :
    Stops ((Token.renderFrom false ts).toList ++ text) := by
  cases ts with
  | nil => exact stops
  | cons t ts =>
    simp only [Token.renderFrom, inline t List.mem_cons_self, Bool.false_eq_true, if_false, String.toList_append]
    exact stops_cons (by decide)

/-- The text of tokens of a line is read as these tokens, before a text that does not run on. -/
theorem render_append {ts us : List Token} {text : List Char} (code : ∀ t ∈ ts, t.kind.isCode)
    (spelled : ∀ t ∈ ts, t.spelled isa) (stops : Stops text) (reads : Reads isa text us) :
    Reads isa ((Token.render ts).toList ++ text) (ts ++ us) := by
  have rendered (atStart : Bool) : Reads isa ((Token.renderFrom atStart ts).toList ++ text) (ts ++ us) := by
    induction ts generalizing atStart with
    | nil => exact reads
    | cons t ts ih =>
      have inline := Token.isSeparator_of_isCode (code t (by simp))
      have rest := fun u member => code u (List.mem_cons_of_mem _ member)
      have stop := stops_renderFrom (fun u member => Token.isSeparator_of_isCode (rest u member)) stops
      have first := token (spelled t (by simp)) (code t (by simp)) (fun _ => stop)
        (ih rest (fun u member => spelled u (List.mem_cons_of_mem _ member)) false)
      simp only [Token.renderFrom, inline, Bool.false_eq_true, if_false, String.toList_append, List.append_assoc]
      cases atStart with
      | true => exact first
      | false => exact blank (by decide) first
  exact rendered true

end Reads

end Bisc
