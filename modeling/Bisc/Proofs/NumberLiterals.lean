import Bisc.Proofs.Comments
import Bisc.Proofs.Writing

/-!
Numbers in a source. An integer is written with a sign or none, the mark of its base and digits, as
many as one likes. Alone on a line it is one token, and that is the number of 32 bits that the
integer is congruent to, if the integer is one of 32 bits with or without a sign.
-/
namespace Bisc

namespace Text

/-! ## Integers as they are written -/

/-- The character is the digit of a number below the base; letters may be capital. -/
def IsDigitOf (base : Nat) (c : Char) (d : Nat) : Prop := d < base ∧ (c = d.digitChar ∨ c = d.digitChar.toUpper)

instance (base : Nat) (c : Char) (d : Nat) : Decidable (IsDigitOf base c d) := inferInstanceAs (Decidable (_ ∧ _))

/-- The text is a mark and digits, the most significant first, and the number is their place value. -/
inductive IsNatural : List Char → Nat → Prop
  | intro {mark digits : List Char} {base : Nat} {ds : List Nat} (marked : (mark, base) ∈ marks)
      (filled : digits ≠ [])
      (spelled : List.Forall₂ (IsDigitOf base) digits ds) : IsNatural (mark ++ digits) (Nat.ofDigits base ds.reverse)

/-- The text is an integer with its sign, if it has one. -/
inductive IsInteger : List Char → Int → Prop
  | plain {text : List Char} {n : Nat} (natural : IsNatural text n) : IsInteger text n
  | negative {text : List Char} {n : Nat} (natural : IsNatural text n) : IsInteger ('-' :: text) (-n)

/-! ## Reading them -/

/-- The character is a digit of its value wherever that is below the base. -/
structure ReadsAs (c : Char) (d : Nat) : Prop where
  value : digitValue c = d
  hex : isHexDigit c
  decimal : d < 10 → c.isDigit
  binary : d < 2 → isBinaryDigit c

theorem IsDigitOf.readsAs {base d : Nat} {c : Char} (digit : IsDigitOf base c d)
    (small : base ≤ 16) : ReadsAs c d := by
  have lower : ∀ d < 16, digitValue d.digitChar = d ∧ isHexDigit d.digitChar ∧ (d < 10 → d.digitChar.isDigit) ∧
      (d < 2 → isBinaryDigit d.digitChar) := by decide
  have upper : ∀ d < 16, digitValue d.digitChar.toUpper = d ∧ isHexDigit d.digitChar.toUpper ∧
      (d < 10 → d.digitChar.toUpper.isDigit) ∧
      (d < 2 → isBinaryDigit d.digitChar.toUpper) := by decide
  obtain ⟨below, rfl | rfl⟩ := digit
  · obtain ⟨value, hex, decimal, binary⟩ := lower d (by omega)
    exact ⟨value, hex, decimal, binary⟩
  · obtain ⟨value, hex, decimal, binary⟩ := upper d (by omega)
    exact ⟨value, hex, decimal, binary⟩

theorem ofDigits_reverse (base : Nat) (ds : List Nat) :
    Nat.ofDigits base ds.reverse = ds.foldl (fun m d => m * base + d) 0 := by
  rw [Nat.ofDigits_eq_foldr, List.foldr_reverse]
  congr 1
  funext m d
  simp [Nat.mul_comm, Nat.add_comm]

theorem map_digitValue {base : Nat} {digits : List Char} {ds : List Nat}
    (spelled : List.Forall₂ (IsDigitOf base) digits ds)
    (small : base ≤ 16) : digits.map digitValue = ds := by
  induction spelled with
  | nil => rfl
  | cons first _ ih => rw [List.map_cons, (first.readsAs small).value, ih]

/-- Every digit is of a class that holds of all digits of the base. -/
theorem takeWhile_digits {base : Nat} {digits : List Char} {ds : List Nat}
    (spelled : List.Forall₂ (IsDigitOf base) digits ds)
    {isDigit : Char → Bool} (covers : ∀ {c d}, IsDigitOf base c d → isDigit c) :
    digits.takeWhile isDigit = digits := by
  induction spelled with
  | nil => rfl
  | cons first _ ih => rw [List.takeWhile_cons_of_pos (covers first), ih]

namespace Numeral

variable {mark digits : List Char} {base : Nat} {ds : List Nat}

/-- A mark with digits of its base is read as a numeral of that base. -/
theorem unsigned?_of_marked (negative : Bool) (marked : (mark, base) ∈ marks) (filled : digits ≠ [])
    (spelled : List.Forall₂ (IsDigitOf base) digits ds) :
    unsigned? negative (mark ++ digits) = some ⟨negative, mark, base, digits⟩ := by
  simp only [marks, List.mem_cons, Prod.mk.injEq, List.not_mem_nil, or_false] at marked
  rcases marked with ⟨rfl, rfl⟩ | ⟨rfl, rfl⟩ | ⟨rfl, rfl⟩ | ⟨rfl, rfl⟩ | ⟨rfl, rfl⟩
  · have taken := takeWhile_digits spelled fun digit => (digit.readsAs (by decide)).hex
    simp [unsigned?, marked?, taken, filled]
  · have taken := takeWhile_digits spelled fun digit => (digit.readsAs (by decide)).hex
    simp [unsigned?, marked?, taken, filled]
  · have taken := takeWhile_digits spelled fun digit => (digit.readsAs (by decide)).binary digit.1
    simp [unsigned?, marked?, taken, filled]
  · have taken := takeWhile_digits spelled fun digit => (digit.readsAs (by decide)).binary digit.1
    simp [unsigned?, marked?, taken, filled]
  · have taken := takeWhile_digits spelled fun digit => (digit.readsAs (by decide)).decimal digit.1
    have found : decimal? negative digits = some ⟨negative, [], 10, digits⟩ := by
      rw [decimal?, taken, if_pos filled]
    obtain ⟨-, -, -, again⟩ := decimal?_again found
    simpa using again [] stops_nil

/-- A natural number is read as a numeral with its value, of either sign. -/
theorem unsigned?_of_isNatural {text : List Char} {m : Nat} (natural : IsNatural text m) (negative : Bool) :
    ∃ n, unsigned? negative text = some n ∧ n.negative = negative ∧ n.mark ++ n.digits = text ∧ n.magnitude = m := by
  obtain ⟨marked, filled, spelled⟩ := natural
  refine ⟨_, unsigned?_of_marked negative marked filled spelled, rfl, rfl, ?_⟩
  have small : ∀ entry ∈ marks, entry.2 ≤ 16 := by decide
  rw [ofDigits_reverse, ← map_digitValue spelled (small _ marked), List.foldl_map]
  rfl

theorem begins_of_isNatural {text : List Char} {m : Nat} (natural : IsNatural text m) :
    ∃ c cs, text = c :: cs ∧ c.isDigit := by
  obtain ⟨marked, filled, spelled⟩ := natural
  simp only [marks, List.mem_cons, Prod.mk.injEq, List.not_mem_nil, or_false] at marked
  rcases marked with ⟨rfl, rfl⟩ | ⟨rfl, rfl⟩ | ⟨rfl, rfl⟩ | ⟨rfl, rfl⟩ | ⟨rfl, rfl⟩
  case inr.inr.inr.inr =>
    cases spelled with
    | nil => exact absurd rfl filled
    | cons first _ => exact ⟨_, _, rfl, (first.readsAs (by decide)).decimal first.1⟩
  all_goals exact ⟨'0', _, rfl, rfl⟩

/-- An integer is read as a numeral that is all of its text and has its value. -/
theorem scan?_of_isInteger {text : List Char} {z : Int} (integer : IsInteger text z) :
    ∃ c cs n, text = c :: cs ∧ (c = '-' ∨ c.isDigit) ∧ scan? text = some n ∧ n.text = text ∧ n.value = z := by
  cases integer with
  | plain natural =>
    obtain ⟨c, cs, rfl, digit⟩ := begins_of_isNatural natural
    obtain ⟨n, found, sign, spelled, magnitude⟩ := unsigned?_of_isNatural natural false
    have unsigned : c ≠ '-' := by
      rintro rfl
      cases digit
    refine ⟨c, cs, n, rfl, .inr digit, ?_, ?_, ?_⟩
    · rw [scan?.eq_2 _ (by simp [unsigned])]
      exact found
    · rw [text, sign]
      simpa using spelled
    · rw [value, sign, magnitude]
      rfl
  | negative natural =>
    obtain ⟨n, found, sign, spelled, magnitude⟩ := unsigned?_of_isNatural natural true
    refine ⟨'-', _, n, rfl, .inl rfl, found, ?_, ?_⟩
    · rw [text, sign, ← spelled]
      rfl
    · rw [value, sign, magnitude]
      rfl

end Numeral
end Text

/-! ## Lines -/

/-- A lexeme that takes all of its line is the token of the line. -/
theorem tokenizeLine_whole {isa : InstructionSet} {c : Char} {cs : List Char}
    (inked : Text.isBlank c = false) {kind : TokenKind}
    {value : Option UInt32} (scanned : Lexeme.scan isa c cs = ⟨kind, cs.length, value⟩) (line : Nat) :
    tokenizeLine isa (c :: cs) line = [⟨kind, String.ofList (c :: cs), value, ⟨line, 1⟩, 0⟩] := by
  rw [tokenizeLine, tokensFrom, if_neg (by simp [inked]), scanned]
  dsimp only
  rw [tokensFrom_end, List.take_length]

/-- An integer alone on a line is one token with the integer as its text. It is a number, congruent
    to the integer, if the integer is one of 32 bits with or without a sign, and is invalid
    otherwise. -/
theorem integer_read {text : List Char} {z : Int} (integer : Text.IsInteger text z)
    (isa : InstructionSet) (line : Nat) :
    ∃ t, tokenizeLine isa text line = [t] ∧ t.raw.toList = text ∧
      (-2 ^ 31 ≤ z ∧ z ≤ 2 ^ 32 - 1 → t.kind = .immediate ∧ ∃ w, t.value = some w ∧ (w.toNat : Int) = z % 2 ^ 32) ∧
      (¬(-2 ^ 31 ≤ z ∧ z ≤ 2 ^ 32 - 1) → t.kind = .invalid ∧ t.value = none) := by
  obtain ⟨c, cs, n, rfl, first, scanned, whole, rfl⟩ := Text.Numeral.scan?_of_isInteger integer
  obtain ⟨inked, lexeme⟩ := Lexeme.scan_numeral isa first scanned whole
  refine ⟨_, tokenizeLine_whole inked lexeme line, String.toList_ofList, fun inside => ?_, fun outside => ?_⟩
  · have word : n.word? = some (UInt32.ofNat (n.value % 0x100000000).toNat) := if_pos (by omega)
    refine ⟨by simp [word], _, word, ?_⟩
    rw [UInt32.toNat_ofNat_of_lt' (by rw [UInt32.size]; omega)]
    omega
  · have word : n.word? = none := if_neg (by omega)
    simp [word]

/-- The lowest number there is, with digits to spare, and the first number after the highest. -/
theorem integer_read_limits :
    (∃ t, tokenizeLine bisc "-0x0000000080000000".toList 1 = [t] ∧ t.kind = .immediate ∧
        ∃ w, t.value = some w ∧ (w.toNat : Int) = 0x80000000) ∧
      ∃ t, tokenizeLine bisc "0B100000000000000000000000000000000".toList 1 = [t] ∧
      t.kind = .invalid ∧ t.value = none := by
  have lowest : Text.IsInteger "-0x0000000080000000".toList (-2 ^ 31) :=
    .negative (@Text.IsNatural.intro ['0', 'x'] _ 16 [0, 0, 0, 0, 0, 0, 0, 0, 8, 0, 0, 0, 0, 0, 0, 0]
      (by decide) (by decide) (by decide))
  have beyond : Text.IsInteger "0B100000000000000000000000000000000".toList (2 ^ 32) :=
    .plain (@Text.IsNatural.intro ['0', 'B'] _ 2 (1 :: List.replicate 32 0) (by decide) (by decide) (by decide))
  obtain ⟨t, single, -, number, -⟩ := integer_read lowest bisc 1
  obtain ⟨u, alone, -, -, invalid⟩ := integer_read beyond bisc 1
  exact ⟨⟨t, single, number (by decide)⟩, u, alone, invalid (by decide)⟩

end Bisc
