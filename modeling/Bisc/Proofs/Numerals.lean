import Bisc.Text.Numeral
import Mathlib

/-!
Numbers as the machine reads them. Digits are taken one by one into a number of 64 bits, which must
never overflow, and that number with its sign into a word of 32 bits. Nothing is lost on the way: a
numeral is read as a word exactly if the integer that it spells has one, however many digits it has.
-/
namespace Bisc.Text

/-- The bases by their marks. -/
def marks : List (List Char × Nat) := [(['0', 'x'], 16), (['0', 'X'], 16), (['0', 'b'], 2), (['0', 'B'], 2), ([], 10)]

namespace Numeral

/-- The absolute value of a numeral. -/
def magnitude (n : Numeral) : Nat := n.digits.foldl (fun m c => m * n.base + digitValue c) 0

/-- The integer that a numeral spells. -/
def value (n : Numeral) : Int := if n.negative then -n.magnitude else n.magnitude

/-- The 32-bit word with that value, if there is one: negative values are in two's complement. -/
def word? (n : Numeral) : Option UInt32 :=
  if -0x80000000 ≤ n.value ∧ n.value < 0x100000000 then
    some (UInt32.ofNat (n.value % 0x100000000).toNat)
  else none

/-- The numeral has one of the marks, and one or more digits of its base. -/
structure WellFormed (n : Numeral) : Prop where
  marked : (n.mark, n.base) ∈ marks
  filled : n.digits ≠ []
  digits : ∀ c ∈ n.digits, isHexDigit c ∧ digitValue c < n.base

end Numeral

/-! ## Digits in 64 bits -/

/-- The 64-bit number of a value, if there is one. -/
def number64? (m : Nat) : Option UInt64 := if m < 0x10000000000000000 then some (.ofNat m) else none

theorem number64?_eq_some {m : Nat} (small : m < 0x10000000000000000) : number64? m = some (.ofNat m) := if_pos small
theorem number64?_eq_none {m : Nat} (large : 0x10000000000000000 ≤ m) : number64? m = none := if_neg (by omega)

/-- A digit is appended to the value, unless the value outgrows 64 bits: in the product or in the sum. -/
theorem appendDigit?_eq {base : UInt64} {c : Char} (hex : isHexDigit c) (small : digitValue c < base.toNat)
    (n : UInt64) : appendDigit? base n c = number64? (n.toNat * base.toNat + digitValue c) := by
  have below : digitValue c < 2 ^ 64 := Nat.lt_trans small base.toNat_lt
  have own : (UInt64.ofNat (digitValue c)).toNat = digitValue c := UInt64.toNat_ofNat_of_lt' below
  have digit : digit? base c = some (.ofNat (digitValue c)) := if_pos ⟨hex, UInt64.lt_iff_toNat_lt.mpr (by omega)⟩
  by_cases product : n.toNat * base.toNat < 0x10000000000000000
  · have multiplied : multiply? n base = some (n * base) := if_pos product
    have exactly : (n * base).toNat = n.toNat * base.toNat := by
      rw [UInt64.toNat_mul, Nat.mod_eq_of_lt product]
    simp only [appendDigit?, multiplied, digit, Option.bind_eq_bind, Option.bind_some, add?, exactly, own, number64?]
    by_cases sum : n.toNat * base.toNat + digitValue c < 0x10000000000000000
    · rw [if_pos sum, if_pos sum, UInt64.ofNat_add, UInt64.ofNat_mul, UInt64.ofNat_toNat, UInt64.ofNat_toNat]
    · rw [if_neg sum, if_neg sum]
  · have overflow : multiply? n base = none := if_neg product
    rw [appendDigit?, overflow, number64?_eq_none (by omega)]
    rfl

theorem le_foldl_digits {base : Nat} (positive : 0 < base) (digits : List Char) (m : Nat) :
    m ≤ digits.foldl (fun m c => m * base + digitValue c) m := by
  induction digits generalizing m with
  | nil => exact le_rfl
  | cons c digits ih =>
    have grows : m ≤ m * base + digitValue c := Nat.le_add_right_of_le (Nat.le_mul_of_pos_right m positive)
    exact grows.trans (ih _)

/-- Digits overflow on the way exactly if their whole value does, since it only grows. -/
theorem foldlM_appendDigit? {base : UInt64} {digits : List Char}
    (own : ∀ c ∈ digits, isHexDigit c ∧ digitValue c < base.toNat) (positive : 0 < base.toNat) (n : UInt64) :
    digits.foldlM (appendDigit? base) n =
      number64? (digits.foldl (fun m c => m * base.toNat + digitValue c) n.toNat) := by
  induction digits generalizing n with
  | nil => rw [List.foldl_nil, number64?_eq_some n.toNat_lt, UInt64.ofNat_toNat]; rfl
  | cons c digits ih =>
    obtain ⟨⟨hex, small⟩, others⟩ := List.forall_mem_cons.mp own
    rw [List.foldlM_cons, List.foldl_cons, appendDigit?_eq hex small]
    by_cases inside : n.toNat * base.toNat + digitValue c < 0x10000000000000000
    · have exactly : (UInt64.ofNat (n.toNat * base.toNat + digitValue c)).toNat =
          n.toNat * base.toNat + digitValue c := UInt64.toNat_ofNat_of_lt' inside
      rw [number64?_eq_some inside, Option.bind_eq_bind, Option.bind_some, ih others, exactly]
    · have overflow := (Nat.le_of_not_lt inside).trans (le_foldl_digits positive digits _)
      rw [number64?_eq_none (Nat.le_of_not_lt inside), number64?_eq_none overflow]
      rfl

/-! ## Words -/

theorem plus_ne_of_isHexDigit {c : Char} (hex : isHexDigit c) : c ≠ '+' := by
  rintro rfl
  cases hex

theorem parseDigits?_eq {base : UInt64} {digits : List Char} (filled : digits ≠ [])
    (own : ∀ c ∈ digits, isHexDigit c ∧ digitValue c < base.toNat) (positive : 0 < base.toNat) :
    parseDigits? base digits = number64? (digits.foldl (fun m c => m * base.toNat + digitValue c) 0) := by
  obtain ⟨d, ds, rfl⟩ := List.exists_cons_of_ne_nil filled
  have unsigned : d ≠ '+' := plus_ne_of_isHexDigit (own d List.mem_cons_self).1
  have taken : parseDigits? base (d :: ds) = (d :: ds).foldlM (appendDigit? base) 0 := by
    unfold parseDigits?
    split
    · rename_i same
      exact absurd (List.cons.inj same).1 unsigned
    · rfl
  rw [taken, foldlM_appendDigit? own positive]
  rfl

/-- The two limits, each for its sign, are the ends of one range of integers. -/
theorem wordOf?_eq (negative : Bool) {m : Nat} (small : m < 0x10000000000000000) :
    wordOf? negative (.ofNat m) =
      if -0x80000000 ≤ (if negative then -m else m : Int) ∧ (if negative then -m else m : Int) < 0x100000000 then
        some (UInt32.ofNat ((if negative then -m else m : Int) % 0x100000000).toNat)
      else none := by
  have exactly : (UInt64.ofNat m).toNat = m := UInt64.toNat_ofNat_of_lt' small
  have word : (UInt64.ofNat m).toUInt32.toNat = m % 2 ^ 32 := by rw [UInt64.toNat_toUInt32, exactly]
  have size : UInt32.size = 0x100000000 := rfl
  cases negative with
  | true =>
    have limit : UInt64.ofNat m > (1 : UInt64) <<< 31 ↔ 0x80000000 < m := by
      rw [gt_iff_lt, UInt64.lt_iff_toNat_lt, exactly]
      rfl
    simp only [wordOf?, if_true, limit]
    by_cases large : 0x80000000 < m
    · rw [if_pos large, if_neg (by omega)]
    · rw [if_neg large, if_pos (by omega), Option.some.injEq]
      apply UInt32.toNat.inj
      rw [UInt32.toNat_neg, word, UInt32.toNat_ofNat', size]
      omega
  | false =>
    have limit : UInt64.ofNat m > 0xFFFFFFFF ↔ 0xFFFFFFFF < m := by
      rw [gt_iff_lt, UInt64.lt_iff_toNat_lt, exactly]
      rfl
    simp only [wordOf?, Bool.false_eq_true, if_false, limit]
    by_cases large : 0xFFFFFFFF < m
    · rw [if_pos large, if_neg (by omega)]
    · rw [if_neg large, if_pos (by omega), Option.some.injEq]
      apply UInt32.toNat.inj
      rw [word, UInt32.toNat_ofNat']
      omega

namespace Numeral

variable {n : Numeral}

theorem isDigit_of_digitValue {c : Char} (small : digitValue c < 10) : c.isDigit := by
  by_contra other
  rw [digitValue, if_neg other] at small
  split at small <;> omega

/-- The text after the sign begins with a digit, and tells the base and where the digits begin. -/
theorem WellFormed.unsigned (shape : n.WellFormed) : (∃ c cs, n.mark ++ n.digits = c :: cs ∧ c ≠ '-') ∧
    baseAndMark (n.mark ++ n.digits) = (.ofNat n.base, n.mark.length) := by
  obtain ⟨marked, filled, digits⟩ := shape
  obtain ⟨negative, mark, base, ds⟩ := n
  obtain ⟨d, ds, rfl⟩ := List.exists_cons_of_ne_nil filled
  simp only [marks, List.mem_cons, Prod.mk.injEq, List.not_mem_nil, or_false] at marked
  rcases marked with ⟨rfl, rfl⟩ | ⟨rfl, rfl⟩ | ⟨rfl, rfl⟩ | ⟨rfl, rfl⟩ | ⟨rfl, rfl⟩
  case inr.inr.inr.inr =>
    have decimal : ∀ c ∈ d :: ds, c.isDigit := fun c member =>
      isDigit_of_digitValue (digits c member).2
    have other {c e : Char} (member : c ∈ d :: ds) (letter : e.isDigit = false) : c ≠ e := by
      rintro rfl
      have digit := decimal c member
      rw [letter] at digit
      cases digit
    refine ⟨⟨d, ds, rfl, other List.mem_cons_self rfl⟩, ?_⟩
    cases ds with
    | nil => simp [baseAndMark]
    | cons e es =>
      have second {l : Char} (letter : l.isDigit = false) : e ≠ l := other (by simp) letter
      simp [baseAndMark, second]
  all_goals exact ⟨⟨'0', _, rfl, by decide⟩, rfl⟩

/-- What a text is read as by its digits is what the integer that it spells comes to. -/
theorem WellFormed.number? (shape : n.WellFormed) : Text.number? n.text = n.word? := by
  obtain ⟨⟨c, cs, split, unsigned⟩, read⟩ := shape.unsigned
  have small : n.base < 2 ^ 64 := by
    have entries : ∀ entry ∈ marks, entry.2 < 2 ^ 64 := by decide
    exact entries _ shape.marked
  have positive : 0 < n.base := by
    have entries : ∀ entry ∈ marks, 0 < entry.2 := by decide
    exact entries _ shape.marked
  have base : (UInt64.ofNat n.base).toNat = n.base := UInt64.toNat_ofNat_of_lt' small
  have sign : splitSign n.text = (n.negative, n.mark ++ n.digits) := by
    cases negative : n.negative with
    | true => simp [text, negative, splitSign]
    | false => simp [text, negative, split, splitSign, unsigned]
  have digits : parseDigits? (.ofNat n.base) n.digits = number64? n.magnitude := by
    rw [parseDigits?_eq shape.filled (by rw [base]; exact shape.digits) (by rw [base]; exact positive), base]
    rfl
  simp only [Text.number?, sign, read, List.drop_left, digits]
  by_cases inside : n.magnitude < 0x10000000000000000
  · rw [number64?_eq_some inside, Option.bind_some, wordOf?_eq n.negative inside, word?, value]
  · have outside : ¬(-0x80000000 ≤ n.value ∧ n.value < 0x100000000) := by
      unfold value
      split <;> omega
    rw [number64?_eq_none (by omega), Option.bind_none, word?, if_neg outside]

/-! ## Numerals of a text -/

theorem digitValue_of_isDigit {c : Char} (digit : c.isDigit) : isHexDigit c ∧ digitValue c < 10 := by
  refine ⟨by simp [isHexDigit, digit], ?_⟩
  rw [digitValue, if_pos digit]
  simp only [Char.isDigit, Bool.and_eq_true, decide_eq_true_eq, UInt32.le_iff_toNat_le] at digit
  have upper : c.toNat ≤ 57 := digit.2
  have zero : '0'.toNat = 48 := rfl
  omega

theorem digitValue_of_isBinaryDigit {c : Char} (digit : isBinaryDigit c) : isHexDigit c ∧ digitValue c < 2 := by
  simp only [isBinaryDigit, Bool.or_eq_true, beq_iff_eq] at digit
  rcases digit with rfl | rfl <;> decide

theorem digitValue_of_isHexDigit {c : Char} (digit : isHexDigit c) : isHexDigit c ∧ digitValue c < 16 := by
  refine ⟨digit, ?_⟩
  by_cases decimal : c.isDigit
  · have := (digitValue_of_isDigit decimal).2
    omega
  · rw [digitValue, if_neg decimal]
    simp only [isHexDigit, decimal, Bool.false_or, Bool.or_eq_true, Bool.and_eq_true, decide_eq_true_eq] at digit
    have numbers : 'a'.toNat = 97 ∧ 'f'.toNat = 102 ∧ 'A'.toNat = 65 ∧ 'F'.toNat = 70 := by decide
    by_cases lower : 'a' ≤ c ∧ c ≤ 'f'
    · have above : c.toNat ≤ 'f'.toNat := lower.2
      rw [if_pos lower]
      omega
    · obtain ⟨-, above⟩ := digit.resolve_left lower
      have above : c.toNat ≤ 'F'.toNat := above
      rw [if_neg lower]
      omega

section Scanned

variable {negative : Bool} {letters : List Char} {base : Nat} {isDigit : Char → Bool} {cs : List Char}

theorem wellFormed_of_marked? (listed : ∀ letter ∈ letters, (['0', letter], base) ∈ marks)
    (digit : ∀ c, isDigit c → isHexDigit c ∧ digitValue c < base)
    (found : marked? negative letters base isDigit cs = some n) : n.WellFormed := by
  unfold marked? at found
  split at found
  · rename_i zero letter ds
    dsimp only at found
    split at found
    · rename_i shape
      obtain ⟨rfl, own, filled⟩ := shape
      cases found
      exact ⟨listed letter own, filled, fun c member => digit c (List.mem_takeWhile_imp member)⟩
    · cases found
  · cases found

theorem wellFormed_of_unsigned? (found : unsigned? negative cs = some n) : n.WellFormed := by
  simp only [unsigned?, Option.orElse_eq_orElse, Option.orElse_eq_or, Option.or_eq_some_iff] at found
  rcases found with hex | ⟨-, binary | ⟨-, decimal⟩⟩
  · exact wellFormed_of_marked? (by simp [marks]) (fun _ => digitValue_of_isHexDigit) hex
  · exact wellFormed_of_marked? (by simp [marks]) (fun _ => digitValue_of_isBinaryDigit) binary
  · simp only [decimal?] at decimal
    split at decimal
    · rename_i filled
      cases decimal
      exact ⟨by simp [marks], filled, fun c member => digitValue_of_isDigit (List.mem_takeWhile_imp member)⟩
    · cases decimal

theorem wellFormed_of_scan? (found : scan? cs = some n) : n.WellFormed := by
  unfold scan? at found
  split at found <;> exact wellFormed_of_unsigned? found

end Scanned
end Numeral
end Bisc.Text
