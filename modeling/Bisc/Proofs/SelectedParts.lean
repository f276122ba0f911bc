import Bisc.Constant
import Mathlib

/-!
Parts of values. A part is selected by shifts and a mask in the arithmetic of 32 bits. Where that
stays in its range it does not matter what happens outside; where it does not, a run that checks its
arithmetic has no part to give, and one that lets it wrap around goes on with what is left.
-/
namespace Bisc

/-- The mask of the low bits of a number where shifts go by the low five bits of their count. -/
def lowBits (width : UInt32) : UInt32 := if 32 ≤ width then 0xFFFFFFFF else ((1 : UInt32) <<< width) - 1

/-- The selected part of a value where the arithmetic wraps around: differences are taken modulo
    2 ^ 32, and shifts go by the low five bits of their count. -/
def Selector.select : Selector → UInt32 → UInt32
  | lo, v => v &&& 0xFFFF
  | hi, v => (v >>> 16) &&& 0xFFFF
  | bytes first last, v =>
    (v >>> (8 * first.toUInt32)) &&& lowBits (8 * (last.toUInt32 - first.toUInt32 + 1))

/-- The selector names no bytes of a value: the last byte is before the first, or the first is behind
    the value. -/
def Selector.overflows : Selector → Bool
  | bytes first last => last < first || 3 < first
  | _ => false

/-- What arithmetic does that leaves its range: it ends the run, or it wraps around. -/
inductive Arithmetic
  | checked
  | wrapping
deriving DecidableEq

/-- The selected part of a value in an arithmetic. -/
def Selector.applyIn : Arithmetic → Selector → UInt32 → Option UInt32
  | .checked, selector, v => selector.apply? v
  | .wrapping, selector, v => some (selector.select v)

theorem lowBits?_eq (width : UInt32) : lowBits? width = some (lowBits width) := by
  unfold lowBits? lowBits
  by_cases wide : 32 ≤ width
  · rw [if_pos wide, if_pos wide]
  · rw [if_neg wide, if_neg wide, shiftUp?, if_pos (UInt32.not_le.mp wide), Option.map_some]

theorem eight_mul_toNat (first : UInt8) : (8 * first.toUInt32).toNat = 8 * first.toNat := by
  have small := first.toNat_lt
  rw [UInt32.toNat_mul, UInt8.toNat_toUInt32]
  exact Nat.mod_eq_of_lt (by simp; omega)

/-- The arithmetic leaves its range exactly if the selector names no bytes of a value. -/
theorem Selector.apply?_eq (selector : Selector) (v : UInt32) :
    selector.apply? v = if selector.overflows then none else some (selector.select v) := by
  unfold Selector.apply?
  cases selector with
  | lo => rfl
  | hi => rfl
  | bytes first last =>
    by_cases ordered : first ≤ last
    · have difference : subtract? last.toUInt32 first.toUInt32 = some (last.toUInt32 - first.toUInt32) :=
        if_pos (by simpa [UInt32.le_iff_toNat_le, UInt8.le_iff_toNat_le] using ordered)
      have inside : 8 * first.toUInt32 < 32 ↔ first ≤ 3 := by
        rw [UInt32.lt_iff_toNat_lt, eight_mul_toNat, UInt8.le_iff_toNat_le]
        simp
        omega
      have after : ¬last < first := UInt8.not_lt.mpr ordered
      simp only [difference, lowBits?_eq, Option.bind_eq_bind, Option.bind_some, shiftDown?, inside, overflows,
        select, decide_eq_false after, Bool.false_or, decide_eq_true_eq]
      by_cases near : first ≤ 3
      · rw [if_pos near, if_neg (UInt8.not_lt.mpr near), Option.bind_some]
        rfl
      · rw [if_neg near, if_pos (UInt8.not_le.mp near)]
        rfl
    · have difference : subtract? last.toUInt32 first.toUInt32 = none :=
        if_neg (by simpa [UInt32.le_iff_toNat_le, UInt8.le_iff_toNat_le] using ordered)
      simp only [difference, Option.bind_eq_bind, Option.bind_none, overflows,
        decide_eq_true (UInt8.not_le.mp ordered), Bool.true_or, if_true]

-- Bytes 2 to 1 and byte 4 of a value, in either arithmetic.
example : (Selector.bytes 2 1).applyIn .checked 0x12345678 = none ∧
    (Selector.bytes 2 1).applyIn .wrapping 0x12345678 = some 0 ∧
    (Selector.bytes 4 4).applyIn .checked 0x12345678 = none ∧
    (Selector.bytes 4 4).applyIn .wrapping 0x12345678 = some 0x78 := by decide

/-! ## Values of parts -/

theorem lowBits_toNat {width : UInt32} (inside : width.toNat ≤ 32) : (lowBits width).toNat = 2 ^ width.toNat - 1 := by
  unfold lowBits
  by_cases whole : 32 ≤ width
  · have exactly : width.toNat = 32 := Nat.le_antisymm inside (UInt32.le_iff_toNat_le.mp whole)
    rw [if_pos whole, exactly]
    rfl
  · have below : width.toNat < 32 := UInt32.lt_iff_toNat_lt.mp (UInt32.not_le.mp whole)
    have small : 2 ^ width.toNat < 2 ^ 32 := Nat.pow_lt_pow_right (by decide) below
    have power : ((1 : UInt32) <<< width).toNat = 2 ^ width.toNat := by
      rw [UInt32.toNat_shiftLeft, Nat.mod_eq_of_lt below, UInt32.toNat_one, Nat.one_shiftLeft, Nat.mod_eq_of_lt small]
    have positive : (1 : UInt32) ≤ (1 : UInt32) <<< width := by
      rw [UInt32.le_iff_toNat_le, power]
      exact Nat.two_pow_pos _
    rw [if_neg whole, UInt32.toNat_sub_of_le _ _ positive, power, UInt32.toNat_one]

theorem Selector.lo_toNat (v : UInt32) : (lo.select v).toNat = v.toNat % 0x10000 := by
  rw [select, UInt32.toNat_and]
  exact Nat.and_two_pow_sub_one_eq_mod v.toNat 16

theorem Selector.hi_toNat (v : UInt32) : (hi.select v).toNat = v.toNat / 0x10000 := by
  have shifted : (v >>> 16).toNat = v.toNat / 0x10000 := by
    rw [UInt32.toNat_shiftRight]
    exact Nat.shiftRight_eq_div_pow v.toNat 16
  have bound := v.toNat_lt
  rw [select, UInt32.toNat_and, shifted]
  exact (Nat.and_two_pow_sub_one_eq_mod _ 16).trans (Nat.mod_eq_of_lt (by omega))

/-- Bytes of a value are digits of it to the base 256. -/
theorem Selector.bytes_toNat {first last : UInt8} (ordered : first ≤ last) (inside : last ≤ 3) (v : UInt32) :
    ((bytes first last).select v).toNat =
      v.toNat / 256 ^ first.toNat % 256 ^ (last.toNat - first.toNat + 1) := by
  have ordered : first.toNat ≤ last.toNat := ordered
  have inside : last.toNat ≤ 3 := inside
  have difference : (last.toUInt32 - first.toUInt32).toNat = last.toNat - first.toNat := by
    rw [UInt32.toNat_sub_of_le _ _ (by simpa [UInt32.le_iff_toNat_le] using ordered), UInt8.toNat_toUInt32,
      UInt8.toNat_toUInt32]
  have width : (8 * (last.toUInt32 - first.toUInt32 + 1)).toNat = 8 * (last.toNat - first.toNat + 1) := by
    have count : (last.toUInt32 - first.toUInt32 + 1).toNat = last.toNat - first.toNat + 1 := by
      rw [UInt32.toNat_add, difference, UInt32.toNat_one, Nat.mod_eq_of_lt (by omega)]
    rw [UInt32.toNat_mul, count]
    exact Nat.mod_eq_of_lt (by simp; omega)
  have mask := @lowBits_toNat (8 * (last.toUInt32 - first.toUInt32 + 1)) (by omega)
  rw [select, UInt32.toNat_and, UInt32.toNat_shiftRight, eight_mul_toNat, Nat.mod_eq_of_lt (by omega), mask, width,
    Nat.and_two_pow_sub_one_eq_mod, Nat.shiftRight_eq_div_pow, Nat.pow_mul, Nat.pow_mul]

/-- Words that name one or two bytes of a value are bytes themselves. -/
theorem bytes_of_words {first last : UInt32} (ordered : first ≤ last) (inside : last ≤ 3)
    (narrow : last.toNat - first.toNat ≤ 1) :
    first.toUInt8 ≤ last.toUInt8 ∧ last.toUInt8 ≤ 3 ∧ last.toUInt8.toNat - first.toUInt8.toNat ≤ 1 := by
  have ordered : first.toNat ≤ last.toNat := ordered
  have inside : last.toNat ≤ 3 := inside
  have low : first.toUInt8.toNat = first.toNat := by
    rw [UInt32.toNat_toUInt8, Nat.mod_eq_of_lt (by omega)]
  have high : last.toUInt8.toNat = last.toNat := by
    rw [UInt32.toNat_toUInt8, Nat.mod_eq_of_lt (by omega)]
  rw [UInt8.le_iff_toNat_le, UInt8.le_iff_toNat_le, low, high]
  exact ⟨ordered, inside, narrow⟩

end Bisc
