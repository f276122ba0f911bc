import Bisc.Text.Hex

/-!
Constants: numbers, symbols, and parts of their values.
-/
namespace Bisc

/-- A part of a 32-bit value: its lower or upper half, or the bytes `first` to `last`, byte 0 being
    the least significant. -/
inductive Selector
  | lo
  | hi
  | bytes (first last : UInt8)
deriving DecidableEq

/-- The difference, if it is not negative. -/
def subtract? (a b : UInt32) : Option UInt32 := if b ≤ a then some (a - b) else none

/-- The number moved down, if it is by less than its length. -/
def shiftDown? (v count : UInt32) : Option UInt32 := if count < 32 then some (v >>> count) else none

/-- The number moved up, if it is by less than its length. -/
def shiftUp? (v count : UInt32) : Option UInt32 := if count < 32 then some (v <<< count) else none

/-- The mask of the low bits of a number, up to all of them. -/
def lowBits? (width : UInt32) : Option UInt32 :=
  if 32 ≤ width then some 0xFFFFFFFF else (shiftUp? 1 width).map (· - 1)

/-- The selected part of a value, moved down to bit 0. The arithmetic is that of 32 bits, and has no
    result out of its range: it leaves it where the last byte is before the first, or the first is
    not in the value. -/
def Selector.apply? : Selector → UInt32 → Option UInt32
  | lo, v => some (v &&& 0xFFFF)
  | hi, v => do return (← shiftDown? v 16) &&& 0xFFFF
  | bytes first last, v => do
    let first := first.toUInt32
    let last := last.toUInt32
    let mask ← lowBits? (8 * ((← subtract? last first) + 1))
    return (← shiftDown? v (8 * first)) &&& mask

/-- An operand or a datum: its value is known, or the address of a symbol, or a part of another. -/
inductive Constant
  | number (value : UInt32)
  | symbol (name : String)
  | part (inner : Constant) (selector : Selector)
deriving DecidableEq

namespace Constant

/-- The value, if the constant is a number. -/
def value? : Constant → Option UInt32
  | number v => some v
  | _ => none

/-- The constant as it is written in a source. -/
def text : Constant → String
  | number v => s!"0x{Text.hex v.toNat}"
  | symbol name => name
  | part inner .lo => s!".lo {inner.text}"
  | part inner .hi => s!".hi {inner.text}"
  | part inner (.bytes first last) => s!"{inner.text}({first.toNat}:{last.toNat})"

end Constant
end Bisc
