/-!
Numerals: a sign, a mark of the base and digits, of any length. A numeral is read off the front of
a text. Its digits make a 64-bit number, if they are not too many, and with the sign a 32-bit word,
if the number is not too large for one.
-/
namespace Bisc.Text

/-- A spelled number: `mark` is what stands between the sign and the digits. -/
structure Numeral where
  negative : Bool
  mark : List Char
  base : Nat
  digits : List Char
deriving DecidableEq

/-- The value of a digit; letters of either case count from ten. -/
def digitValue (c : Char) : Nat :=
  if c.isDigit then c.toNat - '0'.toNat
  else if 'a' ≤ c ∧ c ≤ 'f' then c.toNat - 'a'.toNat + 10
  else c.toNat - 'A'.toNat + 10

/-- A digit of base two. -/
def isBinaryDigit (c : Char) : Bool := c == '0' || c == '1'
/-- A digit of base sixteen. -/
def isHexDigit (c : Char) : Bool := c.isDigit || ('a' ≤ c && c ≤ 'f') || ('A' ≤ c && c ≤ 'F')

namespace Numeral

/-- The spelling of a numeral. -/
def text (n : Numeral) : List Char := (if n.negative then ['-'] else []) ++ n.mark ++ n.digits

/-- A numeral without sign that starts with `0` and one of `letters`, and has a digit. -/
def marked? (negative : Bool) (letters : List Char) (base : Nat) (isDigit : Char → Bool) :
    List Char → Option Numeral
  | zero :: letter :: cs =>
    let digits := cs.takeWhile isDigit
    if zero = '0' ∧ letter ∈ letters ∧ digits ≠ [] then
      some ⟨negative, [zero, letter], base, digits⟩
    else none
  | _ => none

/-- A numeral of decimal digits alone. -/
def decimal? (negative : Bool) (cs : List Char) : Option Numeral :=
  let digits := cs.takeWhile Char.isDigit
  if digits ≠ [] then some ⟨negative, [], 10, digits⟩ else none

/-- A numeral after its sign. A mark without digits is no mark: `0x` begins with the numeral `0`. -/
def unsigned? (negative : Bool) (cs : List Char) : Option Numeral :=
  marked? negative ['x', 'X'] 16 isHexDigit cs
    <|> marked? negative ['b', 'B'] 2 isBinaryDigit cs
    <|> decimal? negative cs

/-- The numeral that a text begins with. -/
def scan? : List Char → Option Numeral
  | '-' :: cs => unsigned? true cs
  | cs => unsigned? false cs

end Numeral

/-- The product, if it is a 64-bit number. -/
def multiply? (a b : UInt64) : Option UInt64 :=
  if a.toNat * b.toNat < 0x10000000000000000 then some (a * b) else none

/-- The sum, if it is a 64-bit number. -/
def add? (a b : UInt64) : Option UInt64 :=
  if a.toNat + b.toNat < 0x10000000000000000 then some (a + b) else none

/-- The value of a character as a digit of a base. -/
def digit? (base : UInt64) (c : Char) : Option UInt64 :=
  if isHexDigit c ∧ UInt64.ofNat (digitValue c) < base then some (.ofNat (digitValue c)) else none

/-- The number with one more digit. -/
def appendDigit? (base n : UInt64) (c : Char) : Option UInt64 := do
  add? (← multiply? n base) (← digit? base c)

/-- The 64-bit number that digits spell, after a plus sign or none. Every number on the way to it has
    to be a 64-bit number. -/
def parseDigits? (base : UInt64) (cs : List Char) : Option UInt64 :=
  let digits := match cs with
    | '+' :: ds => ds
    | ds => ds
  if digits.isEmpty then none else digits.foldlM (appendDigit? base) 0

/-- Whether a text has a minus sign, and what follows it. -/
def splitSign : List Char → Bool × List Char
  | '-' :: cs => (true, cs)
  | cs => (false, cs)

/-- The base of a number without sign, and the number of bytes that tell it. -/
def baseAndMark : List Char → UInt64 × Nat
  | '0' :: 'x' :: _ => (16, 2)
  | '0' :: 'X' :: _ => (16, 2)
  | '0' :: 'b' :: _ => (2, 2)
  | '0' :: 'B' :: _ => (2, 2)
  | _ => (10, 0)

/-- The word of a number with its sign. A negative number goes down to the lowest signed word and is
    in two's complement, any other goes up to the highest unsigned word. -/
def wordOf? (negative : Bool) (magnitude : UInt64) : Option UInt32 :=
  if negative then
    if magnitude > (1 : UInt64) <<< 31 then none else some (-magnitude.toUInt32)
  else if magnitude > 0xFFFFFFFF then none
  else some magnitude.toUInt32

/-- The 32-bit word that the text of a numeral stands for. -/
def number? (text : List Char) : Option UInt32 :=
  let (negative, unsigned) := splitSign text
  let (base, mark) := baseAndMark unsigned
  (parseDigits? base (unsigned.drop mark)).bind (wordOf? negative)

end Bisc.Text
