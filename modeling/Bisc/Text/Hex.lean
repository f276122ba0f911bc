/-!
Hexadecimal text in upper case.
-/
namespace Bisc.Text

/-- The hexadecimal digits of a number, without leading zeros. -/
def hex (n : Nat) : String := String.ofList ((Nat.toDigits 16 n).map Char.toUpper)

/-- The hexadecimal digits of a number, with leading zeros up to a width. -/
def hexPadded (width n : Nat) : String :=
  String.ofList (List.replicate (width - (hex n).length) '0') ++ hex n

end Bisc.Text
