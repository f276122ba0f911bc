/-!
Escapes of string and character literals.
-/
namespace Bisc.Text

/-- The byte that an escaped character stands for. -/
def escapedByte? : Char → Option UInt8
  | '0' => some 0x00
  | 'b' => some 0x08
  | 't' => some 0x09
  | 'n' => some 0x0A
  | 'r' => some 0x0D
  | '\\' => some 0x5C
  | '"' => some 0x22
  | '\x27' => some 0x27
  | _ => none

/-- The bytes of the body of a literal: every character in UTF-8, every escape as its byte. An
    unknown or unfinished escape is returned as the error. -/
def unescape : List Char → Except String (List UInt8)
  | [] => .ok []
  | '\\' :: [] => .error "\\"
  | '\\' :: c :: cs =>
    match escapedByte? c with
    | some b => (unescape cs).map (b :: ·)
    | none => .error (String.ofList ['\\', c])
  | c :: cs => (unescape cs).map (String.utf8EncodeChar c ++ ·)

end Bisc.Text
