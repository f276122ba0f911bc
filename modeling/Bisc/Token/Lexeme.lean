import Bisc.InstructionSet
import Bisc.Text.Blank
import Bisc.Text.Escape
import Bisc.Text.Numeral
import Bisc.Token

/-!
Lexemes: what begins at a character of a line. A lexeme is given as the number of characters that
follow its first, so every lexeme has at least one. Nothing is refused here: what has no meaning is
an invalid lexeme, and whoever needs it to mean something reports it.
-/
namespace Bisc

/-- What begins at a character: `more` counts the characters of the lexeme after the first. -/
structure Lexeme where
  kind : TokenKind
  more : Nat
  value : Option UInt32
deriving DecidableEq

/-- Characters that may follow the first of a word. -/
def isWordChar (c : Char) : Bool := c.isAlphanum || c == '_' || c == '.'

/-- Characters that may begin a word. -/
def isWordStart (c : Char) : Bool := c.isAlpha || c == '_'

/-- Punctuation that ends an invalid lexeme. -/
def isDelimiter (c : Char) : Bool := c ∈ [',', '[', ']', '(', ')', ':', ';', '"']

/-- The number of characters of a string literal after its opening quote, up to the first quote
    that is not escaped; none if it is not closed. -/
def closingQuote? : List Char → Option Nat
  | [] => none
  | '"' :: _ => some 1
  | '\\' :: [] => none
  | '\\' :: c :: cs => if c = '\n' then none else (closingQuote? cs).map (· + 2)
  | _ :: cs => (closingQuote? cs).map (· + 1)

/-- The body of a character literal after its opening apostrophe: one character or one escape. -/
def characterBody? : List Char → Option (List Char)
  | '\\' :: c :: '\x27' :: _ => if c = '\n' then none else some ['\\', c]
  | c :: '\x27' :: _ => if c = '\x27' ∨ c = '\\' then none else some [c]
  | _ => none

namespace Lexeme

/-- A lexeme of one character. -/
def single (kind : TokenKind) : Lexeme := ⟨kind, 0, none⟩

/-- An invalid lexeme, up to the next blank or delimiter. -/
def invalidRun (cs : List Char) : Lexeme :=
  ⟨.invalid, (cs.takeWhile fun c => !(Text.isBlank c || isDelimiter c)).length, none⟩

/-- A string literal after its opening quote; an open one takes the rest of the line. -/
def stringLiteral (cs : List Char) : Lexeme :=
  match closingQuote? cs with
  | some n => ⟨.stringLiteral, n, none⟩
  | none => ⟨.invalid, cs.length, none⟩

/-- A character literal after its opening apostrophe: a number if it stands for one byte. -/
def characterLiteral (cs : List Char) : Lexeme :=
  match characterBody? cs with
  | none => invalidRun cs
  | some body =>
    match Text.unescape body with
    | .ok [b] => ⟨.immediate, body.length + 1, some b.toUInt32⟩
    | _ => ⟨.invalid, body.length + 1, none⟩

/-- The meaning of a word: a pseudo-instruction before a real one before a register. -/
def classify (isa : InstructionSet) (word : List Char) : TokenKind × Option UInt32 :=
  let name := lowercase (String.ofList word)
  if isa.forms name ≠ [] then (.pseudoOp, none)
  else match isa.opcode? name with
    | some op => (.opcode, some op.code.toUInt32)
    | none => match isa.register? name with
      | some index => (.register, some index.toUInt32)
      | none => (.identifier, none)

/-- A number; one that runs into a word is invalid with it, one that is no 32-bit word is invalid
    by itself. -/
def number (n : Text.Numeral) (c : Char) (cs : List Char) : Lexeme :=
  match ((c :: cs).drop n.text.length).head?.map isWordChar with
  | some true => invalidRun cs
  | _ => match Text.number? n.text with
    | some w => ⟨.immediate, n.text.length - 1, some w⟩
    | none => ⟨.invalid, n.text.length - 1, none⟩

/-- A number or a word. -/
def numberOrWord (isa : InstructionSet) (c : Char) (cs : List Char) : Lexeme :=
  match Text.Numeral.scan? (c :: cs) with
  | some n => number n c cs
  | none =>
    if isWordStart c then
      let tail := cs.takeWhile isWordChar
      let (kind, value) := classify isa (c :: tail)
      ⟨kind, tail.length, value⟩
    else invalidRun cs

/-- What begins at the character `c`, which is not blank and is followed by `cs`. -/
def scan (isa : InstructionSet) (c : Char) (cs : List Char) : Lexeme :=
  match c with
  | ';' => ⟨.comment, cs.length, none⟩
  | ',' => single .comma
  | '[' => single .leftBracket
  | ']' => single .rightBracket
  | '(' => single .leftParen
  | ')' => single .rightParen
  | ':' => single .colon
  | '.' => single .directive
  | '%' => single .macroOp
  | '"' => stringLiteral cs
  | '\x27' => characterLiteral cs
  | _ => numberOrWord isa c cs

end Lexeme
end Bisc
