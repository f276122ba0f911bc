import Bisc.Text.Utf8
import Bisc.Token.Lexeme

/-!
The tokens of a source text. Carriage returns do not count, every line break is a separator, and
blanks stand between tokens; all else of a text is in some token.
-/
namespace Bisc

/-- The tokens of the rest of a line that starts at a column, after `skip` characters that belong
    to the last token. -/
def tokensFrom (isa : InstructionSet) (line : Nat) : Nat → Nat → List Char → List Token
  | _, _, [] => []
  | column, skip + 1, c :: cs => tokensFrom isa line (column + c.utf8Size) skip cs
  | column, 0, c :: cs =>
    if Text.isBlank c then tokensFrom isa line (column + c.utf8Size) 0 cs
    else
      let x := Lexeme.scan isa c cs
      ⟨x.kind, String.ofList (c :: cs.take x.more), x.value, ⟨line, column⟩, 0⟩
        :: tokensFrom isa line (column + c.utf8Size) x.more cs

/-- The tokens of one line. -/
def tokenizeLine (isa : InstructionSet) (text : List Char) (line : Nat) : List Token :=
  tokensFrom isa line 1 0 text

/-- The lines of a text, which are one more than its line breaks. -/
def textLines : List Char → List (List Char)
  | [] => [[]]
  | c :: cs =>
    if c = '\n' then [] :: textLines cs
    else match textLines cs with
      | [] => [[c]]
      | l :: ls => (c :: l) :: ls

/-- The tokens of consecutive lines, the first of which has number `line`. -/
def tokenizeLines (isa : InstructionSet) : Nat → List (List Char) → List Token
  | _, [] => []
  | line, [text] => tokenizeLine isa text line
  | line, text :: texts =>
    tokenizeLine isa text line ++
      Token.separator ⟨line, Text.utf8Length text + 1⟩ 0 :: tokenizeLines isa (line + 1) texts

/-- The tokens of a source text. -/
def tokenize (isa : InstructionSet) (source : String) : List Token :=
  tokenizeLines isa 1 (textLines (source.toList.filter (· ≠ '\r')))

end Bisc
