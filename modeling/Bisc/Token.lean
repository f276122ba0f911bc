/-!
Tokens of assembly text: what each stands for, how it is spelled, where it stands and how many
expansions it went through.
-/
namespace Bisc

/-- A place in a source text: lines and columns count from one, columns in UTF-8 bytes. -/
structure Position where
  line : Nat
  column : Nat
deriving DecidableEq

/-- What a token is, as far as its spelling alone tells. -/
inductive TokenKind
  | opcode
  | pseudoOp
  | register
  | immediate
  | identifier
  | stringLiteral
  | comma
  | leftBracket
  | rightBracket
  | leftParen
  | rightParen
  | colon
  | directive
  | macroOp
  | comment
  | lineSeparator
  | invalid
deriving DecidableEq

/-- The name of a kind in messages. -/
def TokenKind.text : TokenKind → String
  | .opcode => "opcode"
  | .pseudoOp => "pseudo-instruction"
  | .register => "register"
  | .immediate => "numeric literal"
  | .identifier => "identifier"
  | .stringLiteral => "string literal"
  | .comma => "`,`"
  | .leftBracket => "`[`"
  | .rightBracket => "`]`"
  | .leftParen => "`(`"
  | .rightParen => "`)`"
  | .colon => "`:`"
  | .directive => "directive"
  | .macroOp => "`%`"
  | .comment => "comment"
  | .lineSeparator => "end of line"
  | .invalid => "invalid token"

/-- Kinds that are spelled like an identifier: names of directives and macros may be any of them. -/
def TokenKind.isWord : TokenKind → Bool
  | .identifier | .opcode | .pseudoOp | .register => true
  | _ => false

/-- A token: `value` is the opcode byte, the register index or the number that it spells, and
    `depth` counts the expansions that produced it. -/
structure Token where
  kind : TokenKind
  raw : String
  value : Option UInt32
  pos : Position
  depth : Nat
deriving DecidableEq

/-- The text with its ASCII letters in lower case. -/
def lowercase (s : String) : String := String.ofList (s.toList.map Char.toLower)

namespace Token

/-- The token ends its line. -/
def isSeparator (t : Token) : Bool := t.kind == .lineSeparator
/-- The token is a comment. -/
def isComment (t : Token) : Bool := t.kind == .comment
/-- The token is spelled like an identifier. -/
def isWord (t : Token) : Bool := t.kind.isWord
/-- The spelling under which mnemonics, registers and directives are looked up. -/
def name (t : Token) : String := lowercase t.raw
/-- The number a token stands for; one without a value stands for zero. -/
def number (t : Token) : UInt32 := t.value.getD 0
/-- The token as it stands in a text: a separator is a line break whatever its spelling. -/
def text (t : Token) : String := if t.isSeparator then "\n" else t.raw
/-- The separator of a line. -/
def separator (pos : Position) (depth : Nat) : Token := ⟨.lineSeparator, "\n", none, pos, depth⟩
/-- The token as the product of an expansion at `pos`. -/
def retag (pos : Position) (depth : Nat) (t : Token) : Token := { t with pos, depth }

/-- The text of a token list, given whether it starts a line: tokens of one line are one space
    apart. -/
def renderFrom (atStart : Bool) : List Token → String
  | [] => ""
  | t :: ts =>
    if t.isSeparator then "\n" ++ renderFrom true ts
    else (if atStart then "" else " ") ++ t.raw ++ renderFrom false ts

/-- The text of a token list, one line per separator. -/
def render (ts : List Token) : String := renderFrom true ts

/-- The tokens before the first separator. -/
def line (ts : List Token) : List Token := ts.takeWhile fun t => !t.isSeparator
/-- The first separator and what follows it. -/
def afterLine (ts : List Token) : List Token := ts.dropWhile fun t => !t.isSeparator
/-- The tokens that are no comments. -/
def uncommented (ts : List Token) : List Token := ts.filter fun t => !t.isComment

/-- The lines of a token list, each with the separator that ends it. -/
def lines : List Token → List (List Token)
  | [] => []
  | t :: ts =>
    if t.isSeparator then [t] :: lines ts
    else match lines ts with
      | [] => [[t]]
      | l :: ls => (t :: l) :: ls

end Token
end Bisc
