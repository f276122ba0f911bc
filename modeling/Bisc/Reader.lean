import Bisc.Error

/-!
Readers: they take tokens off the front of a list or fail with an error at the token that is
wrong. At the end of the list the error is at the last token taken.
-/
namespace Bisc

/-- The tokens still to read, and the place of the last one taken. -/
structure Cursor where
  rest : List Token
  last : Position
deriving DecidableEq

/-- A reader of an `α`. -/
abbrev Reader := StateT Cursor (Except Error)

namespace Reader

/-- Takes the next token, whatever it is. -/
def next (what : Expected) : Reader Token := fun c =>
  match c.rest with
  | [] => .error ⟨.unexpected what .endOfFile, c.last⟩
  | t :: ts => .ok (t, ⟨ts, t.pos⟩)

/-- The next token is of a kind. -/
def nextIs (kind : TokenKind) : Reader Bool := fun c =>
  .ok (c.rest.head?.any fun t => t.kind = kind, c)

/-- Takes a token of a kind. -/
def expect (kind : TokenKind) : Reader Token := do
  let t ← next (.token kind)
  if t.kind = kind then return t else throw (t.refused (.token kind))

/-- Takes a word, which may be spelled like a mnemonic or a register. -/
def word (what : Expected) : Reader Token := do
  let t ← next what
  if t.isWord then return t else throw (t.refused what)

/-- Takes a register; an index is a byte. -/
def register : Reader UInt8 := do
  return (← expect .register).number.toUInt8

/-- Takes the tokens before the next separator. -/
def restOfLine : Reader (List Token) := fun c =>
  let line := Token.line c.rest
  .ok (line, ⟨Token.afterLine c.rest, (line.getLast?.map Token.pos).getD c.last⟩)

/-- Takes the end of a line: maybe a comment, then a separator or the end of the list. -/
def endOfLine : Reader Unit := fun c =>
  let rest := match c.rest with
    | [] => []
    | t :: ts => if t.isComment then ts else t :: ts
  match rest with
  | [] => .ok ((), ⟨[], c.last⟩)
  | t :: ts =>
    if t.isSeparator then .ok ((), ⟨ts, t.pos⟩)
    else .error (t.refused (.token .lineSeparator))

/-- Takes a comma and what `item` reads, at most `n` times. -/
def moreItems {α : Type} (item : Reader α) : Nat → Reader (List α)
  | 0 => return []
  | n + 1 => do
    if ← nextIs .comma then
      let _ ← expect .comma
      let a ← item
      return a :: (← moreItems item n)
    else return []

/-- Takes what `item` reads as long as commas follow; every comma is a token, so there are no more
    of them than tokens. -/
def commaSeparated {α : Type} (item : Reader α) : Reader (List α) := do
  let a ← item
  return a :: (← moreItems item (← get).rest.length)

end Reader
end Bisc
