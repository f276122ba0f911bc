/-!
Pieces of a text by bytes. A text can be cut between two characters only: a cut inside a character
or behind the end has no result.
-/
namespace Bisc.Text

/-- The text before a byte and from it on; none if the byte is inside a character or behind the end. -/
def cut? : Nat → List Char → Option (List Char × List Char)
  | 0, cs => some ([], cs)
  | _ + 1, [] => none
  | n + 1, c :: cs =>
    if c.utf8Size ≤ n + 1 then
      (cut? (n + 1 - c.utf8Size) cs).map fun (front, rest) => (c :: front, rest)
    else none

/-- The first bytes of a text. -/
def sliceTo? (last : Nat) (cs : List Char) : Option (List Char) := (cut? last cs).map (·.1)
/-- The text from a byte on. -/
def sliceFrom? (first : Nat) (cs : List Char) : Option (List Char) := (cut? first cs).map (·.2)
/-- The text from a byte on and before another. -/
def slice? (first last : Nat) (cs : List Char) : Option (List Char) :=
  (sliceTo? last cs).bind (sliceFrom? first)

end Bisc.Text
