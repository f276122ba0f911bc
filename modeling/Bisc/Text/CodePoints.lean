/-!
Sets of characters, given by their code points.
-/
namespace Bisc.Text

/-- A set of characters: ranges of code points, each with its first and its last. -/
abbrev CodePoints := List (Nat × Nat)

/-- The character is in the set. -/
def CodePoints.has (s : CodePoints) (c : Char) : Bool :=
  s.any fun (first, last) => first ≤ c.toNat && c.toNat ≤ last

end Bisc.Text
