import Bisc.Text.Ligature

/-!
The columns of a text in a fixed-width display. Characters that are shown as one take the columns of
that one: ligatures, emoji with a selector or a modifier, and emoji joined into a picture. What a
character adds depends on what stands to its right, so columns are counted from the right.
-/
namespace Bisc.Text

/-- What stands to the right of a character, as far as the character may be shown as one with it.
    The joined ones are to the left of a joiner that has a picture after it; the tags are counted
    from their end. -/
inductive Follower
  | other
  | lineFeed
  | ligature (part : Ligature)
  | modifier
  | indicator
  | indicators
  | picture
  | joinedPicture
  | joinedKeycap
  | joinedIndicator
  | joinedIndicators (even : Bool)
  | joinedLetters (count : Nat)
  | joinedDigits (count : Nat)
deriving DecidableEq

namespace Follower

/-- A character by itself. -/
def ofChar (c : Char) : Follower :=
  if isRegionalIndicator c then .indicator
  else if isModifier c then .modifier
  else if pictures.has c then .picture
  else match Ligature.ofChar? c with
    | some part => .ligature part
    | none => .other

/-- A joiner before a picture. -/
def joiner? (c : Char) : Option (Int × Follower) :=
  if isJoiner c then some (0, .joinedPicture) else none

/-- The columns that a character adds to what follows it, where the two are shown as one, and what
    then stands there. Three indicators before a joiner are a flag and a letter by itself, and with
    a fourth the letter is in the joined flag. -/
def before? (f : Follower) (c : Char) : Option (Int × Follower) :=
  match f with
  | .other => none
  | .lineFeed => none
  | .ligature part =>
    (part.before? c).map fun (columns, more) => (columns, (more.map .ligature).getD .other)
  | .modifier => if modifierBases.has c then some (0, .picture) else joiner? c
  | .indicator => if isRegionalIndicator c then some (1, .indicators) else none
  | .indicators => if isRegionalIndicator c then some (1, .indicators) else joiner? c
  | .picture => joiner? c
  | .joinedPicture =>
    if isKeycap c then some (0, .joinedKeycap)
    else if isRegionalIndicator c then some (1, .joinedIndicator)
    else if isModifier c then some (0, .modifier)
    else if isTagEnd c then some (0, .joinedLetters 0)
    else if pictures.has c then some (0, .picture)
    else none
  | .joinedKeycap => none
  | .joinedIndicator => if isRegionalIndicator c then some (-1, .joinedIndicators true) else none
  | .joinedIndicators even =>
    if isRegionalIndicator c then some (if even then 3 else -1, .joinedIndicators !even)
    else joiner? c
  | .joinedLetters count =>
    if isTagLetter c && count < 6 then some (0, .joinedLetters (count + 1))
    else if isTagDigit c && count < 5 then some (0, .joinedDigits 1)
    else if isTagBase c && count ≥ 3 then some (0, .picture)
    else none
  | .joinedDigits count =>
    if isTagDigit c && count < 3 then some (0, .joinedDigits (count + 1))
    else if isTagBase c && count = 3 then some (0, .picture)
    else none

/-- What a selector leaves of what follows it: a ligature goes on to its left. -/
def pastSelector : Follower → Follower
  | .ligature part => .ligature part
  | _ => .other

/-- A picture to the left is shown as one with what follows. -/
def takesPicture : Follower → Bool
  | .joinedPicture => true
  | .joinedKeycap => true
  | _ => false

end Follower

/-- The form that a selector asks for. -/
inductive Form
  | picture
  | text
deriving DecidableEq

/-- What stands to the right of a character: a selector, if there is one, and what follows it. -/
structure Context where
  selector : Option Form
  follower : Follower
deriving DecidableEq

namespace Context

/-- The context at the end of a text. -/
def atEnd : Context := ⟨none, .other⟩

/-- The context after a character up to the no-break space, and its columns: a carriage return and
    the line feed after it are one. -/
def narrow (f : Follower) (c : Char) : Int × Context :=
  if c = '\n' then (1, ⟨none, .lineFeed⟩)
  else if c = '\r' && f = .lineFeed then (0, atEnd)
  else (1, atEnd)

/-- The columns that a character without a selector adds to what follows it, and the context to its
    left. -/
def unselected (f : Follower) (c : Char) : Int × Context :=
  if c.toNat ≤ 0xA0 then narrow f c
  else if isPictureSelector c then
    (0, ⟨some .picture, if f.takesPicture then f else f.pastSelector⟩)
  else if isTextSelector c then (0, ⟨some .text, f.pastSelector⟩)
  else
    let (columns, found) := (f.before? c).getD (Int.ofNat (charColumns c), .ofChar c)
    (columns, ⟨none, found⟩)

/-- The columns that a character adds to its context, and the context to its left. -/
def extend (x : Context) (c : Char) : Int × Context :=
  match x.selector with
  | some .picture =>
    if hasPictureForm c then (if x.follower.takesPicture then 0 else 2, ⟨none, .picture⟩)
    else unselected x.follower.pastSelector c
  | some .text => if hasNarrowForm c then (1, atEnd) else unselected x.follower c
  | none => unselected x.follower c

end Context

/-- The columns of a text and what its start means to a character before it. -/
def measure (s : List Char) : Int × Context :=
  s.foldr (fun c (total, x) => let (columns, y) := x.extend c; (total + columns, y)) (0, .atEnd)

/-- The columns of a text. -/
def columns (s : String) : Nat := (measure s.toList).1.toNat

/-- The text with spaces after it up to a number of columns. -/
def padRight (width : Nat) (s : String) : String :=
  s ++ String.ofList (List.replicate (width - columns s) ' ')

end Bisc.Text
