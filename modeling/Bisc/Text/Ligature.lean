import Bisc.Text.CharWidth
import Bisc.Text.Emoji

/-!
Ligatures of scripts: characters that take fewer columns side by side than apart. They are built
from their right end, one character after the other.
-/
namespace Bisc.Text

/-- Arabic letters with the shape of alef. -/
def alefs : CodePoints := [
  (0x622, 0x623), (0x625, 0x625), (0x627, 0x627), (0x671, 0x673),
  (0x675, 0x675), (0x773, 0x774), (0x870, 0x882)]

/-- Arabic letters with the shape of lam. -/
def lams : CodePoints := [
  (0x644, 0x644), (0x6B5, 0x6B8), (0x76A, 0x76A), (0x8A6, 0x8A6),
  (0x8C7, 0x8C7)]

/-- Characters without columns that break the joining of Arabic letters. -/
def nonJoining : CodePoints := [
  (0x605, 0x605), (0x890, 0x891), (0x8E2, 0x8E2), (0x9BE, 0x9BE),
  (0x9D7, 0x9D7), (0xB3E, 0xB3E), (0xB57, 0xB57), (0xBBE, 0xBBE),
  (0xBD7, 0xBD7), (0xCC0, 0xCC0), (0xCC2, 0xCC2), (0xCC7, 0xCC8),
  (0xCCA, 0xCCB), (0xCD5, 0xCD6), (0xD3E, 0xD3E), (0xD4E, 0xD4E),
  (0xD57, 0xD57), (0xDCF, 0xDCF), (0xDDF, 0xDDF), (0x1160, 0x11FF),
  (0x180E, 0x180E), (0x1B35, 0x1B35), (0x1B3B, 0x1B3B), (0x1B3D, 0x1B3D),
  (0x1B43, 0x1B43), (0x200C, 0x200D), (0x2065, 0x2069), (0x302E, 0x302F),
  (0x3164, 0x3164), (0xA8FA, 0xA8FA), (0xD7B0, 0xD7C6), (0xD7CB, 0xD7FB),
  (0xFF9E, 0xFFA0), (0xFFF0, 0xFFF8), (0x111C2, 0x111C3), (0x1133E, 0x1133E),
  (0x11357, 0x11357), (0x114B0, 0x114B0), (0x114BD, 0x114BD), (0x115AF, 0x115AF),
  (0x11930, 0x11930), (0x1193F, 0x1193F), (0x11941, 0x11941), (0x11A3A, 0x11A3A),
  (0x11A84, 0x11A89), (0x11D46, 0x11D46), (0x11F02, 0x11F02), (0x1D165, 0x1D165),
  (0x1D16E, 0x1D172), (0xE0000, 0xE0000), (0xE0002, 0xE001F), (0xE0080, 0xE00FF),
  (0xE01F0, 0xE0FFF)]

/-- Khmer letters that have a form below another letter. -/
def coengLetters : CodePoints := [
  (0x1780, 0x1782), (0x1784, 0x1787), (0x1789, 0x178C), (0x178E, 0x1793),
  (0x1795, 0x1798), (0x179B, 0x179D), (0x17A0, 0x17A0), (0x17A2, 0x17A2),
  (0x17A7, 0x17A7), (0x17AB, 0x17AC), (0x17AF, 0x17AF)]

/-- Tifinagh consonants. -/
def tifinaghConsonants : CodePoints := [(0x2D31, 0x2D65), (0x2D6F, 0x2D6F)]

/-- Lisu tones that come first in a pair. -/
def firstTones : CodePoints := [(0xA4F8, 0xA4FB)]

/-- Lisu tones that come last in a pair. -/
def lastTones : CodePoints := [(0xA4FC, 0xA4FD)]

/-- Combining marks that are ignored by default. -/
def ignoredMarks : CodePoints := [
  (0x34F, 0x34F), (0x17B4, 0x17B5), (0x180B, 0x180D), (0x180F, 0x180F),
  (0xFE00, 0xFE0F), (0xE0100, 0xE01EF)]

/-- The right part of a ligature, which the characters before it may complete. Where there is a
    flag, it says that a joiner stands before that part. -/
inductive Ligature
  | alef
  | lamed (joined : Bool)
  | coengLetter
  | ya (joined : Bool)
  | vowelAndYa
  | consonant (joined : Bool)
  | joinerAndConsonant
  | lastTone
  | orkhonI (joined : Bool)
deriving DecidableEq

namespace Ligature

/-- The part that a character by itself is. -/
def ofChar? (c : Char) : Option Ligature :=
  if c.toNat = 0x5DC then some (.lamed false)
  else if alefs.has c then some .alef
  else if coengLetters.has c then some .coengLetter
  else if c.toNat = 0x1A10 then some (.ya false)
  else if tifinaghConsonants.has c then some (.consonant false)
  else if lastTones.has c then some .lastTone
  else if c.toNat = 0x10C03 then some (.orkhonI false)
  else none

/-- The part with a joiner before it. -/
def join : Ligature → Ligature
  | .lamed _ => .lamed true
  | .ya _ => .ya true
  | .consonant _ => .consonant true
  | .orkhonI _ => .orkhonI true
  | l => l

/-- The columns that a letter before the part adds to it, and the part with it, if there is more to
    come; nothing if the two form no ligature. -/
def letter? (l : Ligature) (c : Char) : Option (Int × Option Ligature) :=
  match l with
  | .alef => if lams.has c then some (0, none) else none
  | .lamed joined => if joined && c.toNat = 0x5D0 then some (0, none) else none
  | .coengLetter => if c.toNat = 0x17D2 then some (-1, none) else none
  | .ya joined => if joined && c.toNat = 0x1A17 then some (0, some .vowelAndYa) else none
  | .vowelAndYa => if c.toNat = 0x1A15 then some (0, none) else none
  | .consonant joined =>
    if c.toNat = 0x2D7F then some (1, some .joinerAndConsonant)
    else if joined && tifinaghConsonants.has c then some (0, none)
    else none
  | .joinerAndConsonant => if tifinaghConsonants.has c then some (-1, none) else none
  | .lastTone => if firstTones.has c then some (0, none) else none
  | .orkhonI joined => if joined && c.toNat = 0x10C32 then some (0, none) else none

/-- The part with a mark before it that does not break the ligature. -/
def mark? (l : Ligature) (c : Char) : Option Ligature :=
  match l with
  | .alef => if charColumns c = 0 && !nonJoining.has c then some .alef else none
  | l => if isJoiner c then some l.join else if ignoredMarks.has c then some l else none

/-- The columns that a character before the part adds to it, and what then may grow on. -/
def before? (l : Ligature) (c : Char) : Option (Int × Option Ligature) :=
  match l.mark? c with
  | some marked => some (0, some marked)
  | none => l.letter? c

end Ligature
end Bisc.Text
