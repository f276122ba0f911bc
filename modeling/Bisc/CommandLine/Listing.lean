import Bisc.Assembly
import Bisc.Text.Columns

/-!
The listing of a build: every item with its address and its bytes, then the labels and the entry.
-/
namespace Bisc.CommandLine

/-- The first eight bytes of an item, and a mark if there are more. -/
def bytesCell (bytes : List UInt8) : String :=
  String.intercalate " " ((bytes.take 8).map fun b => Text.hexPadded 2 b.toNat) ++
    if bytes.length > 8 then " .." else ""

/-- The cells of an item; what has no bytes shows none. -/
def itemRow (i : Item) : List String :=
  [s!"0x{Text.hexPadded 8 i.address.toNat}:", i.node.text, "=>",
    bytesCell (i.encode.toOption.getD [])]

/-- The width of a column: that of its widest cell. -/
def columnWidth (rows : List (List String)) (column : Nat) : Nat :=
  (rows.map fun row => Text.columns (row.getD column "")).foldl max 0

/-- A row with its cells one space apart and every cell but the last as wide as its column. -/
def gridRow : List Nat → List String → String
  | _, [] => ""
  | _, [cell] => cell
  | widths, cell :: cells =>
    Text.padRight (widths.headD 0) cell ++ " " ++ gridRow (widths.drop 1) cells

/-- Rows of four cells, each on a line. -/
def grid (rows : List (List String)) : String :=
  let widths := (List.range 3).map (columnWidth rows)
  String.join (rows.map fun row => gridRow widths row ++ "\n")

/-- The line of a label. -/
def symbolLine (entry : String × Symbol) : String :=
  s!"0x{Text.hexPadded 8 entry.2.address.toNat} {entry.1}\n"

/-- The listing of a build. -/
def listing (b : Build) : String :=
  grid (b.program.flatMap fun s => s.items.map itemRow) ++ "\n" ++
    String.join (b.symbols.entries.map symbolLine) ++
    s!"entry 0x{Text.hexPadded 8 b.object.entry.toNat}\n"

end Bisc.CommandLine
