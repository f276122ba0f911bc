import Bisc.Program.Printer
import Bisc.SymbolTable
import Bisc.Text.Blank

/-!
The layout of a program: items lie one after the other from address zero, through all sections, and
every constant becomes the number that it stands for. A label may be used before it is defined.
-/
namespace Bisc

/-- Where the next item goes, and the labels placed so far. The end of the address space is a
    place where nothing goes. -/
structure Placement where
  next : Nat
  symbols : SymbolTable
deriving DecidableEq

/-- Gives an item its address. -/
def placeItem (i : Item) : StateT Placement (Except Error) Item := fun p =>
  if i.node.size < 0x100000000 ∧ p.next < 0x100000000 ∧ p.next + i.node.size ≤ 0x100000000 then
    let address := UInt32.ofNat p.next
    let next := p.next + i.node.size
    match i.node with
    | .label name => do
      let symbols ← p.symbols.insert name ⟨address, i.pos.line⟩ i.pos.column
      return ({ i with address }, ⟨next, symbols⟩)
    | _ => .ok ({ i with address }, ⟨next, p.symbols⟩)
  else .error ⟨.outOfRange (.addressSpace (Text.trim i.node.text)), i.pos⟩

/-- Gives the items of a section their addresses. -/
def placeSection (s : Section) : StateT Placement (Except Error) Section := do
  return { s with items := ← s.items.mapM placeItem }

/-- Gives all items their addresses, and collects the labels. -/
def place (p : Program) : Except Error (Program × SymbolTable) := do
  let (placed, last) ← (p.mapM placeSection).run ⟨0, .empty⟩
  return (placed, last.symbols)

/-- A part of a part has no meaning, except a half of a slice of bytes. -/
def Constant.nests : Constant → Selector → Bool
  | .part _ (.bytes ..), .lo => false
  | .part _ (.bytes ..), .hi => false
  | .part .., _ => true
  | _, _ => false

/-- The selected part of a value, for a constant that stands at `pos`. -/
def Selector.partAt (pos : Position) (selector : Selector) (v : UInt32) : Except Error UInt32 :=
  match selector.apply? v with
  | some selected => .ok selected
  | none => .error ⟨.aborted .arithmetic, pos⟩

/-- The value of a constant that stands at `pos`. -/
def Constant.resolve (symbols : SymbolTable) (pos : Position) : Constant → Except Error UInt32
  | .number v => .ok v
  | .symbol name =>
    match symbols.address? name with
    | some address => .ok address
    | none => .error ⟨.unresolvedSymbol name, pos⟩
  | .part inner selector =>
    if inner.nests selector then
      .error ⟨.unexpected .plainConstant (.spelled inner.text), pos⟩
    else inner.resolve symbols pos >>= selector.partAt pos

/-- The constant as the number that it stands for. -/
def Constant.resolved (symbols : SymbolTable) (pos : Position) (c : Constant) :
    Except Error Constant :=
  (c.resolve symbols pos).map .number

/-- The operands with their constant resolved. -/
def Operands.resolved (symbols : SymbolTable) (pos : Position) : Operands → Except Error Operands
  | regImm r imm => return regImm r (← imm.resolved symbols pos)
  | regMem dst base offset => return regMem dst base (← offset.resolved symbols pos)
  | other => .ok other

/-- The node with its constants resolved. -/
def Node.resolved (symbols : SymbolTable) (pos : Position) : Node → Except Error Node
  | instruction i => return instruction { i with operands := ← i.operands.resolved symbols pos }
  | data (.values width cs) =>
    return data (.values width (← cs.mapM (Constant.resolved symbols pos)))
  | other => .ok other

/-- The item with its constants resolved. -/
def Item.resolved (symbols : SymbolTable) (i : Item) : Except Error Item :=
  return { i with node := ← i.node.resolved symbols i.pos }

/-- The section with its constants resolved. -/
def Section.resolved (symbols : SymbolTable) (s : Section) : Except Error Section :=
  return { s with items := ← s.items.mapM (Item.resolved symbols) }

/-- The program laid out, with its labels. -/
def analyze (p : Program) : Except Error (Program × SymbolTable) := do
  let (placed, symbols) ← place p
  return (← placed.mapM (Section.resolved symbols), symbols)

end Bisc
