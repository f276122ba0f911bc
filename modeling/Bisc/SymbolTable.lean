import Bisc.Error

/-!
Symbol tables: the labels of a program with their addresses, in the order of their names. A name
keeps its first definition.
-/
namespace Bisc

/-- The address of a label, and the line of its definition. -/
structure Symbol where
  address : UInt32
  line : Nat
deriving DecidableEq

/-- Labels in the order of their names. Names are ordered by code points, which is the order of
    their UTF-8 bytes. -/
structure SymbolTable where
  entries : List (String × Symbol)
deriving DecidableEq

/-- Puts an entry before the first that has a greater name. -/
def insertByName (name : String) (symbol : Symbol) :
    List (String × Symbol) → List (String × Symbol)
  | [] => [(name, symbol)]
  | e :: es => if name < e.1 then (name, symbol) :: e :: es else e :: insertByName name symbol es

namespace SymbolTable

/-- The table without labels. -/
def empty : SymbolTable := ⟨[]⟩

/-- The definition of a name. -/
def get? (t : SymbolTable) (name : String) : Option Symbol := t.entries.lookup name
/-- The address of a name. -/
def address? (t : SymbolTable) (name : String) : Option UInt32 := (t.get? name).map Symbol.address
/-- The number of names. -/
def size (t : SymbolTable) : Nat := t.entries.length

/-- Adds a label defined in a column of its line, unless the name is taken. -/
def insert (t : SymbolTable) (name : String) (symbol : Symbol) (column : Nat) :
    Except Error SymbolTable :=
  if (t.get? name).isSome then .error ⟨.duplicateSymbol name, ⟨symbol.line, column⟩⟩
  else .ok ⟨insertByName name symbol t.entries⟩

end SymbolTable
end Bisc
