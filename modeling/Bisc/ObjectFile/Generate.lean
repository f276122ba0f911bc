import Bisc.ObjectFile
import Bisc.Run
import Bisc.SymbolTable

/-!
The object file of a program that is laid out.
-/
namespace Bisc

/-- The symbol whose address is where a program starts. -/
def entrySymbol : String := "_start"

/-- The image of a section, which has the place of its first item. -/
def Section.image (s : Section) : Except Error SectionImage := do
  let bytes ← s.items.mapM Item.encode
  SectionImage.make s.name s.address bytes.flatten ((s.items.head?.map Item.pos).getD ⟨0, 0⟩)

/-- The images of the sections. -/
def images (p : Program) : Run SectionImage := .each Section.image p

/-- Where a program starts: at its entry symbol, else at its first executable section, else at
    zero. -/
def entryPoint (symbols : SymbolTable) (sections : List SectionImage) : UInt32 :=
  (symbols.address? entrySymbol <|>
    (sections.find? fun s => s.flags.execute).map SectionImage.address).getD 0

/-- The object file of a program with its labels. -/
def generate (p : Program) (symbols : SymbolTable) : Except Error ObjectFile := do
  let sections ← (images p).result
  return ⟨entryPoint symbols sections, sections⟩

end Bisc
