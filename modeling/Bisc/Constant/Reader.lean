import Bisc.Constant
import Bisc.Reader

/-!
Reading of constants: a number, a symbol, a slice of one or two bytes of a symbol, or the lower or
upper half of one of these.
-/
namespace Bisc.Reader

/-- Takes the bytes selected of a symbol, after its name. -/
def slice (symbol : Token) : Reader Constant := do
  let _ ← expect .leftParen
  let first := (← expect .immediate).number
  let _ ← expect .colon
  let last := (← expect .immediate).number
  let _ ← expect .rightParen
  if first > last ∨ last > 3 ∨ last.toNat - first.toNat > 1 then
    throw ⟨.outOfRange (.slice symbol.raw first last), symbol.pos⟩
  return .part (.symbol symbol.raw) (.bytes first.toUInt8 last.toUInt8)

/-- Takes the rest of a number, a symbol or a slice that starts with `t`. -/
def plainConstant (what : Expected) (t : Token) : Reader Constant := do
  match t.kind with
  | .immediate => return .number t.number
  | .identifier => if ← nextIs .leftParen then slice t else return .symbol t.raw
  | _ => throw (t.refused what)

/-- The half of a value that a word names. -/
def halfSelector (t : Token) : Except Error Selector :=
  if t.name = "lo" then .ok .lo
  else if t.name = "hi" then .ok .hi
  else .error (t.unexpected .halfSelector)

/-- Takes a constant. -/
def constant : Reader Constant := do
  let t ← next .constant
  if t.kind = .directive then
    let selector ← halfSelector (← word .halfSelector)
    return .part (← plainConstant .plainConstant (← next .constant)) selector
  else plainConstant .constant t

end Bisc.Reader
