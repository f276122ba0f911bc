import Bisc.Run

/-!
Definitions of constants and macros. A token list is cut into segments: the line of a constant, a
macro with its body, and every other token by itself. Definitions are known from anywhere in the
list, and what is kept of it is all but the bodies of macros.
-/
namespace Bisc

/-- A macro: the names of its parameters, and the tokens an invocation stands for. -/
structure Macro where
  params : List String
  body : List Token
deriving DecidableEq

/-- The constants and macros that can be invoked, by name. -/
structure Definitions where
  constants : List (String × List Token)
  macros : List (String × Macro)
deriving DecidableEq

/-- A segment of a token list: `line` is a line without its separator, `header` one with it, and
    the body of a macro ends before the directive that closes it. -/
inductive Segment
  | plain (token : Token)
  | constant (name : Token) (line : List Token)
  | macroDefinition (name : Token) (params : List String) (header body : List Token)
deriving DecidableEq

namespace Segment

/-- The tokens of a segment. -/
def tokens : Segment → List Token
  | plain t => [t]
  | constant _ line => line
  | macroDefinition _ _ header body => header ++ body

/-- The tokens that stay in the list for later readers. -/
def kept : Segment → List Token
  | plain t => [t]
  | constant _ line => line
  | macroDefinition _ _ header _ => header

/-- The name that a segment defines. -/
def name? : Segment → Option Token
  | plain _ => none
  | constant name _ => some name
  | macroDefinition name _ _ _ => some name

/-- The constant that a segment defines: the line after the name, without comments. -/
def definedConstant? : Segment → Option (String × List Token)
  | constant name line => some (name.raw, Token.uncommented (line.drop 3))
  | _ => none

/-- The macro that a segment defines. -/
def definedMacro? : Segment → Option (String × Macro)
  | macroDefinition name params _ body => some (name.raw, ⟨params, body⟩)
  | _ => none

end Segment

/-- The name of the directive that a token list begins with, in lower case. -/
def directiveAt? : List Token → Option String
  | dot :: word :: _ => if dot.kind = .directive ∧ word.isWord then some word.name else none
  | _ => none

/-- The name that a definition gives, after its directive. -/
def definitionName (what : Expected) (dot : Token) : List Token → Except Error Token
  | [] => .error ⟨.unexpected what .endOfFile, dot.pos⟩
  | t :: _ => if t.isWord then .ok t else .error (t.unexpected what)

/-- The parameters in the header of a macro: distinct names with commas between them. -/
def readParams (seen : List String) : List Token → Except Error (List String)
  | [] => .ok []
  | [t] =>
    if !t.isWord then .error (t.unexpected .parameterName)
    else if t.raw ∈ seen then .error ⟨.duplicateSymbol t.raw, t.pos⟩
    else .ok [t.raw]
  | t :: comma :: ts =>
    if !t.isWord then .error (t.unexpected .parameterName)
    else if t.raw ∈ seen then .error ⟨.duplicateSymbol t.raw, t.pos⟩
    else if comma.kind ≠ .comma then .error (comma.unexpected (.token .comma))
    else if ts.isEmpty then .error ⟨.unexpected .parameterName .endOfLine, comma.pos⟩
    else (readParams (t.raw :: seen) ts).map (t.raw :: ·)

/-- The number of tokens before the first directive that closes a macro. -/
def bodyLength? : List Token → Option Nat
  | [] => none
  | t :: ts =>
    if directiveAt? (t :: ts) ∈ [some "endmacro", some "endm"] then some 0
    else (bodyLength? ts).map (· + 1)

/-- The definition of a constant at the front of a token list. -/
def readConstantDefinition (dot : Token) (ts : List Token) : Except Error Segment := do
  let name ← definitionName .constantName dot (ts.drop 1)
  return .constant name (Token.line (dot :: ts))

/-- The definition of a macro at the front of a token list. -/
def readMacroDefinition (dot : Token) (ts : List Token) : Except Error Segment := do
  let name ← definitionName .macroName dot (ts.drop 1)
  let line := Token.line (dot :: ts)
  let after := Token.afterLine (dot :: ts)
  let params ← readParams [] (Token.uncommented (line.drop 3))
  match bodyLength? (after.drop 1) with
  | none => throw ⟨.unexpected .macroEnd .endOfFile, name.pos⟩
  | some n => return .macroDefinition name params (line ++ after.take 1) ((after.drop 1).take n)

/-- The segment at the front of the token list `t :: ts`. -/
def readSegment (t : Token) (ts : List Token) : Except Error Segment :=
  match directiveAt? (t :: ts) with
  | some "define" => readConstantDefinition t ts
  | some "macro" => readMacroDefinition t ts
  | _ => .ok (.plain t)

/-- The segments of a token list, given the names already defined and how many tokens still belong
    to the last segment. No name is defined twice. -/
def segmentsFrom : List String → Nat → List Token → Run Segment
  | _, _, [] => .done
  | taken, skip + 1, _ :: ts => segmentsFrom taken skip ts
  | taken, 0, t :: ts =>
    match readSegment t ts with
    | .error e => .fail e
    | .ok segment =>
      match segment.name? with
      | none => .cons segment (segmentsFrom taken (segment.tokens.length - 1) ts)
      | some name =>
        if name.raw ∈ taken then .fail ⟨.duplicateSymbol name.raw, name.pos⟩
        else .cons segment (segmentsFrom (name.raw :: taken) (segment.tokens.length - 1) ts)

/-- The segments of a token list. -/
def segments (ts : List Token) : Run Segment := segmentsFrom [] 0 ts

/-- The definitions among segments. -/
def Definitions.ofSegments (ss : List Segment) : Definitions :=
  ⟨ss.filterMap Segment.definedConstant?, ss.filterMap Segment.definedMacro?⟩

end Bisc
