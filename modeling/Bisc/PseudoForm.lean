import Bisc.Text.Replace
import Bisc.Token.Lexer

/-!
Pseudo-instructions: which form the arguments of one are spelled in, and the source lines that the
form stands for. The first form whose signature takes the arguments exactly is the one meant; its
template is filled with the text of the operands and read as source.
-/
namespace Bisc

/-- The kinds of tokens that select bytes of a symbol: two numbers with a colon, in parentheses. -/
def sliceKinds : List TokenKind := [.leftParen, .immediate, .colon, .immediate, .rightParen]

/-- The number of tokens of an immediate: a number, or a symbol and maybe a slice of its bytes. A
    half of a value is none here, because the instructions that an immediate ends up in take the
    halves themselves. -/
def immediateLength? : List Token → Option Nat
  | [] => none
  | t :: ts =>
    match t.kind with
    | .immediate => some 1
    | .identifier => some (if (ts.take 5).map Token.kind = sliceKinds then 6 else 1)
    | _ => none

/-- The number of tokens that the operand of a kind takes at the front of a token list. -/
def OperandKind.length? : OperandKind → List Token → Option Nat
  | .register, t :: _ => if t.kind = .register then some 1 else none
  | .immediate, ts => immediateLength? ts
  | .memory, base :: bracket :: ts =>
    if base.kind = .register ∧ bracket.kind = .leftBracket then
      match immediateLength? ts with
      | some n =>
        if (ts.drop n).head?.map Token.kind = some .rightBracket then some (n + 3) else none
      | none => none
    else none
  | _, _ => none

/-- The operands in a token list: one of each kind, with exactly one comma between them and nothing
    after the last. -/
def splitOperands : List OperandKind → List Token → Option (List (List Token))
  | [], [] => some []
  | [], _ :: _ => none
  | kind :: kinds, ts =>
    match kind.length? ts with
    | none => none
    | some n =>
      match ts.drop n with
      | [] => if kinds.isEmpty then some [ts.take n] else none
      | comma :: rest =>
        if kinds.isEmpty ∨ comma.kind ≠ .comma then none
        else (splitOperands kinds rest).map (ts.take n :: ·)

namespace PseudoForm

/-- The texts of the operands, if the arguments are spelled in this form. -/
def operands? (form : PseudoForm) (arguments : List Token) : Option (List String) :=
  (splitOperands form.signature arguments).map (·.map Token.render)

/-- A template line with the texts of operands in place of their placeholders, one operand after
    the other. -/
def fill (operands : List String) (line : String) : List Char :=
  operands.zipIdx.foldl
    (fun text (operand, i) => Text.replaceAll (slot i).toList operand.toList text) line.toList

/-- The tokens that a form stands for where the mnemonic `origin` stands: each template line with a
    separator, all at the place of the mnemonic and one level deeper. -/
def unfold (isa : InstructionSet) (form : PseudoForm) (operands : List String) (origin : Token) :
    List Token :=
  form.template.flatMap fun line =>
    (tokenizeLine isa (fill operands line) origin.pos.line ++ [Token.separator origin.pos 0]).map
      (Token.retag origin.pos (origin.depth + 1))

end PseudoForm

/-- The first form that the arguments are spelled in, with the texts of the operands. -/
def matchForm? (forms : List PseudoForm) (arguments : List Token) :
    Option (PseudoForm × List String) :=
  forms.findSome? fun form => (form.operands? arguments).map (form, ·)

end Bisc
