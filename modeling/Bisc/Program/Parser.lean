import Bisc.Expansion
import Bisc.PseudoForm
import Bisc.Statement

/-!
The program of a token list. No statement goes beyond its line: a line has labels and comments,
then at most one statement. A pseudo-instruction stands for lines that are read in its place.
-/
namespace Bisc

/-- The step of an instruction with mnemonic `t`. -/
def instructionStep (isa : InstructionSet) (t : Token) : Reader (List Step) := do
  return [.item { node := .instruction (← Reader.instruction isa t), pos := t.pos }]

/-- The error of arguments in no form of the pseudo-instruction `t`. -/
def noFormError (t : Token) (arguments : List Token) : Error :=
  match arguments.find? fun a => a.kind = .invalid with
  | some bad => ⟨.invalidToken bad.raw, bad.pos⟩
  | none =>
    let found := if arguments.isEmpty then .noOperands else .spelled (Token.render arguments)
    ⟨.unexpected (.operandsOf t.name) found, t.pos⟩

/-- The steps of the pseudo-instruction `t`, whose line goes on with `rest`; `readLines` reads the
    lines it stands for. Arguments in none of its forms are those of the real instruction of the
    same name. -/
def readPseudo (isa : InstructionSet) (readLines : List Token → Run Step) (t : Token)
    (rest : List Token) : Run Step :=
  let stop := (Token.afterLine rest).take 1
  let arguments := Token.uncommented (Token.line rest)
  match matchForm? (isa.forms t.name) arguments with
  | some (form, operands) =>
    if t.depth ≥ maxDepth then .fail ⟨.expansionDepth t.raw, t.pos⟩
    else .cons (.unfolded t.pos t.name operands form) (readLines (form.unfold isa operands t))
  | none =>
    if (isa.opcode? t.name).isSome then
      let last := (Token.line rest ++ stop).getLast?.map Token.pos
      Reader.statement (instructionStep isa t) ⟨arguments ++ stop, last.getD t.pos⟩
    else .fail (noFormError t arguments)

/-- The steps of a line. -/
def readLine (isa : InstructionSet) (readLines : List Token → Run Step) : List Token → Run Step
  | [] => .done
  | t :: rest =>
    match t.kind with
    | .comment | .lineSeparator => readLine isa readLines rest
    | .identifier =>
      match rest with
      | [] => .fail ⟨.unexpected (.token .colon) .endOfFile, t.pos⟩
      | colon :: ts =>
        if colon.kind = .colon then
          .cons (.item { node := .label t.raw, pos := t.pos }) (readLine isa readLines ts)
        else .fail (colon.refused (.token .colon))
    | .opcode => Reader.statement (instructionStep isa t) ⟨rest, t.pos⟩
    | .pseudoOp => readPseudo isa readLines t rest
    | .directive => Reader.statement (Reader.directive t) ⟨rest, t.pos⟩
    | _ => .fail (t.refused .statement)

/-- The steps of a token list, with lines of pseudo-instructions read to a nesting of less than
    `n`. -/
def readTokens (isa : InstructionSet) : Nat → List Token → Run Step
  | 0, _ => .done
  | n + 1, ts => ((Token.lines ts).map (readLine isa (readTokens isa n))).foldr (· ++ ·) .done

/-- The steps of a token list. Lines that a pseudo-instruction stands for are deeper than it is, so
    the bound on depth is one on nesting too. -/
def steps (isa : InstructionSet) (ts : List Token) : Run Step := readTokens isa (maxDepth + 1) ts

/-- A section as the source has it: the record of its start, unless it is the one before any
    directive, and the items that follow. -/
structure Block where
  name : String
  start : Option Item
  items : List Item
deriving DecidableEq

/-- The items before the first section that steps start, and the sections they start. -/
def blocksFrom : List Step → List Item × List Block
  | [] => ([], [])
  | .item i :: ss =>
    let (items, blocks) := blocksFrom ss
    (i :: items, blocks)
  | .newSection name pos :: ss =>
    let (items, blocks) := blocksFrom ss
    ([], ⟨name, some { node := .sectionStart name, pos }, items⟩ :: blocks)
  | .unfolded .. :: ss => blocksFrom ss

/-- The sections of steps; what comes before any is in `.text`. -/
def blocks (ss : List Step) : List Block :=
  let (items, rest) := blocksFrom ss
  ⟨".text", none, items⟩ :: rest

/-- The sections that have content. The records of definitions in one that has none go to the next,
    after the record of its start. -/
def contentSections (carried : List Item) : List Block → Program
  | [] => []
  | b :: bs =>
    let s : Section := ⟨b.name, b.start.toList ++ carried ++ b.items⟩
    if s.hasContent then s :: contentSections [] bs
    else contentSections (carried ++ b.items) bs

/-- The program of a token list in which invocations are expanded. -/
def parse (isa : InstructionSet) (ts : List Token) : Except Error Program := do
  return contentSections [] (blocks (← (steps isa ts).result))

end Bisc
