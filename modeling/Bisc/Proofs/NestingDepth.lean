import Bisc.Proofs.ParserLoop
import Bisc.Proofs.Placeless
import Bisc.Proofs.PseudoExpansion
import Bisc.Proofs.Reports
import Bisc.Proofs.Slices

/-!
How deeply the pseudo-instructions nest. The lines of a form begin with mnemonics of their own,
whatever stands in their slots, and no chain of mnemonics is longer than three: `goto` stands for a
`jmp`, which loads its operand by `li`, which stands for real instructions. A mnemonic that is real
as well takes a form only once, because the line that it stands for is in none. So a mnemonic three
levels below the greatest depth is never too deep, nor is anything that it stands for.
-/
namespace Bisc

/-! ## Runs that no depth stops -/

/-- The run was not stopped by a mnemonic that is too deep. -/
def Run.Shallow (r : Run Step) : Prop := ∀ raw pos, r.failure ≠ some ⟨.expansionDepth raw, pos⟩

section Shallow

variable {isa : InstructionSet} {readLines : List Token → Run Step} {r : Run Step} {t : Token} {ts rest : List Token}

theorem Run.shallow_iff : r.Shallow ↔ r.FailsWith fun e => ∀ raw, e.cause ≠ .expansionDepth raw := by
  constructor
  · rintro shallow ⟨cause, pos⟩ failed raw rfl
    exact shallow raw pos failed
  · intro fails raw pos failed
    exact fails _ failed raw rfl

theorem shallow_of_reported {e : Error} (reported : Reported ts e) (raw : String) :
    e.cause ≠ .expansionDepth raw := by
  cases reported <;> simp

theorem shallow_done : Run.done.Shallow := Run.shallow_iff.mpr failsWith_done

theorem shallow_statement {reader : Reader (List Step)}
    (reports : ∀ ts, Reports ts (fun _ => True) reader) (c : Cursor) :
    (Reader.statement reader c).Shallow :=
  Run.shallow_iff.mpr (failsWith_statement reports fun _ => shallow_of_reported)

/-- A pseudo-instruction is shallow if it takes no form, or one that it may take and whose lines are. -/
theorem shallow_readPseudo (unfolds : ∀ form operands,
      matchForm? (isa.forms t.name) (Token.uncommented (Token.line rest)) = some (form, operands) →
        t.depth < maxDepth ∧ (readLines (form.unfold isa operands t)).Shallow) :
        (readPseudo isa readLines t rest).Shallow := by
  refine Run.shallow_iff.mpr (failsWith_readPseudo (fun _ => shallow_of_reported) fun form operands found => ?_)
  obtain ⟨above, lines⟩ := unfolds form operands found
  exact ⟨fun below => absurd above (by omega), fun _ => Run.shallow_iff.mp lines⟩

/-- A line is shallow if its pseudo-instruction is. -/
theorem shallow_readLine (pseudo : ∀ front t rest, ts = front ++ t :: rest → t.kind = .pseudoOp →
      (readPseudo isa readLines t rest).Shallow) : (readLine isa readLines ts).Shallow :=
  Run.shallow_iff.mpr (failsWith_readLine (fun _ => shallow_of_reported) fun front t rest split kind =>
    Run.shallow_iff.mp (pseudo front t rest split kind))

/-- A list is shallow if all of its lines are. -/
theorem shallow_readTokens {n : Nat} (each : ∀ l ∈ Token.lines ts, (readLine isa (readTokens isa n) l).Shallow) :
    (readTokens isa (n + 1) ts).Shallow :=
  Run.shallow_iff.mpr (failsWith_readTokens fun l member => Run.shallow_iff.mp (each l member))

theorem lines_whole {ls : List (List Token)} (whole : ∀ l ∈ ls, Terminated l) : Token.lines ls.flatten = ls := by
  induction ls with
  | nil => rfl
  | cons l ls ih =>
    obtain ⟨first, others⟩ := List.forall_mem_cons.mp whole
    rw [List.flatten_cons, lines_terminated_append first, ih others]

end Shallow

/-! ## The mnemonics of lines -/

/-- The token stands in front of a template line whatever is put into the slots: it has no slot in
    it, and a blank or the end of the line follows it. -/
def Token.leads (t : Token) (line : String) : Bool :=
  t.spelled bisc && t.kind.isCode && '\x7b' ∉ t.raw.toList &&
    (line.toList = t.raw.toList || (t.raw.toList ++ [' ']).isPrefixOf line.toList)

/-- The lines of `li` are real instructions, and no line is a `goto`. -/
theorem mnemonic_of_line {name : String} {form : PseudoForm} (listed : (name, form) ∈ pseudoTable) {line : String}
    (member : line ∈ form.template) :
    ∃ t : Token, t.leads line ∧ (t.kind = .opcode ∨ t.kind = .pseudoOp ∧ name ≠ "li" ∧ t.name ≠ "goto") := by
  let first (line : String) : Token :=
    let word := line.toList.takeWhile (· ≠ ' ')
    Token.fixed (Lexeme.classify bisc word).1 (String.ofList word) (Lexeme.classify bisc word).2
  have table : ∀ entry ∈ pseudoTable, ∀ line ∈ entry.2.template, (first line).leads line ∧
      ((first line).kind = .opcode ∨
      (first line).kind = .pseudoOp ∧ entry.1 ≠ "li" ∧ (first line).name ≠ "goto") := by decide +kernel
  exact ⟨first line, table _ listed line member⟩

/-- Text in front of a line that has no brace in it stays in front. -/
theorem foldl_replaceAll_append {free : List Char} (plain : '\x7b' ∉ free)
    (slots : List (String × Nat)) (tail : List Char) :
    slots.foldl (fun text (operand, i) => Text.replaceAll (slot i).toList operand.toList text) (free ++ tail) =
      free ++ slots.foldl (fun text (operand, i) => Text.replaceAll (slot i).toList operand.toList text) tail := by
  induction slots generalizing tail with
  | nil => rfl
  | cons o slots ih =>
    obtain ⟨operand, i⟩ := o
    have mark : (slot i).toList = '\x7b' :: ((toString i).toList ++ ['\x7d']) := by simp [slot]
    simp only [List.foldl_cons]
    rw [mark, replaceAll_append_of_free plain, ih]

theorem fill_of_leads {t : Token} {line : String} (leads : t.leads line) (operands : List String) :
    ∃ tail, PseudoForm.fill operands line = t.raw.toList ++ tail ∧ Stops tail := by
  simp only [Token.leads, Bool.and_eq_true, Bool.or_eq_true, decide_eq_true_eq, List.isPrefixOf_iff_prefix] at leads
  obtain ⟨⟨-, plain⟩, alone | ⟨tail, spelled⟩⟩ := leads
  · have filled := foldl_replaceAll_append plain operands.zipIdx []
    rw [List.append_nil, ← alone] at filled
    refine ⟨_, filled.trans (by rw [alone]), ?_⟩
    rw [List.foldl_fixed' fun o => rfl]
    exact stops_nil
  · have free : '\x7b' ∉ t.raw.toList ++ [' '] := by simp [plain]
    have filled := foldl_replaceAll_append free operands.zipIdx tail
    rw [spelled, List.append_assoc, List.singleton_append] at filled
    exact ⟨_, filled, stops_cons (by decide)⟩

/-- A template line is read as its mnemonic and what follows it, whatever is put into the slots. -/
theorem tokenizeLine_fill {t : Token} {line : String} (leads : t.leads line) (operands : List String) (number : Nat) :
    ∃ body, tokenizeLine bisc (PseudoForm.fill operands line) number = t.retag ⟨number, 1⟩ 0 :: body := by
  obtain ⟨tail, filled, stops⟩ := fill_of_leads leads operands
  simp only [Token.leads, Bool.and_eq_true] at leads
  obtain ⟨⟨⟨spelled, code⟩, -⟩, -⟩ := leads
  obtain ⟨c, cs, raw, inked, scanned⟩ := Token.spelled_iff.mp spelled
  have again := (Lexeme.scan_again scanned code).2 tail fun _ => stops
  rw [List.take_length] at again
  rw [filled, raw, List.cons_append, tokenizeLine, tokensFrom, if_neg (by simp [inked]), again]
  refine ⟨_, congrArg (· :: _) ?_⟩
  simp only [List.take_left, ← raw, String.ofList_toList]
  rfl

/-! ## Levels -/

section Levels

variable {t : Token} {rest : List Token}

theorem split_of_matchForm? {forms : List PseudoForm} {arguments : List Token} {form : PseudoForm}
    {operands : List String}
    (found : matchForm? forms arguments = some (form, operands)) : form ∈ forms ∧
      ∃ groups, splitOperands form.signature arguments = some groups ∧ operands = groups.map Token.render := by
  obtain ⟨form', member, taken⟩ := List.exists_of_findSome?_eq_some found
  obtain ⟨texts, spelled, same⟩ := Option.map_eq_some_iff.mp taken
  obtain ⟨groups, split, rfl⟩ := Option.map_eq_some_iff.mp spelled
  cases same
  exact ⟨member, groups, split, rfl⟩

/-- Operands of a form of the table come back from its template if they were read from a text. -/
theorem fillable_of_split {name : String} {form : PseudoForm} (listed : (name, form) ∈ pseudoTable)
    {arguments : List Token}
    {groups : List (List Token)} (split : splitOperands form.signature arguments = some groups)
    (spelled : ∀ t ∈ arguments, t.WellSpelled bisc) : AreOperands form.signature groups ∧ Fillable groups := by
  have simple : ∀ entry ∈ pseudoTable, OperandKind.memory ∉ entry.2.signature ∧
      OperandKind.immediate ∉ entry.2.signature.dropLast := by decide
  obtain ⟨operands, inside⟩ := areOperands_of_split (simple _ listed).1 split
  exact ⟨operands, fillable_of_areOperands operands (simple _ listed).2 fun a group u own =>
    spelled u (inside a group own)⟩

/-- Arguments in a form are operands of its signature, and come back from its template if they were
    read from a text. -/
theorem fillable_of_matchForm? {name : String} {arguments : List Token} {form : PseudoForm} {texts : List String}
    (found : matchForm? (bisc.forms name) arguments = some (form, texts))
    (spelled : ∀ t ∈ arguments, t.WellSpelled bisc) :
    ∃ groups, (name, form) ∈ pseudoTable ∧ AreOperands form.signature groups ∧ Fillable groups ∧
      texts = groups.map Token.render := by
  obtain ⟨member, groups, split, rfl⟩ := split_of_matchForm? found
  have listed := mem_pseudoTable member
  obtain ⟨operands, fillable⟩ := fillable_of_split listed split spelled
  exact ⟨groups, listed, operands, fillable, rfl⟩

/-- The lines of a form are shallow if those that begin with pseudo-instructions are. -/
theorem shallow_unfold {name : String} {form : PseudoForm} (listed : (name, form) ∈ pseudoTable)
    (operands : List String) (n : Nat)
    (lines : ∀ m u us, u.kind = .pseudoOp → name ≠ "li" → u.name ≠ "goto" → u.depth = t.depth + 1 →
      (∀ v ∈ us, v.WellSpelled bisc) → (readPseudo bisc (readTokens bisc m) u us).Shallow) :
    (readTokens bisc n (form.unfold bisc operands t)).Shallow := by
  cases n with
  | zero => exact shallow_done
  | succ n =>
    rw [unfold_eq_produced]
    refine shallow_readTokens ?_
    rw [lines_whole (terminated_of_unfold form operands t), List.forall_mem_map]
    intro line member
    obtain ⟨mnemonic, leads, kinds⟩ := mnemonic_of_line listed member
    obtain ⟨body, read⟩ := tokenizeLine_fill leads operands t.pos.line
    rw [read, Token.produced_cons]
    rcases kinds with real | ⟨pseudo, other, named⟩
    · rw [readLine_opcode _ (by simpa using real)]
      exact shallow_statement (fun ts => .instructionStep bisc _) _
    · rw [readLine_pseudoOp _ (by simpa using pseudo)]
      refine lines n _ _ pseudo other named rfl fun v inside => ?_
      rcases List.mem_append.mp inside with operand | stop
      · obtain ⟨w, own, rfl⟩ := List.mem_map.mp operand
        have lexed : w ∈ tokensFrom bisc t.pos.line 1 0 (PseudoForm.fill operands line) := by
          rw [← tokenizeLine, read]
          exact List.mem_cons_of_mem _ own
        exact Token.wellSpelled_retag _ _ (wellSpelled_of_tokensFrom lexed)
      · cases List.mem_singleton.mp stop
        intro code
        cases code

/-- The mnemonic that real instructions stand for is the last level. -/
theorem shallow_li (n : Nat) (named : t.name = "li") (room : t.depth < maxDepth) :
    (readPseudo bisc (readTokens bisc n) t rest).Shallow := by
  refine shallow_readPseudo fun form operands found => ⟨room, ?_⟩
  obtain ⟨member, -⟩ := split_of_matchForm? found
  exact shallow_unfold (mem_pseudoTable member) operands n fun m u us _ other => absurd named other

/-! ## Lines in no form -/

/-- The tokens of a piece, with a register in every slot. -/
def Piece.withRegisters : Piece → List Token
  | token t => [t]
  | blank => []
  | slot _ => [Token.register "" 0]

/-- The slot of a piece, if it is one, holds a register. -/
def Piece.takesRegister (kinds : List OperandKind) : Piece → Bool
  | slot n => kinds[n]? = some .register
  | _ => true

/-- A template line with which unfolding ends: one of a real instruction, of `li`, or of a mnemonic
    with registers in the slots that are in none of its forms. -/
def endsUnfolding (kinds : List OperandKind) : List Piece → Bool
  | .token t :: ps => t.kind = .opcode || t.kind =
      .pseudoOp && (t.name = "li" || ps.all (Piece.takesRegister kinds) &&
      (bisc.forms t.name).all fun form => (splitOperands form.signature (ps.flatMap Piece.withRegisters)).isNone)
  | _ => false

theorem endsUnfolding_of_listed {name : String} {form : PseudoForm} (listed : (name, form) ∈ pseudoTable)
    (other : name ≠ "goto") :
    ∀ line ∈ form.shape, endsUnfolding form.signature line := by
  have table : ∀ entry ∈ shapes, entry.1 ≠ "goto" → ∀ line ∈ entry.2.2, endsUnfolding entry.2.1 line := by
    decide +kernel
  exact table _ (shape_of_listed listed) other

/-- Whether operands are in a signature depends on the kinds of their tokens only. -/
theorem splitOperands_kinds (kinds : List OperandKind) {ts us : List Token}
    (same : ts.map Token.kind = us.map Token.kind) :
    (splitOperands kinds ts).isNone = (splitOperands kinds us).isNone := by
  let bare (t : Token) : Token := Token.fixed t.kind "" none
  have bared : ts.map bare = us.map bare := by
    have mapped (vs : List Token) : vs.map bare = (vs.map Token.kind).map fun kind => Token.fixed kind "" none := by
      rw [List.map_map]
      rfl
    rw [mapped, mapped, same]
  have keeps (t : Token) : (bare t).kind = t.kind := rfl
  have split (vs : List Token) : (splitOperands kinds (vs.map bare)).isNone = (splitOperands kinds vs).isNone := by
    rw [splitOperands_map keeps, Option.isNone_map]
  rw [← split ts, ← split us, bared]

theorem register_of_areOperands {kinds : List OperandKind} {arguments : List (List Token)}
    (operands : AreOperands kinds arguments)
    {n : Nat} (kind : kinds[n]? = some .register) : ∃ r : Token, arguments.getD n [] = [r] ∧ r.kind = .register := by
  induction operands generalizing n with
  | nil => simp at kind
  | register own rest ih =>
    cases n with
    | zero => exact ⟨_, rfl, own⟩
    | succ n => exact ih kind
  | immediate shape rest ih =>
    cases n with
    | zero => simp at kind
    | succ n => exact ih kind

/-- Registers of any names have the kinds of registers. -/
theorem kinds_withRegisters {kinds : List OperandKind} {arguments : List (List Token)}
    (operands : AreOperands kinds arguments)
    {ps : List Piece} (registers : ∀ p ∈ ps, p.takesRegister kinds) :
    (ps.flatMap (Piece.tokens arguments)).map Token.kind = (ps.flatMap Piece.withRegisters).map Token.kind := by
  induction ps with
  | nil => rfl
  | cons p ps ih =>
    obtain ⟨first, others⟩ := List.forall_mem_cons.mp registers
    rw [List.flatMap_cons, List.flatMap_cons, List.map_append, List.map_append, ih others]
    refine congrArg (· ++ _) ?_
    cases p with
    | token t => rfl
    | blank => rfl
    | slot n =>
      obtain ⟨r, here, register⟩ := register_of_areOperands operands (by simpa [Piece.takesRegister] using first)
      rw [Piece.tokens, here, List.map_singleton, register]
      rfl

/-- The lines of a form mean something, all over. -/
theorem code_of_lines {name : String} {form : PseudoForm} (listed : (name, form) ∈ pseudoTable)
    {arguments : List (List Token)}
    (fillable : Fillable arguments) : ∀ l ∈ form.lines arguments, ∀ t ∈ l, t.kind.isCode := by
  have table : ∀ entry ∈ shapes, ∀ line ∈ entry.2.2, ∀ p ∈ line, ∀ t ∈ p.tokens [], t.kind.isCode := by decide
  intro l member t inside
  obtain ⟨line, shaped, rfl⟩ := List.mem_map.mp member
  obtain ⟨p, piece, own⟩ := List.mem_flatMap.mp inside
  cases p with
  | token u => exact table _ (shape_of_listed listed) line shaped _ piece t own
  | blank => cases own
  | slot n =>
    rw [Piece.tokens, List.getD_eq_getElem?_getD] at own
    cases found : arguments[n]? with
    | none => simp [found] at own
    | some a => exact fillable.code a (List.mem_of_getElem? found) t (by simpa [found] using own)

/-- A line with which unfolding ends is shallow one level above the greatest depth. -/
theorem shallow_of_endsUnfolding (n : Nat) {kinds : List OperandKind} {arguments : List (List Token)}
    (operands : AreOperands kinds arguments) {line : List Piece} (ends : endsUnfolding kinds line)
    (code : ∀ t ∈ line.flatMap (Piece.tokens arguments), t.kind.isCode) {pos : Position} {depth : Nat}
    (room : depth < maxDepth) :
    (readLine bisc (readTokens bisc n)
      (Token.produced pos depth (line.flatMap (Piece.tokens arguments)))).Shallow := by
  match line, ends with
  | .token u :: ps, ends =>
    have whole : (Piece.token u :: ps).flatMap (Piece.tokens arguments) = u :: ps.flatMap
        (Piece.tokens arguments) := rfl
    rw [whole] at code ⊢
    rw [Token.produced_cons]
    simp only [endsUnfolding, Bool.or_eq_true, Bool.and_eq_true, decide_eq_true_eq, List.all_eq_true] at ends
    rcases ends with real | ⟨pseudo, load | ⟨registers, unmatched⟩⟩
    · rw [readLine_opcode _ (by simpa using real)]
      exact shallow_statement (fun ts => .instructionStep bisc _) _
    · rw [readLine_pseudoOp _ (by simpa using pseudo)]
      exact shallow_li n (by simpa using load) room
    · rw [readLine_pseudoOp _ (by simpa using pseudo)]
      -- A form would have to take the registers of the line, and which it takes does not depend on their names.
      refine shallow_readPseudo fun form texts found => ?_
      obtain ⟨inline, -, plain⟩ := line_produced pos depth fun v member => code v (List.mem_cons_of_mem _ member)
      rw [inline, plain, Token.retag_name, matchForm?_retag] at found
      obtain ⟨member, groups, split, -⟩ := split_of_matchForm? found
      have none := unmatched form member
      rw [← splitOperands_kinds _ (kinds_withRegisters operands registers), split] at none
      cases none

/-- A mnemonic other than `goto` that was read from a text needs two levels. -/
theorem shallow_direct (n : Nat) (named : t.name ≠ "goto") (spelled : ∀ u ∈ rest, u.WellSpelled bisc)
    (room : t.depth + 1 < maxDepth) : (readPseudo bisc (readTokens bisc n) t rest).Shallow := by
  refine shallow_readPseudo fun form texts found => ⟨by omega, ?_⟩
  -- Operands that were read from a text are read again as they are, so the lines are known token by token.
  obtain ⟨groups, listed, operands, fillable, rfl⟩ := fillable_of_matchForm? found fun u member =>
    spelled u ((List.takeWhile_sublist _).subset (List.mem_filter.mp member).1)
  have code := code_of_lines listed fillable
  cases n with
  | zero => exact shallow_done
  | succ n =>
    rw [form.unfold_eq listed (length_of_areOperands operands) fillable, List.flatMap_def]
    refine shallow_readTokens ?_
    rw [lines_whole (List.forall_mem_map.mpr fun l line => terminated_produced _ _ (code l line)),
      List.forall_mem_map]
    intro l line
    obtain ⟨pieces, shaped, rfl⟩ := List.mem_map.mp line
    exact shallow_of_endsUnfolding n operands (endsUnfolding_of_listed listed named pieces shaped) (code _ line) room

/-- Any mnemonic, with whatever arguments, needs three levels. -/
theorem shallow_pseudo (n : Nat) (room : t.depth + 2 < maxDepth) :
    (readPseudo bisc (readTokens bisc n) t rest).Shallow := by
  refine shallow_readPseudo fun form texts found => ⟨by omega, ?_⟩
  obtain ⟨member, -⟩ := split_of_matchForm? found
  refine shallow_unfold (mem_pseudoTable member) texts n fun m u us _ _ named below spelled => ?_
  exact shallow_direct m named spelled (by omega)

end Levels

/-- No mnemonic is too deep in a list that leaves three levels. -/
theorem shallow_steps {ts : List Token} (room : ∀ t ∈ ts, t.depth + 2 < maxDepth) : (steps bisc ts).Shallow := by
  refine shallow_readTokens fun l member => shallow_readLine fun front t rest split pseudo => ?_
  have inside : t ∈ l := split ▸ List.mem_append_right _ List.mem_cons_self
  exact shallow_pseudo maxDepth (room t (mem_of_lines member inside))

/-! ## Literals without a body -/

/-- The run is aborted at a literal without a body among the tokens, if it is aborted. -/
def NamesBodiless (ts : List Token) (e : Error) : Prop :=
  ∀ operation, e.cause = .aborted operation → ∃ t ∈ ts, t.Bodiless ∧ operation = .textSlice t.raw ∧ e.pos = t.pos

theorem namesBodiless_of_readTokens {isa : InstructionSet} (n : Nat) (ts : List Token) :
    (readTokens isa n ts).FailsWith (NamesBodiless ts) := by
  refine @failsWith_readTokens_of_reported ts isa NamesBodiless (fun _ => True)
    (fun ts e reported operation cause => ?_) (fun ts us e inside names operation cause => ?_)
    (fun ts raw pos operation cause => by cases cause)
    (fun t arguments form texts _ found => ⟨fun _ _ => trivial, fun e names operation cause => ?_⟩) n
    fun _ _ => trivial
  · cases reported with
    | @aborted t member broken =>
      cases cause
      exact ⟨t, member, broken, rfl, rfl⟩
    | invalid | unexpected | slice => cases cause
  · obtain ⟨t, own, broken⟩ := names operation cause
    exact ⟨t, inside own, broken⟩
  · -- The lines of a form are read from a text, and the literals in them have bodies.
    obtain ⟨t, own, ⟨literal, none⟩, -⟩ := names operation cause
    have spelled := wellSpelled_of_unfold form texts _ t own (by simp [literal, TokenKind.isCode])
    obtain ⟨body, found, -⟩ := Token.literalBody?_of_spelled spelled literal
    rw [none] at found
    cases found

/-- A literal that is one character of two bytes, without quotes. -/
private def unquoted : List Token := [⟨.directive, ".", none, ⟨1, 1⟩, 0⟩, ⟨.identifier, "string", none, ⟨1, 2⟩, 0⟩,
  ⟨.stringLiteral, "é", none, ⟨1, 9⟩, 0⟩]

/-- Reading does not end with a program or a message for every list: it is aborted at a literal
    that has no body to cut out. -/
theorem not_reading_ends : ¬ ∀ isa ts, (∃ p, parse isa ts = .ok p) ∨
    ∃ e, parse isa ts = .error e ∧ ∀ operation, e.cause ≠ .aborted operation := by
  intro ends
  have aborted : parse bisc unquoted = .error ⟨.aborted (.textSlice "é"), ⟨1, 9⟩⟩ := by decide +kernel
  obtain ⟨p, parsed⟩ | ⟨e, failed, reported⟩ := ends bisc unquoted
  · rw [aborted] at parsed
    cases parsed
  · rw [aborted] at failed
    cases failed
    exact reported _ rfl

/-- Reading always ends, whatever the instruction set and the depths of the tokens: after finitely
    many rounds the loop stops with the steps that the program or the error comes from. It is
    aborted only at a string literal of the list that has no body. With the built-in instructions, no
    list whose tokens are at most at depth 61 is refused for its depth. -/
theorem reading_ends (isa : InstructionSet) (ts : List Token) :
    (∃ run, Halts (readingRound isa) (.start ts) run ∧ parse isa ts = programOf run) ∧
    (∀ operation pos, parse isa ts = .error ⟨.aborted operation, pos⟩ →
      ∃ t ∈ ts, t.kind = .stringLiteral ∧ t.literalBody? = none ∧ operation = .textSlice t.raw ∧ pos = t.pos) ∧
    ((∀ t ∈ ts, t.depth ≤ 61) → ∀ raw pos, parse bisc ts ≠ .error ⟨.expansionDepth raw, pos⟩) := by
  refine ⟨⟨steps isa ts, halts_steps isa ts, parse_eq_programOf isa ts⟩, fun operation pos failed => ?_,
    fun bounded raw pos failed => ?_⟩
  · rw [parse_eq_programOf] at failed
    obtain ⟨t, member, ⟨literal, none⟩, same, here⟩ :=
      namesBodiless_of_readTokens (maxDepth + 1) ts _ (programOf_eq_error.mp failed) operation rfl
    exact ⟨t, member, literal, none, same, here⟩
  · have room : ∀ t ∈ ts, t.depth + 2 < maxDepth := by
      intro t member
      have := bounded t member
      simp only [maxDepth]
      omega
    rw [parse_eq_programOf] at failed
    exact shallow_steps room raw pos (programOf_eq_error.mp failed)

/-- A jump by its other name, at a depth. -/
private def gotoAt (depth : Nat) : List Token := [
  ⟨.pseudoOp, "goto", none, ⟨1, 1⟩, depth⟩, ⟨.identifier, "end", none, ⟨1, 6⟩, depth⟩]

/-- An instruction set with a pseudo-instruction that stands for itself. -/
private def endless : InstructionSet := { bisc with pseudoOps := [("goto", ⟨[.immediate], [s!"goto {slot 0}"]⟩)] }

/-- The bound is sharp, a form that invokes itself is refused for its depth, and a literal without a
    body is where a reading is aborted. -/
theorem reading_ends_goto : (∀ t ∈ gotoAt 61, t.depth ≤ 61) ∧
    (∀ raw pos, parse bisc (gotoAt 61) ≠ .error ⟨.expansionDepth raw, pos⟩) ∧
    parse bisc (gotoAt 62) = .error ⟨.expansionDepth "li", ⟨1, 1⟩⟩ ∧
    (∃ run, Halts (readingRound endless) (.start (gotoAt 61)) run ∧
      programOf run = .error ⟨.expansionDepth "goto", ⟨1, 1⟩⟩) ∧
    parse bisc unquoted = .error ⟨.aborted (.textSlice "é"), ⟨1, 9⟩⟩ ∧
    ∃ t ∈ unquoted, t.literalBody? = none ∧ t.pos = ⟨1, 9⟩ := by
  have bounded : ∀ t ∈ gotoAt 61, t.depth ≤ 61 := by decide
  have deep : (steps bisc (gotoAt 62)).failure = some ⟨.expansionDepth "li", ⟨1, 1⟩⟩ := by decide +kernel
  have cyclic : (steps endless (gotoAt 61)).failure = some ⟨.expansionDepth "goto", ⟨1, 1⟩⟩ := by decide +kernel
  have aborted : parse bisc unquoted = .error ⟨.aborted (.textSlice "é"), ⟨1, 9⟩⟩ := by decide +kernel
  obtain ⟨-, -, shallow⟩ := reading_ends bisc (gotoAt 61)
  obtain ⟨⟨run, halts, parsed⟩, -⟩ := reading_ends endless (gotoAt 61)
  obtain ⟨-, bodiless, -⟩ := reading_ends bisc unquoted
  obtain ⟨t, member, -, none, -, here⟩ := bodiless _ _ aborted
  refine ⟨bounded, shallow bounded, programOf_eq_error.mpr deep, ⟨run, halts, ?_⟩, aborted, t, member, none, here.symm⟩
  rw [← parsed]
  exact programOf_eq_error.mpr cyclic

end Bisc
