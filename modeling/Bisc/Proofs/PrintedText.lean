import Bisc.Proofs.InertComments
import Bisc.Proofs.JoinedLines
import Bisc.Proofs.Placeless

/-!
Printed text is read back. A token that means something is spelled as it is read and holds no line
break, and a comment is the last token of its line, also after expansion; so the text of a token
list has its tokens again, at other places only.
-/
namespace Bisc

variable {isa : InstructionSet}

/-! ## Tokens that can be printed -/

/-- A line break, or a token that is spelled on one line as it is read. -/
inductive Token.Printable (isa : InstructionSet) (t : Token) : Prop
  | separator (kind : t.kind = .lineSeparator) (raw : t.raw = "\n") (value : t.value = none)
  | inline (inside : t.isSeparator = false) (valid : t.kind ≠ .invalid) (spelled : t.spelled isa)
      (oneLine : ∀ c ∈ t.raw.toList, c ≠ '\n' ∧ c ≠ '\r')

theorem Token.Printable.retag {t : Token} (printable : t.Printable isa) (pos : Position) (depth : Nat) :
    (t.retag pos depth).Printable isa := by
  cases printable with
  | separator kind raw value => exact .separator kind raw value
  | inline inside valid spelled oneLine => exact .inline inside valid spelled oneLine

theorem TokenKind.isCode_of {kind : TokenKind} (unmarked : ¬kind.isMark) (valid : kind ≠ .invalid) : kind.isCode := by
  cases kind <;> first | rfl | exact absurd rfl unmarked | exact absurd rfl valid

theorem printable_of_tokensFrom {line column skip : Nat} {text : List Char}
    (oneLine : ∀ c ∈ text, c ≠ '\n' ∧ c ≠ '\r')
    {t : Token} (member : t ∈ tokensFrom isa line column skip text) (valid : t.kind ≠ .invalid) :
    t.Printable isa := by
  have wellSpelled := wellSpelled_of_tokensFrom member
  obtain ⟨c, cs, x, column', inside, -, rfl, -, rfl⟩ := isLexemeOf_of_tokensFrom member
  have raw : ∀ d ∈ (String.ofList (c :: cs.take (Lexeme.scan isa c cs).more)).toList, d ≠ '\n' ∧ d ≠ '\r' := by
    rw [String.toList_ofList]
    obtain ⟨here, later⟩ := List.forall_mem_cons.mp fun d own => oneLine d (inside.subset own)
    exact List.forall_mem_cons.mpr ⟨here, fun d taken => later d (List.mem_of_mem_take taken)⟩
  by_cases mark : (Lexeme.scan isa c cs).kind.isMark
  · -- The mark is a comment, which is its own spelling because it takes the rest of the line.
    obtain ⟨rfl, more⟩ := scan_mark mark
    refine .inline rfl valid (Token.spelled_iff.mpr ⟨';', cs, ?_, by decide, rfl⟩) raw
    rw [String.toList_ofList]
    exact congrArg (';' :: ·) (more ▸ List.take_length)
  · have code : (Lexeme.scan isa c cs).kind.isCode := TokenKind.isCode_of mark valid
    exact .inline (Token.isSeparator_of_isCode code) valid (wellSpelled code) raw

theorem mem_textLines {text l : List Char} (listed : l ∈ textLines text) : ∀ c ∈ l, c ∈ text ∧ c ≠ '\n' := by
  induction text generalizing l with
  | nil =>
    rw [textLines, List.mem_singleton] at listed
    simp [listed]
  | cons d text ih =>
    have behind {l : List Char} (listed : l ∈ textLines text) : ∀ c ∈ l, c ∈ d :: text ∧ c ≠ '\n' := fun c member =>
      ⟨List.mem_cons_of_mem _ (ih listed c member).1, (ih listed c member).2⟩
    rw [textLines] at listed
    split at listed
    · rcases List.mem_cons.mp listed with rfl | listed
      · simp
      · exact behind listed
    · rename_i inside
      split at listed
      · rw [List.mem_singleton] at listed
        simp [listed, inside]
      · rename_i first others cut
        rcases List.mem_cons.mp listed with rfl | listed
        · refine List.forall_mem_cons.mpr ⟨⟨List.mem_cons_self, inside⟩, behind ?_⟩
          rw [cut]
          exact List.mem_cons_self
        · refine behind ?_
          rw [cut]
          exact List.mem_cons_of_mem _ listed

/-- The tokens of a source can be printed, unless they are invalid. -/
theorem printable_of_tokenize {source : String} {t : Token} (member : t ∈ tokenize isa source)
    (valid : t.kind ≠ .invalid) :
    t.Printable isa := by
  obtain ⟨line, text, -, listed, inside | rfl⟩ := mem_tokenizeLines member
  · refine printable_of_tokensFrom (fun c own => ?_) inside valid
    obtain ⟨kept, line⟩ := mem_textLines listed c own
    exact ⟨line, by simpa using (List.mem_filter.mp kept).2⟩
  · exact .separator rfl rfl rfl

/-! ## Lines -/

theorem Reads.last {t : Token} (spelled : t.spelled isa) : Reads isa t.raw.toList [t] := by
  obtain ⟨c, cs, raw, blank, scanned⟩ := Token.spelled_iff.mp spelled
  intro line column pos depth
  rw [raw, tokensFrom, if_neg (by simp [blank]), scanned]
  dsimp only
  rw [tokensFrom_end, List.take_length, ← raw, String.ofList_toList]
  rfl

section Line

variable {ts : List Token} (inline : ∀ t ∈ ts, t.isSeparator = false) (printable : ∀ t ∈ ts, t.Printable isa)
include inline printable

/-- The text of a line is read as its tokens. -/
theorem reads_renderFrom (last : Token.CommentsLast ts) (atStart : Bool) :
    Reads isa (Token.renderFrom atStart ts).toList ts := by
  induction ts generalizing atStart with
  | nil => exact .nil
  | cons t ts ih =>
    obtain ⟨inside, insides⟩ := List.forall_mem_cons.mp inline
    obtain ⟨fine, others⟩ := List.forall_mem_cons.mp printable
    have first : Reads isa (t.raw.toList ++ (Token.renderFrom false ts).toList) (t :: ts) := by
      cases fine with
      | separator kind => simp [Token.isSeparator, kind] at inside
      | inline _ valid spelled =>
        by_cases comment : t.isComment
        · rcases last.after_comment comment with rfl | ⟨u, us, rfl, ends⟩
          · rw [Token.renderFrom, String.toList_empty, List.append_nil]
            exact .last spelled
          · simp [ends] at insides
        · have unmarked : ¬t.kind.isMark := by
            intro mark
            cases kind : t.kind <;> simp_all [Token.isComment, Token.isSeparator, TokenKind.isMark]
          have stops := Reads.stops_renderFrom insides stops_nil
          rw [List.append_nil] at stops
          exact .token spelled (TokenKind.isCode_of unmarked valid) (fun _ => stops)
            (ih insides others last.tail false)
    simp only [Token.renderFrom, inside, Bool.false_eq_true, if_false, String.toList_append, List.append_assoc]
    cases atStart with
    | true => exact first
    | false => exact .blank (by decide) first

theorem renderFrom_oneLine (atStart : Bool) : ∀ c ∈ (Token.renderFrom atStart ts).toList, c ≠ '\n' ∧ c ≠ '\r' := by
  induction ts generalizing atStart with
  | nil => simp [Token.renderFrom]
  | cons t ts ih =>
    obtain ⟨inside, insides⟩ := List.forall_mem_cons.mp inline
    obtain ⟨fine, others⟩ := List.forall_mem_cons.mp printable
    have own : ∀ c ∈ t.raw.toList, c ≠ '\n' ∧ c ≠ '\r' := by
      cases fine with
      | separator kind => simp [Token.isSeparator, kind] at inside
      | inline _ _ _ oneLine => exact oneLine
    simp only [Token.renderFrom, inside, Bool.false_eq_true, if_false, String.toList_append, List.forall_mem_append]
    refine ⟨⟨?_, own⟩, ih insides others false⟩
    cases atStart <;> simp

end Line

/-! ## Texts -/

theorem textLines_inline {l : List Char} (inside : ∀ c ∈ l, c ≠ '\n') : textLines l = [l] := by
  induction l with
  | nil => rfl
  | cons c l ih =>
    obtain ⟨here, later⟩ := List.forall_mem_cons.mp inside
    rw [textLines, if_neg here, ih later]

theorem textLines_break {l : List Char} (inside : ∀ c ∈ l, c ≠ '\n') (text : List Char) :
    textLines (l ++ '\n' :: text) = l :: textLines text := by
  induction l with
  | nil => rfl
  | cons c l ih =>
    obtain ⟨here, later⟩ := List.forall_mem_cons.mp inside
    rw [List.cons_append, textLines, if_neg here, ih later]

theorem tokenizeLines_textLines (line : Nat) (l text : List Char) : tokenizeLines isa line (l :: textLines text) =
    tokenizeLine isa l line ++ Token.separator ⟨line, Text.utf8Length l + 1⟩ 0 :: tokenizeLines isa
      (line + 1) (textLines text) := by
  have filled : textLines text ≠ [] := by
    cases text with
    | nil => simp [textLines]
    | cons c cs =>
      rw [textLines]
      split
      · simp
      · split <;> simp
  rw [tokenizeLines]
  exact filled

theorem renderFrom_stop {ts : List Token} (inline : ∀ t ∈ ts, t.isSeparator = false) {stop : Token}
    (ends : stop.isSeparator)
    (us : List Token) (atStart : Bool) :
    Token.renderFrom atStart (ts ++ stop :: us) = Token.renderFrom atStart ts ++ "\n" ++ Token.render us := by
  induction ts generalizing atStart with
  | nil => simp [Token.renderFrom, ends, Token.render]
  | cons t ts ih =>
    obtain ⟨inside, insides⟩ := List.forall_mem_cons.mp inline
    simp only [List.cons_append, Token.renderFrom, inside, Bool.false_eq_true, if_false,
      ih insides, String.append_assoc]

theorem depth_of_tokensFrom {line column skip : Nat} {text : List Char} {t : Token}
    (member : t ∈ tokensFrom isa line column skip text) : t.depth = 0 := by
  obtain ⟨c, cs, x, column', -, -, -, -, rfl⟩ := isLexemeOf_of_tokensFrom member
  rfl

theorem depth_of_tokenize {source : String} {t : Token} (member : t ∈ tokenize isa source) : t.depth = 0 := by
  obtain ⟨line, text, -, inside | rfl⟩ := mem_tokenize member
  · exact depth_of_tokensFrom inside
  · rfl

theorem allAlike_of_retagged {ts us : List Token}
    (same : us.map (Token.retag ⟨0, 0⟩ 0) = ts.map (Token.retag ⟨0, 0⟩ 0))
    (fresh : ∀ u ∈ us, u.depth = 0) : AllAlike (fun _ => True) ts us := by
  induction us generalizing ts with
  | nil =>
    cases List.map_eq_nil_iff.mp same.symm
    exact .nil
  | cons u us ih =>
    cases ts with
    | nil => simp at same
    | cons t ts =>
      obtain ⟨here, later⟩ := List.forall_mem_cons.mp fresh
      simp only [List.map_cons, List.cons.injEq, Token.retag, Token.mk.injEq] at same
      obtain ⟨⟨kind, raw, value, -⟩, rest⟩ := same
      exact .cons ⟨kind, raw, value, by omega, trivial⟩ (ih rest later)

section Text

variable {ts : List Token} (printable : ∀ t ∈ ts, t.Printable isa)
include printable

theorem render_no_return : ∀ c ∈ (Token.render ts).toList, c ≠ '\r' := by
  have all (atStart : Bool) : ∀ c ∈ (Token.renderFrom atStart ts).toList, c ≠ '\r' := by
    induction ts generalizing atStart with
    | nil => simp [Token.renderFrom]
    | cons t ts ih =>
      obtain ⟨fine, others⟩ := List.forall_mem_cons.mp printable
      rw [Token.renderFrom]
      cases fine with
      | separator kind =>
        rw [if_pos (by simp [Token.isSeparator, kind]), String.toList_append]
        exact List.forall_mem_append.mpr ⟨by simp, ih others true⟩
      | inline inside _ _ oneLine =>
        rw [if_neg (by simp [inside])]
        simp only [String.toList_append, List.forall_mem_append]
        refine ⟨⟨?_, fun c member => (oneLine c member).2⟩, ih others false⟩
        cases atStart <;> simp
  exact all true

/-- The lines of a printed text are read as the tokens that were printed. -/
theorem tokenizeLines_render (last : Token.CommentsLast ts) (line : Nat) :
    (tokenizeLines isa line (textLines (Token.render ts).toList)).map (Token.retag ⟨0, 0⟩ 0) =
      ts.map (Token.retag ⟨0, 0⟩ 0) := by
  obtain ⟨whole, body, terminated, inline, rfl⟩ := exists_whole_lines ts
  induction whole generalizing line with
  | nil =>
    rw [List.flatten_nil, List.nil_append] at printable last ⊢
    have text := renderFrom_oneLine inline printable true
    rw [Token.render, textLines_inline fun c member => (text c member).1]
    exact reads_renderFrom inline printable last true line 1 ⟨0, 0⟩ 0
  | cons l whole ih =>
    obtain ⟨⟨front, stop, inside, ends, rfl⟩, others⟩ := List.forall_mem_cons.mp terminated
    have flat : ((front ++ [stop]) :: whole).flatten ++ body = front ++ stop :: (whole.flatten ++ body) := by simp
    rw [flat] at printable last ⊢
    obtain ⟨fine, later⟩ := List.forall_mem_append.mp printable
    obtain ⟨stopped, later⟩ := List.forall_mem_cons.mp later
    obtain ⟨frontLast, restLast, -⟩ := List.isChain_append.mp last
    have text := renderFrom_oneLine inside fine true
    have rest := ih (line + 1) others later restLast.tail
    have front' := reads_renderFrom inside fine frontLast true line 1 ⟨0, 0⟩ 0
    have own : (Token.separator ⟨line, Text.utf8Length (Token.renderFrom true front).toList + 1⟩ 0).retag ⟨0, 0⟩ 0 =
        stop.retag ⟨0, 0⟩ 0 := by
      cases stopped with
      | separator kind raw value => rw [Token.retag, Token.retag, kind, raw, value]; rfl
      | inline inside => simp [ends] at inside
    have printed : (Token.render (front ++ stop :: (whole.flatten ++ body))).toList =
        (Token.renderFrom true front).toList ++ '\n' :: (Token.render (whole.flatten ++ body)).toList := by
      rw [Token.render, renderFrom_stop inside ends]
      simp
    rw [printed, textLines_break fun c member => (text c member).1, tokenizeLines_textLines,
      List.map_append, List.map_cons,
      List.map_append, List.map_cons, rest, own]
    exact congrArg (· ++ _) front'

/-- The text of a token list is read as the tokens of the list at other places. -/
theorem tokenize_render (last : Token.CommentsLast ts) :
    AllAlike (fun _ => True) ts (tokenize isa (Token.render ts)) := by
  have kept : (Token.render ts).toList.filter (· ≠ '\r') = (Token.render ts).toList :=
    List.filter_eq_self.mpr fun c member => by simpa using render_no_return printable c member
  have read := tokenizeLines_render printable last 1
  rw [← kept] at read
  exact allAlike_of_retagged read fun t member => depth_of_tokenize member

end Text

/-! ## Sources -/

/-- What a token is, wherever it stands. -/
def Token.reading (t : Token) : TokenKind × String × Option UInt32 := (t.kind, t.raw, t.value)

theorem AllAlike.readings {P : Token → Prop} {ts us : List Token} (alike : AllAlike P ts us) :
    us.map Token.reading = ts.map Token.reading := by
  induction alike with
  | nil => rfl
  | cons first rest ih =>
    rw [List.map_cons, List.map_cons, ih, Token.reading, Token.reading, first.kind,
      first.raw, first.value]

/-- The text of a valid source after expansion is faithful: it is read as the tokens that were
    printed, and if these are a program it is the same program at other places. Without expansion it
    is read as the tokens of the source. -/
theorem printed_faithful {source : String} (valid : ∀ t ∈ tokenize bisc source, t.kind ≠ .invalid) :
    (tokenize bisc (Token.render (tokenize bisc source))).map Token.reading =
    (tokenize bisc source).map Token.reading ∧
    ∀ out, preprocess (tokenize bisc source) = .ok out →
      (tokenize bisc (Token.render out)).map Token.reading = out.map Token.reading ∧
      ∀ p, parse bisc out = .ok p →
        ∃ p', parse bisc (tokenize bisc (Token.render out)) = .ok p' ∧ p'.map Section.unplaced =
        p.map Section.unplaced := by
  have printable : ∀ t ∈ tokenize bisc source, t.Printable bisc :=
    fun t member => printable_of_tokenize member (valid t member)
  refine ⟨(tokenize_render printable (commentsLast_tokenize bisc source)).readings, fun out preprocessed => ?_⟩
  have expanded := forall_of_preprocess (fun t op depth own _ => own.retag op.pos depth) printable preprocessed
  have last : Token.CommentsLast out := by
    have agreed := preprocess_uncommented source
    rw [preprocessed] at agreed
    obtain ⟨_, -, -, last⟩ := agreed.ok_left
    exact last
  have alike := tokenize_render expanded last
  exact ⟨alike.readings, fun p parsed => parse_alike (fun _ _ _ _ _ => trivial) alike parsed⟩

/-- A constant that is a string with a semicolon and an operator in it, a comment, and an invocation. -/
private def quotedMarks : List Token := [
  ⟨.directive, ".", none, ⟨1, 1⟩, 0⟩, ⟨.identifier, "define", none, ⟨1, 2⟩, 0⟩, ⟨.identifier, "x", none, ⟨1, 9⟩, 0⟩,
  ⟨.stringLiteral, "\"a;%b\"", none, ⟨1, 11⟩, 0⟩, ⟨.comment, "; text", none, ⟨1, 18⟩, 0⟩,
  ⟨.lineSeparator, "\n", none, ⟨1, 24⟩, 0⟩, ⟨.directive, ".", none, ⟨2, 1⟩, 0⟩,
    ⟨.identifier, "string", none, ⟨2, 2⟩, 0⟩,
  ⟨.macroOp, "%", none, ⟨2, 9⟩, 0⟩, ⟨.identifier, "x", none, ⟨2, 10⟩, 0⟩]

private theorem preprocess_quotedMarks : preprocess quotedMarks =
    .ok (quotedMarks.take 8 ++ [⟨.stringLiteral, "\"a;%b\"", none, ⟨2, 9⟩, 1⟩]) := by
  have cut : (segments quotedMarks).result =
      .ok ((.constant ⟨.identifier, "x", none, ⟨1, 9⟩, 0⟩ (quotedMarks.take 5)) ::
      (quotedMarks.drop 5).map .plain) := by decide +kernel
  let defs := Definitions.ofSegments ((.constant ⟨.identifier, "x", none, ⟨1, 9⟩, 0⟩ (quotedMarks.take 5)) ::
    (quotedMarks.drop 5).map .plain)
  have invoked : expand defs (quotedMarks.drop 8) = .ok [⟨.stringLiteral, "\"a;%b\"", none, ⟨2, 9⟩, 1⟩] := by
    have found : invoke defs ⟨.macroOp, "%", none, ⟨2, 9⟩, 0⟩ (quotedMarks.drop 9) =
        .ok ((quotedMarks.drop 3).take 1, []) := rfl
    refine (expand_invocation rfl found).trans ?_
    refine (expand_token (by decide) (by decide)).trans ?_
    exact congrArg _ (by rw [expand] : expand defs [] = .ok [])
  have line : expand defs (quotedMarks.drop 6) =
      .ok ((quotedMarks.drop 6).take 2 ++ [⟨.stringLiteral, "\"a;%b\"", none, ⟨2, 9⟩, 1⟩]) := by
    refine (expand_token (by decide +kernel) (by decide)).trans ?_
    refine (congrArg _ (expand_token (by decide +kernel) (by decide))).trans ?_
    exact congrArg _ (congrArg _ invoked)
  unfold preprocess
  rw [cut]
  refine (expand_define (by decide +kernel)).trans ?_
  exact congrArg _ line

theorem printed_faithful_quotedMarks :
    (∀ t ∈ tokenize bisc ".define x \"a;%b\" ; text\n.string %x", t.kind ≠ .invalid) ∧
    ∃ out, preprocess (tokenize bisc ".define x \"a;%b\" ; text\n.string %x") = .ok out ∧
      Token.render out = ". define x \"a;%b\" ; text\n. string \"a;%b\"" ∧
      (tokenize bisc (Token.render out)).map Token.reading = out.map Token.reading ∧
      ∃ p, parse bisc out = .ok p ∧
        ∃ p', parse bisc (tokenize bisc (Token.render out)) = .ok p' ∧ p'.map Section.unplaced =
        p.map Section.unplaced := by
  have tokens : tokenize bisc ".define x \"a;%b\" ; text\n.string %x" = quotedMarks := by decide +kernel
  have valid : ∀ t ∈ tokenize bisc ".define x \"a;%b\" ; text\n.string %x", t.kind ≠ .invalid := by
    rw [tokens]
    decide
  have faithful := (printed_faithful valid).2
  rw [tokens] at valid faithful ⊢
  obtain ⟨readings, programs⟩ := faithful _ preprocess_quotedMarks
  exact ⟨valid, _, preprocess_quotedMarks, by decide +kernel, readings, _, rfl, programs _ rfl⟩

end Bisc
