import Bisc.Proofs.Readers
import Bisc.Proofs.Spelling

/-!
Comments at the ends of lines. In the tokens of a source a comment is the last token of its line,
and no word is spelled like a comment or a separator. A reader that meets such a list reads the same
from it and from the list without its comments.
-/
namespace Bisc

/-! ## Lists without comments -/

namespace Token

@[simp] theorem uncommented_nil : uncommented [] = [] := rfl
theorem uncommented_comment {t : Token} (comment : t.isComment) (ts : List Token) :
    uncommented (t :: ts) = uncommented ts :=
  List.filter_cons_of_neg (by simp [comment])
theorem uncommented_cons {t : Token} (plain : t.isComment = false) (ts : List Token) :
    uncommented (t :: ts) = t :: uncommented ts :=
  List.filter_cons_of_pos (by simp [plain])
theorem uncommented_append (ts us : List Token) : uncommented (ts ++ us) = uncommented ts ++ uncommented us :=
  List.filter_append ..
theorem uncommented_of_plain {ts : List Token} (plain : ∀ t ∈ ts, t.isComment = false) : uncommented ts = ts :=
  List.filter_eq_self.mpr fun t member => by simp [plain t member]
theorem plain_uncommented (ts : List Token) : ∀ t ∈ uncommented ts, t.isComment = false := fun t member => by
  simpa using (List.mem_filter.mp member).2
@[simp] theorem uncommented_uncommented (ts : List Token) : uncommented (uncommented ts) = uncommented ts :=
  uncommented_of_plain (plain_uncommented ts)

theorem isSeparator_iff {t : Token} : t.isSeparator ↔ t.kind = .lineSeparator := by simp [isSeparator]
theorem isComment_iff {t : Token} : t.isComment ↔ t.kind = .comment := by simp [isComment]

theorem isSeparator_of_isComment {t : Token} (comment : t.isComment) : t.isSeparator = false := by
  simp [isSeparator, isComment_iff.mp comment]

private theorem inline_or_comment :
    (fun t : Token => !(!t.isComment) || !t.isSeparator) = fun t => !t.isSeparator := by
  funext t
  by_cases comment : t.isComment
  · simp [comment, isSeparator_of_isComment comment]
  · simp [comment]

theorem line_uncommented (ts : List Token) : line (uncommented ts) = uncommented (line ts) := by
  rw [line, uncommented, List.takeWhile_filter, inline_or_comment]
  rfl
theorem afterLine_uncommented (ts : List Token) : afterLine (uncommented ts) = uncommented (afterLine ts) := by
  rw [afterLine, uncommented, List.dropWhile_filter, inline_or_comment]
  rfl

theorem afterLine_head {ts us : List Token} {t : Token} (after : afterLine ts = t :: us) : t.isSeparator := by
  have stops := List.head?_dropWhile_not (fun t : Token => !t.isSeparator) ts
  unfold afterLine at after
  rw [after] at stops
  simpa using stops

theorem isMark_of_isComment {t : Token} (comment : t.isComment) : t.kind.isMark := by
  simp [isComment_iff.mp comment, TokenKind.isMark]
theorem isMark_of_isSeparator {t : Token} (ends : t.isSeparator) : t.kind.isMark := by
  simp [isSeparator_iff.mp ends, TokenKind.isMark]
theorem isComment_of_isSeparator {t : Token} (ends : t.isSeparator) : t.isComment = false := by
  simp [isComment, isSeparator_iff.mp ends]

theorem uncommented_take_afterLine (ts : List Token) :
    uncommented ((afterLine ts).take 1) = (afterLine ts).take 1 := by
  cases after : afterLine ts with
  | nil => rfl
  | cons t us => exact uncommented_cons (isComment_of_isSeparator (afterLine_head after)) []

theorem take_afterLine_uncommented (ts : List Token) :
    (afterLine (uncommented ts)).take 1 = (afterLine ts).take 1 := by
  rw [afterLine_uncommented]
  cases after : afterLine ts with
  | nil => rfl
  | cons t us => simp [uncommented_cons (isComment_of_isSeparator (afterLine_head after))]

theorem head_afterLine_uncommented (ts : List Token) : (afterLine (uncommented ts)).head? = (afterLine ts).head? := by
  rw [afterLine_uncommented]
  cases after : afterLine ts with
  | nil => rfl
  | cons t us => simp [uncommented_cons (isComment_of_isSeparator (afterLine_head after))]

theorem drop_afterLine_uncommented (ts : List Token) :
    (afterLine (uncommented ts)).drop 1 = uncommented ((afterLine ts).drop 1) := by
  rw [afterLine_uncommented]
  cases after : afterLine ts with
  | nil => rfl
  | cons t us => simp [uncommented_cons (isComment_of_isSeparator (afterLine_head after))]

/-- A comment is followed by a separator or by nothing. -/
def CommentsLast (ts : List Token) : Prop := ts.IsChain fun t u => t.isComment → u.isSeparator

theorem commentsLast_cons {t : Token} {ts : List Token} (plain : t.isComment = false) (last : CommentsLast ts) :
    CommentsLast (t :: ts) := by
  refine List.isChain_cons.mpr ⟨fun u _ comment => ?_, last⟩
  simp [plain] at comment

theorem commentsLast_of_plain {ts : List Token} (plain : ∀ t ∈ ts, t.isComment = false) : CommentsLast ts := by
  induction ts with
  | nil => exact .nil
  | cons t ts ih =>
    exact commentsLast_cons (plain t List.mem_cons_self) (ih fun u member => plain u (List.mem_cons_of_mem _ member))

/-- What is left of a comment and what follows it is nothing or begins with a separator. -/
theorem CommentsLast.after_comment {t : Token} {ts : List Token} (last : CommentsLast (t :: ts))
    (comment : t.isComment) :
    ts = [] ∨ ∃ u us, ts = u :: us ∧ u.isSeparator := by
  cases ts with
  | nil => exact .inl rfl
  | cons u us => exact .inr ⟨u, us, rfl, (List.isChain_cons.mp last).1 u rfl comment⟩

/-- The first token after a comment that is none itself is the separator of its line. -/
theorem CommentsLast.uncommented_after {t : Token} {ts : List Token} (last : CommentsLast (t :: ts))
    (comment : t.isComment) :
    ∀ u ∈ (uncommented ts).head?, u.isSeparator := by
  intro u head
  rcases last.after_comment comment with rfl | ⟨v, us, rfl, ends⟩
  · simp at head
  · rw [uncommented_cons (isComment_of_isSeparator ends)] at head
    cases head
    exact ends

theorem CommentsLast.tail {t : Token} {ts : List Token} (last : CommentsLast (t :: ts)) : CommentsLast ts :=
  (List.isChain_cons.mp last).2

/-- A list that begins as another may take its place behind a token. -/
theorem CommentsLast.cons_of_head {t : Token} {ts us : List Token} (last : CommentsLast (t :: ts))
    (later : CommentsLast us)
    (head : us.head? = ts.head?) : CommentsLast (t :: us) :=
  List.isChain_cons.mpr ⟨head ▸ (List.isChain_cons.mp last).1, later⟩

end Token

/-! ## The tokens of a source -/

/-- Nothing but a semicolon begins a comment, and a comment takes what is left of its line. -/
theorem scan_mark {isa : InstructionSet} {c : Char} {cs : List Char} (mark : (Lexeme.scan isa c cs).kind.isMark) :
    c = ';' ∧ (Lexeme.scan isa c cs).more = cs.length := by
  rcases Lexeme.scan_cases isa c cs with ⟨semicolon, comment⟩ | ⟨-, word⟩ | ⟨-, noComment, noSeparator⟩
  · exact ⟨semicolon, by rw [comment]⟩
  · have own := Lexeme.classify_isWord isa (c :: cs.takeWhile isWordChar)
    rw [word] at mark
    cases kind : (Lexeme.classify isa (c :: cs.takeWhile isWordChar)).1 <;> simp_all [TokenKind.isMark,
      TokenKind.isWord]
  · cases kind : (Lexeme.scan isa c cs).kind <;> simp_all [TokenKind.isMark]

theorem tokensFrom_end {isa : InstructionSet} {line column : Nat} (cs : List Char) :
    tokensFrom isa line column cs.length cs = [] := by
  induction cs generalizing column with
  | nil => rfl
  | cons c cs ih => rw [List.length_cons, tokensFrom, ih]

theorem commentsLast_tokensFrom (isa : InstructionSet) (line column skip : Nat) (cs : List Char) :
    Token.CommentsLast (tokensFrom isa line column skip cs) := by
  fun_induction tokensFrom isa line column skip cs with
  | case1 => exact .nil
  | case2 column skip c cs ih => exact ih
  | case3 column c cs blank ih => exact ih
  | case4 column c cs inked x ih =>
    by_cases comment : x.kind.isMark
    · rw [(scan_mark comment).2, tokensFrom_end]
      exact .singleton _
    · refine List.isChain_cons.mpr ⟨fun u _ own => absurd ?_ comment, ih⟩
      simp only [Token.isComment, beq_iff_eq] at own
      simp [own, TokenKind.isMark]

/-- A comment of a source is the last token of its line. -/
theorem commentsLast_tokenize (isa : InstructionSet) (source : String) :
    Token.CommentsLast (tokenize isa source) := by
  unfold tokenize
  generalize textLines _ = texts
  generalize 1 = line
  induction texts generalizing line with
  | nil => exact .nil
  | cons text texts ih =>
    cases texts with
    | nil => exact commentsLast_tokensFrom ..
    | cons next texts =>
      rw [tokenizeLines]
      · refine List.isChain_append.mpr ⟨commentsLast_tokensFrom .., ?_, fun _ _ u head _ => ?_⟩
        · exact Token.commentsLast_cons rfl (ih _)
        · cases head
          rfl
      · simp

/-- The text begins like a comment or a separator. -/
def beginsLikeMark (text : String) : Bool := text.toList.head? = some ';' || text.toList.head? = some '\n'

theorem beginsLikeMark_tokensFrom {isa : InstructionSet} {line column skip : Nat} {cs : List Char} {t : Token}
    (member : t ∈ tokensFrom isa line column skip cs) (mark : t.kind.isMark) : beginsLikeMark t.raw := by
  obtain ⟨c, cs, x, column', -, -, rfl, -, rfl⟩ := isLexemeOf_of_tokensFrom member
  simp [beginsLikeMark, (scan_mark mark).1]

/-- Comments and separators begin as no word does. -/
theorem beginsLikeMark_tokenize {isa : InstructionSet} {source : String} {t : Token}
    (member : t ∈ tokenize isa source) :
    (t.kind.isMark → beginsLikeMark t.raw) ∧ (t.isWord → beginsLikeMark t.raw = false) := by
  constructor
  · intro mark
    obtain ⟨line, text, -, inside | rfl⟩ := mem_tokenize member
    · exact beginsLikeMark_tokensFrom inside mark
    · simp [beginsLikeMark, Token.separator]
  · intro word
    have code : t.kind.isCode := by
      unfold Token.isWord at word
      cases kind : t.kind <;> simp_all [TokenKind.isWord, TokenKind.isCode]
    obtain ⟨c, cs, raw, inked, scanned⟩ := Token.spelled_iff.mp (wellSpelled_of_tokenize member code)
    have semicolon : c ≠ ';' := by
      rintro rfl
      simp [Lexeme.scan] at scanned
      simp [Token.isWord, ← scanned.1, TokenKind.isWord] at word
    have newline : c ≠ '\n' := by
      rintro rfl
      revert inked
      decide
    simp [beginsLikeMark, raw, semicolon, newline]

/-! ## Reading without comments -/

namespace Comparison

/-- A cursor in tokens whose comments are last, and one in the same tokens without comments. -/
def uncommenting : Comparison :=
  ⟨fun c d => Token.CommentsLast c.rest ∧ d.rest = Token.uncommented c.rest, fun _ => True⟩

theorem uncommenting_front {c d : Cursor} (related : uncommenting.cursor c d) : uncommenting.Front c d := by
  obtain ⟨last, same⟩ := related
  cases whole : c.rest with
  | nil => exact .ended whole (by rw [same, whole]; rfl)
  | cons t ts =>
    rw [whole] at last same
    by_cases comment : t.isComment
    · rw [Token.uncommented_comment comment] at same
      refine .comment whole (Token.isComment_iff.mp comment) (fun u head => ?_) ⟨last.tail, same⟩
      rw [same] at head
      exact Token.isMark_of_isSeparator (last.uncommented_after comment u head)
    · rw [Token.uncommented_cons (by simpa using comment)] at same
      exact .shared whole same ⟨last.tail, rfl⟩

theorem uncommenting_endOfLine {c d : Cursor} (related : uncommenting.cursor c d) :
    Agree uncommenting.place (fun _ _ => True) (Reader.endOfLine c) (Reader.endOfLine d) := by
  obtain ⟨ts, p⟩ := c
  obtain ⟨us, q⟩ := d
  obtain ⟨last, same⟩ := related
  dsimp only at last same
  subst same
  have alike {t : Token} (plain : t.isComment = false) (ts us : List Token) (p q : Position) :
      Agree uncommenting.place (fun _ _ => True) (Reader.endOfLine ⟨t :: ts, p⟩) (Reader.endOfLine ⟨t :: us, q⟩) := by
    rw [endOfLine_uncommented plain, endOfLine_uncommented plain]
    split
    · exact .ok trivial
    · exact .error trivial
  cases ts with
  | nil => exact .ok trivial
  | cons t ts =>
    by_cases comment : t.isComment
    · rw [Token.uncommented_comment comment]
      rcases last.after_comment comment with rfl | ⟨u, us, rfl, ends⟩
      · simp only [Reader.endOfLine, comment, if_true]
        exact .ok trivial
      · have plain := Token.isComment_of_isSeparator ends
        rw [endOfLine_commented comment, ← endOfLine_uncommented plain us p, Token.uncommented_cons plain]
        exact alike plain ..
    · have plain : t.isComment = false := by simpa using comment
      rw [Token.uncommented_cons plain]
      exact alike plain ..

theorem uncommenting_lawful : uncommenting.Lawful where
  last _ := trivial
  tokens _ _ _ := trivial
  front := uncommenting_front
  restOfLine := by
    rintro c d ⟨last, same⟩
    refine .ok ⟨?_, trivial, ?_, ?_⟩
    · change Token.uncommented (Token.line c.rest) = Token.uncommented (Token.line d.rest)
      rw [same, Token.line_uncommented, Token.uncommented_uncommented]
    · exact last.suffix (List.dropWhile_suffix _)
    · change Token.afterLine d.rest = Token.uncommented (Token.afterLine c.rest)
      rw [same, Token.afterLine_uncommented]
  withoutComments := by
    rintro c d ⟨-, same⟩
    have equal : d.withoutComments.rest = c.withoutComments.rest := by
      simp only [Cursor.withoutComments]
      rw [same, Token.line_uncommented, Token.uncommented_uncommented, Token.take_afterLine_uncommented]
    have plain : ∀ t ∈ c.withoutComments.rest, t.isComment = false := by
      intro t member
      rcases List.mem_append.mp member with member | member
      · exact Token.plain_uncommented _ t member
      · cases after : Token.afterLine c.rest with
        | nil => simp [after] at member
        | cons u us =>
          rw [after] at member
          cases List.mem_singleton.mp member
          exact Token.isComment_of_isSeparator (Token.afterLine_head after)
    exact ⟨Token.commentsLast_of_plain plain, by rw [equal, Token.uncommented_of_plain plain]⟩
  endOfLine := uncommenting_endOfLine

end Comparison

/-- The lines without comments; one that has nothing but a comment and no separator is gone. -/
theorem lines_uncommented (ts : List Token) :
    Token.lines (Token.uncommented ts) = ((Token.lines ts).map Token.uncommented).filter (· ≠ []) := by
  induction ts with
  | nil => rfl
  | cons t ts ih =>
    by_cases comment : t.isComment
    · rw [Token.uncommented_comment comment, ih, Token.lines,
        if_neg (by simp [Token.isSeparator_of_isComment comment])]
      cases Token.lines ts with
      | nil => simp [Token.uncommented_comment comment]
      | cons l ls => simp [Token.uncommented_comment comment]
    · have plain : t.isComment = false := by simpa using comment
      rw [Token.uncommented_cons plain, Token.lines, Token.lines, ih]
      by_cases ends : t.isSeparator
      · simp [ends, Token.uncommented_cons plain]
      · simp only [ends, Bool.false_eq_true, if_false]
        cases cut : Token.lines ts with
        | nil => simp [Token.uncommented_cons plain]
        | cons l ls =>
          by_cases bare : Token.uncommented l = []
          · -- A line that is gone has no separator, so no line follows it.
            have none : ls = [] := by
              by_contra more
              obtain ⟨body, stop, -, ends, rfl⟩ := terminated_of_lines cut more
              rw [Token.uncommented_append, Token.uncommented_cons (Token.isComment_of_isSeparator ends)] at bare
              simp at bare
            simp [none, bare, Token.uncommented_cons plain]
          · simp [bare, Token.uncommented_cons plain]

theorem Run.agree_self (r : Run Step) : Run.Agree (fun _ => True) r r := by
  unfold Run.Agree
  cases r.result with
  | error e => exact .error trivial
  | ok steps => exact .ok ⟨rfl, fun step _ => by cases step <;> trivial⟩

theorem steps_uncommented (isa : InstructionSet) {ts : List Token} (last : Token.CommentsLast ts) :
    Run.Agree (fun _ => True) (steps isa ts) (steps isa (Token.uncommented ts)) := by
  have inside : ∀ l ∈ Token.lines ts, Token.CommentsLast l := fun l member => by
    have part := List.infix_of_mem_flatten member
    rw [lines_flatten] at part
    exact last.infix part
  unfold steps
  rw [readTokens, readTokens, lines_uncommented]
  generalize Token.lines ts = ls at inside
  induction ls with
  | nil => exact Run.agree_done
  | cons l ls ih =>
    have rest := ih fun m member => inside m (List.mem_cons_of_mem _ member)
    have here : Run.Agree (fun _ => True) (readLine isa (readTokens isa maxDepth) l)
        (readLine isa (readTokens isa maxDepth) (Token.uncommented l)) :=
      Comparison.uncommenting_lawful.readLine (c := ⟨l, ⟨0, 0⟩⟩) (d := ⟨Token.uncommented l, ⟨0, 0⟩⟩)
        (fun _ _ _ _ => Run.agree_self _) ⟨inside l List.mem_cons_self, rfl⟩
    have both := here.append rest
    by_cases bare : Token.uncommented l = []
    · have nothing (r : Run Step) : readLine isa (readTokens isa maxDepth) [] ++ r = r := rfl
      rw [bare, nothing] at both
      simpa [bare] using both
    · simpa [bare] using both

/-- The program of tokens whose comments are last is that of the tokens without comments. -/
theorem parse_uncommented (isa : InstructionSet) {ts : List Token} (last : Token.CommentsLast ts) :
    Agree (fun _ => True) (fun p p' => p = p') (parse isa ts) (parse isa (Token.uncommented ts)) := by
  refine Agree.bind (steps_uncommented isa last) ?_
  rintro ss _ - - ⟨rfl, -⟩
  exact .ok rfl

end Bisc
