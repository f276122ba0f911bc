import Bisc.Proofs.Contents
import Bisc.Proofs.ParserLoop

/-!
Lines stand by themselves. Readers share one queue of tokens, and each of them stops before the
separator of its line and takes the end of the tokens as it takes a separator; so a token list that
is cut at a separator is read as its two parts, and its content is theirs.
-/
namespace Bisc

/-! ## A line without its separator -/

namespace Comparison

/-- A cursor in a line that ends with its separator, and one in the same line without it. -/
def unending (stop : Token) : Comparison :=
  ⟨fun c d => c.rest = d.rest ++ [stop] ∧ ∀ t ∈ d.rest, t.isSeparator = false, fun _ => True⟩

variable {stop : Token} (ends : stop.isSeparator)
include ends

theorem unending_front {c d : Cursor} (related : (unending stop).cursor c d) : (unending stop).Front c d := by
  obtain ⟨same, inline⟩ := related
  cases whole : d.rest with
  | nil =>
    rw [whole] at same
    exact .stopped same (Token.isSeparator_iff.mp ends) whole
  | cons t ts =>
    rw [whole] at same inline
    refine .shared same whole ⟨rfl, ?_⟩
    intro u member
    exact inline u (List.mem_cons_of_mem _ member)

theorem unending_endOfLine {c d : Cursor} (related : (unending stop).cursor c d) :
    Agree (unending stop).place (fun _ _ => True) (Reader.endOfLine c) (Reader.endOfLine d) := by
  obtain ⟨ts, p⟩ := c
  obtain ⟨us, q⟩ := d
  obtain ⟨same, inline⟩ := related
  dsimp only at same inline
  subst same
  have plain := Token.isComment_of_isSeparator ends
  have alike {t : Token} (inside : t.isSeparator = false) : ¬t.isSeparator = true := by simp [inside]
  cases us with
  | nil =>
    rw [List.nil_append, endOfLine_uncommented plain, if_pos ends]
    exact .ok trivial
  | cons t ts =>
    by_cases comment : t.isComment
    · cases ts with
      | nil =>
        -- The comment is the last token, and then both are at the end of the line.
        have last : Reader.endOfLine ⟨[t], q⟩ = .ok ((), ⟨[], q⟩) := by simp [Reader.endOfLine, comment]
        rw [List.singleton_append, endOfLine_commented comment, if_pos ends, last]
        exact .ok trivial
      | cons u us =>
        have other := alike (inline u (by simp))
        rw [List.cons_append, List.cons_append, endOfLine_commented comment,
          endOfLine_commented comment, if_neg other,
          if_neg other]
        exact .error trivial
    · have own : t.isComment = false := by simpa using comment
      have other := alike (inline t (by simp))
      rw [List.cons_append, endOfLine_uncommented own, endOfLine_uncommented own, if_neg other, if_neg other]
      exact .error trivial

theorem unending_lawful : (unending stop).Lawful where
  last _ := trivial
  tokens _ _ _ := trivial
  front := unending_front ends
  restOfLine := by
    rintro c d ⟨same, inline⟩
    refine .ok ⟨?_, trivial, ?_, ?_⟩
    · change Token.uncommented (Token.line c.rest) = Token.uncommented (Token.line d.rest)
      rw [same, Token.line_append_stop inline ends, Token.line_of_inline inline]
    · change Token.afterLine c.rest = Token.afterLine d.rest ++ [stop]
      rw [same, Token.afterLine_append_stop inline ends, Token.afterLine_of_inline inline, List.nil_append]
    · change ∀ t ∈ Token.afterLine d.rest, _
      rw [Token.afterLine_of_inline inline]
      simp
  withoutComments := by
    rintro c d ⟨same, inline⟩
    constructor
    · simp only [Cursor.withoutComments]
      rw [same, Token.line_append_stop inline ends, Token.afterLine_append_stop inline ends,
        Token.line_of_inline inline,
        Token.afterLine_of_inline inline]
      simp
    · intro t member
      simp only [Cursor.withoutComments] at member
      rw [Token.line_of_inline inline, Token.afterLine_of_inline inline, List.take_nil, List.append_nil] at member
      exact inline t (List.mem_filter.mp member).1
  endOfLine := unending_endOfLine ends

end Comparison

/-! ## Cut lists -/

/-- A token list is a number of whole lines and the beginning of one more. -/
theorem exists_whole_lines (ts : List Token) :
    ∃ (whole : List (List Token)) (body : List Token), (∀ l ∈ whole, Terminated l) ∧
      (∀ t ∈ body, t.isSeparator = false) ∧ ts = whole.flatten ++ body := by
  induction ts with
  | nil => exact ⟨[], [], by simp, by simp, rfl⟩
  | cons t ts ih =>
    obtain ⟨whole, body, terminated, inline, rfl⟩ := ih
    by_cases ends : t.isSeparator
    · refine ⟨[t] :: whole, body, ?_, inline, rfl⟩
      exact List.forall_mem_cons.mpr ⟨⟨[], t, by simp, ends, rfl⟩, terminated⟩
    · have inside : t.isSeparator = false := by simpa using ends
      cases whole with
      | nil => exact ⟨[], t :: body, by simp, List.forall_mem_cons.mpr ⟨inside, inline⟩, rfl⟩
      | cons l whole =>
        refine ⟨(t :: l) :: whole, body, ?_, inline, rfl⟩
        obtain ⟨⟨front, stop, plain, stops, rfl⟩, others⟩ := List.forall_mem_cons.mp terminated
        refine List.forall_mem_cons.mpr ⟨⟨t :: front, stop, ?_, stops, rfl⟩, others⟩
        exact List.forall_mem_cons.mpr ⟨inside, plain⟩

section Cut

variable {isa : InstructionSet} {stop : Token} (ends : stop.isSeparator)
include ends

/-- A list is read as what comes before a separator, and then what comes after it. -/
theorem readTokens_append_stop (n : Nat) (ts us : List Token) :
    readTokens isa (n + 1) (ts ++ stop :: us) = readTokens isa (n + 1) (ts ++ [stop]) ++
    readTokens isa (n + 1) us := by
  obtain ⟨whole, body, terminated, inline, rfl⟩ := exists_whole_lines ts
  induction whole with
  | nil =>
    have line : Terminated (body ++ [stop]) := ⟨body, stop, inline, ends, rfl⟩
    have none : readTokens isa (n + 1) [] = .done := rfl
    have whole := @readTokens_line isa n _ line
    have alone := whole []
    rw [List.append_nil, none, Run.append_done] at alone
    have both := whole us
    rw [List.append_assoc, List.singleton_append] at both
    rw [List.flatten_nil, List.nil_append, both, alone]
  | cons l whole ih =>
    obtain ⟨first, others⟩ := List.forall_mem_cons.mp terminated
    have rest := ih others
    simp only [List.flatten_cons, List.append_assoc] at rest ⊢
    rw [readTokens_line n first, readTokens_line n first, rest, Run.append_assoc]

/-- The separator of the last line may be missing. -/
theorem readTokens_stop (n : Nat) (ts : List Token) :
    Run.Agree (fun _ => True) (readTokens isa (n + 1) (ts ++ [stop])) (readTokens isa (n + 1) ts) := by
  obtain ⟨whole, body, terminated, inline, rfl⟩ := exists_whole_lines ts
  induction whole with
  | nil =>
    have line : Terminated (body ++ [stop]) := ⟨body, stop, inline, ends, rfl⟩
    have related : (Comparison.unending stop).cursor ⟨body ++ [stop], ⟨0, 0⟩⟩ ⟨body, ⟨0, 0⟩⟩ := ⟨rfl, inline⟩
    have read : Run.Agree (fun _ => True) (readLine isa (readTokens isa n) (body ++ [stop]))
        (readLine isa (readTokens isa n) body) :=
      (Comparison.unending_lawful ends).readLine (fun _ _ _ _ => Run.agree_self _) related
    have stopped := @readTokens_line isa n _ line []
    rw [List.append_nil] at stopped
    have unstopped : readTokens isa (n + 1) body = readLine isa (readTokens isa n) body ++ .done := by
      cases body with
      | nil => rfl
      | cons t body =>
        rw [readTokens, lines_of_inline inline]
        rfl
    rw [List.flatten_nil, List.nil_append, stopped, unstopped]
    exact read.append Run.agree_done
  | cons l whole ih =>
    obtain ⟨first, others⟩ := List.forall_mem_cons.mp terminated
    have rest := ih others
    simp only [List.flatten_cons, List.append_assoc] at rest ⊢
    rw [readTokens_line n first, readTokens_line n first]
    exact (Run.agree_self _).append rest

/-- The steps of a list that is cut at a separator are those of its parts, and it fails if and only
    if one of them does. -/
theorem steps_joined (ts us : List Token) : Run.Agree (fun _ => True) (steps isa (ts ++ [stop] ++ us))
    (steps isa ts ++ steps isa us) := by
  rw [List.append_assoc, List.singleton_append, steps, readTokens_append_stop ends]
  exact (readTokens_stop ends maxDepth ts).append (Run.agree_self _)

end Cut

/-! ## Programs -/

/-- Runs that agree make the same program. -/
theorem programOf_agree {r s : Run Step} (agreed : Run.Agree (fun _ => True) r s) {p : Program} :
    programOf r = .ok p ↔ programOf s = .ok p := by
  unfold Run.Agree at agreed
  unfold programOf
  generalize r.result = x at agreed ⊢
  generalize s.result = y at agreed ⊢
  cases agreed with
  | ok both => rw [both.1]
  | error => simp [bind, Except.bind]

/-- No construct spans lines: tokens on both sides of a separator are a program if and only if each
    side is one, and then the content is that of the first followed by that of the second. The
    program is that of the loop in which all readers share one queue and nothing tells them of lines. -/
theorem parse_joined (isa : InstructionSet) (first second : List Token) {stop : Token} (ends : stop.isSeparator) :
    (∀ ts result, Parses isa ts result ↔ parse isa ts = result) ∧
    ((∃ p, parse isa (first ++ [stop] ++ second) = .ok p) ↔
      (∃ p, parse isa first = .ok p) ∧ ∃ p, parse isa second = .ok p) ∧
    ∀ p p₁ p₂, parse isa (first ++ [stop] ++ second) = .ok p → parse isa first = .ok p₁ → parse isa second = .ok p₂ →
      p.contents = p₁.contents ++ p₂.contents := by
  have joined {p : Program} : parse isa (first ++ [stop] ++ second) = .ok p ↔
      programOf (steps isa first ++ steps isa second) = .ok p := programOf_agree (steps_joined ends first second)
  simp only [joined]
  refine ⟨parses_iff isa, ?_, ?_⟩
  · rw [programOf_ok_iff, parse_eq_programOf, programOf_ok_iff, parse_eq_programOf, programOf_ok_iff]
    constructor
    · exact Run.failure_append
    · rintro ⟨left, right⟩
      rw [Run.append_of_done left]
      exact right
  · intro p p₁ p₂ both left right
    obtain ⟨done, content₁⟩ := contents_of_programOf left
    obtain ⟨-, content₂⟩ := contents_of_programOf right
    obtain ⟨-, content⟩ := contents_of_programOf both
    rw [content, content₁, content₂, Run.out_append done, Step.added_append, contentOf_append]

private def jumpLine : List Token := [⟨.pseudoOp, "jmp", none, ⟨1, 1⟩, 3⟩, ⟨.identifier, "end", none, ⟨1, 5⟩, 0⟩]

private def labelLine : List Token := [⟨.directive, ".", none, ⟨2, 1⟩, 0⟩, ⟨.identifier, "bss", none, ⟨2, 2⟩, 0⟩,
  Token.separator ⟨2, 5⟩ 0, ⟨.identifier, "end", none, ⟨3, 1⟩, 0⟩, ⟨.colon, ":", none, ⟨3, 4⟩, 0⟩,
    ⟨.comment, "; x", none, ⟨3, 6⟩, 0⟩]

/-- The first list ends within the line of a pseudo-instruction, the second starts another section. -/
theorem parse_joined_jump : (Token.separator ⟨1, 9⟩ 0).isSeparator ∧
    (∃ p, parse bisc jumpLine = .ok p) ∧ (∃ p, parse bisc labelLine = .ok p) ∧
    ∃ p, Parses bisc (jumpLine ++ [Token.separator ⟨1, 9⟩ 0] ++ labelLine) (.ok p) ∧ p.contents.map Item.pos =
      [⟨1, 1⟩, ⟨1, 1⟩, ⟨1, 1⟩, ⟨3, 1⟩] := by
  have ends : (Token.separator ⟨1, 9⟩ 0).isSeparator := rfl
  obtain ⟨loop, iff, contents⟩ := parse_joined bisc jumpLine labelLine ends
  have first : ∃ p, parse bisc jumpLine = .ok p ∧ p.contents.map Item.pos = [⟨1, 1⟩, ⟨1, 1⟩, ⟨1, 1⟩] := by
    refine ⟨_, rfl, ?_⟩
    decide +kernel
  have second : ∃ p, parse bisc labelLine = .ok p ∧ p.contents.map Item.pos = [⟨3, 1⟩] := by
    refine ⟨_, rfl, ?_⟩
    decide +kernel
  obtain ⟨p₁, parsed₁, places₁⟩ := first
  obtain ⟨p₂, parsed₂, places₂⟩ := second
  obtain ⟨p, parsed⟩ := iff.mpr ⟨⟨p₁, parsed₁⟩, p₂, parsed₂⟩
  refine ⟨ends, ⟨p₁, parsed₁⟩, ⟨p₂, parsed₂⟩, p, (loop _ _).mpr parsed, ?_⟩
  rw [contents p p₁ p₂ parsed parsed₁ parsed₂, List.map_append, places₁, places₂]
  rfl

end Bisc
