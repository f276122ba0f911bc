import Bisc.Proofs.LexerLoop
import Bisc.Proofs.ParserLoop

/-!
Nothing of a text is lost. The tokens of a line lie one behind the other in it, each spelled by the
bytes from its column on, and what is between them is blank; the tokens of a source are those of its
lines, with a separator for every line break.
-/
namespace Bisc

namespace Token

/-- The column behind a token. -/
def behind (t : Token) : Nat := t.pos.column + Text.utf8Length t.raw.toList

/-- The token has the byte at a column of its line. -/
def Covers (t : Token) (column : Nat) : Prop := t.pos.column ≤ column ∧ column < t.behind

end Token

/-- The tokens have all of a line but its blanks. -/
structure Covering (text : List Char) (line : Nat) (ts : List Token) : Prop where
  filled : ∀ t ∈ ts, t.raw ≠ ""
  placed : ∀ t ∈ ts, ∃ before after, text = before ++ t.raw.toList ++ after ∧
  t.pos = ⟨line, Text.utf8Length before + 1⟩
  apart : ts.Pairwise fun t u => t.pos.column < u.pos.column ∧ t.behind ≤ u.pos.column
  blank : ∀ before c after, text = before ++ c :: after →
  (∀ t ∈ ts, ¬t.Covers (Text.utf8Length before + 1)) → Text.isBlank c

/-- A text that starts at a column is laid out with tokens and blanks, one behind the other. -/
inductive Tiles (line : Nat) : Nat → List Char → List Token → Prop
  | nil {column} : Tiles line column [] []
  | blank {column c cs ts} (blank : Text.isBlank c)
      (rest : Tiles line (column + c.utf8Size) cs ts) : Tiles line column (c :: cs) ts
  | token {column t text cs ts} (split : text = t.raw.toList ++ cs) (filled : t.raw ≠ "")
      (pos : t.pos = ⟨line, column⟩)
      (rest : Tiles line t.behind cs ts) : Tiles line column text (t :: ts)

variable {isa : InstructionSet} {line column : Nat} {text : List Char} {ts : List Token}

theorem tiles_tokensFrom (isa : InstructionSet) (line column : Nat) (text : List Char) :
    Tiles line column text (tokensFrom isa line column 0 text) := by
  induction size : text.length using Nat.strong_induction_on generalizing column text with
  | _ n ih =>
    cases text with
    | nil => exact .nil
    | cons c cs =>
      rw [List.length_cons] at size
      cases blank : Text.isBlank c with
      | true =>
        rw [tokensFrom, if_pos blank]
        exact .blank blank (ih _ (by omega) _ _ rfl)
      | false =>
        have shorter : (cs.drop (Lexeme.scan isa c cs).more).length < n := by
          rw [List.length_drop]
          omega
        rw [tokensFrom_lexeme blank]
        have whole : c :: cs = (String.ofList (c :: cs.take (Lexeme.scan isa c cs).more)).toList ++
            cs.drop (Lexeme.scan isa c cs).more := by
          rw [String.toList_ofList, List.cons_append, List.take_append_drop]
        refine .token whole (by simp) rfl ?_
        rw [Token.behind, String.toList_ofList]
        exact ih _ shorter _ _ rfl

namespace Tiles

theorem filled (tiles : Tiles line column text ts) : ∀ t ∈ ts, t.raw ≠ "" := by
  induction tiles with
  | nil => simp
  | blank _ _ ih => exact ih
  | token _ filled _ _ ih => exact List.forall_mem_cons.mpr ⟨filled, ih⟩

theorem column_le (tiles : Tiles line column text ts) : ∀ t ∈ ts, column ≤ t.pos.column := by
  induction tiles with
  | nil => simp
  | blank _ _ ih => exact fun t member => (Nat.le_add_right ..).trans (ih t member)
  | token _ _ pos _ ih =>
    refine List.forall_mem_cons.mpr ⟨by rw [pos], fun u member => ?_⟩
    have later := ih u member
    rw [Token.behind, pos] at later
    exact (Nat.le_add_right ..).trans later

theorem column_lt_behind {t : Token} (filled : t.raw ≠ "") : t.pos.column < t.behind := by
  obtain ⟨c, cs, raw⟩ := List.exists_cons_of_ne_nil (mt String.toList_eq_nil_iff.mp filled)
  have size := c.utf8Size_pos
  rw [Token.behind, raw, Text.utf8Length_cons]
  omega

theorem apart (tiles : Tiles line column text ts) :
    ts.Pairwise fun t u => t.pos.column < u.pos.column ∧ t.behind ≤ u.pos.column := by
  induction tiles with
  | nil => exact .nil
  | blank _ _ ih => exact ih
  | token _ filled _ rest ih =>
    refine List.pairwise_cons.mpr ⟨fun u member => ?_, ih⟩
    have later := rest.column_le u member
    exact ⟨(column_lt_behind filled).trans_le later, later⟩

/-- A token is spelled by the bytes from its column on. -/
theorem placed (tiles : Tiles line column text ts) : ∀ t ∈ ts, ∃ before after,
    text = before ++ t.raw.toList ++ after ∧ t.pos = ⟨line, column + Text.utf8Length before⟩ := by
  induction tiles with
  | nil => simp
  | @blank column c cs ts _ _ ih =>
    intro t member
    obtain ⟨before, after, rfl, pos⟩ := ih t member
    exact ⟨c :: before, after, rfl, by rw [pos, Text.utf8Length_cons, Nat.add_assoc]⟩
  | @token column t text cs ts split _ pos _ ih =>
    refine List.forall_mem_cons.mpr ⟨⟨[], cs, split, pos⟩, fun u member => ?_⟩
    obtain ⟨before, after, rfl, place⟩ := ih u member
    refine ⟨t.raw.toList ++ before, after, by simp [split], ?_⟩
    rw [place, Token.behind, pos, Text.utf8Length_append, Nat.add_assoc]

/-- A character that no token has is blank. -/
theorem uncovered (tiles : Tiles line column text ts) {before after : List Char} {c : Char}
    (split : text = before ++ c :: after)
    (free : ∀ t ∈ ts, ¬t.Covers (column + Text.utf8Length before)) : Text.isBlank c := by
  induction tiles generalizing before with
  | nil => simp at split
  | @blank column d cs ts blank _ ih =>
    cases before with
    | nil =>
      obtain ⟨rfl, -⟩ := List.cons.inj split
      exact blank
    | cons e before =>
      obtain ⟨rfl, rest⟩ := List.cons.inj split
      refine ih rest ?_
      simpa only [Text.utf8Length_cons, Nat.add_assoc] using free
  | @token column t text cs ts cut filled pos _ ih =>
    obtain ⟨here, later⟩ := List.forall_mem_cons.mp free
    rw [cut, List.append_eq_append_iff] at split
    rcases split with ⟨inner, rfl, rest⟩ | ⟨inner, raw, rest⟩
    · refine ih rest ?_
      simpa only [Token.behind, pos, Text.utf8Length_append, Nat.add_assoc] using later
    · cases inner with
      | nil =>
        refine @ih [] rest.symm fun u member => ?_
        rw [List.append_nil] at raw
        simpa only [Token.behind, pos, raw, Text.utf8Length_nil, Nat.add_zero] using later u member
      | cons d inner =>
        refine absurd ⟨?_, ?_⟩ here
        · rw [pos]
          exact Nat.le_add_right ..
        · have size := d.utf8Size_pos
          simp only [Token.behind, pos, raw, Text.utf8Length_append, Text.utf8Length_cons]
          omega

end Tiles

theorem covering_tokenizeLine (isa : InstructionSet) (text : List Char) (line : Nat) :
    Covering text line (tokenizeLine isa text line) := by
  have tiles := tiles_tokensFrom isa line 1 text
  refine ⟨tiles.filled, fun t member => ?_, tiles.apart, fun before c after split free => ?_⟩
  · obtain ⟨before, after, split, pos⟩ := tiles.placed t member
    exact ⟨before, after, split, by rw [pos, Nat.add_comm]⟩
  · refine tiles.uncovered split fun t member => ?_
    rw [Nat.add_comm]
    exact free t member

/-! ## Lines -/

theorem textLines_eq_splitOn (text : List Char) : textLines text = text.splitOn '\n' := by
  induction text with
  | nil => rfl
  | cons c text ih =>
    rw [textLines, List.splitOn_cons_eq_if_modifyHead, ih]
    by_cases ends : c = '\n'
    · simp [ends]
    · obtain ⟨l, ls, split⟩ := List.exists_cons_of_ne_nil (List.splitOn_ne_nil '\n' text)
      simp [ends, split]

theorem length_splitOn (text : List Char) : (text.splitOn '\n').length = text.count '\n' + 1 := by
  induction text with
  | nil => rfl
  | cons c text ih =>
    rw [List.splitOn_cons_eq_if_modifyHead, List.count_cons]
    by_cases ends : c = '\n'
    · simp [ends, ih]
    · simp [ends, ih, List.length_modifyHead]

/-- The tokens of consecutive lines, with a separator behind each but the last. -/
theorem tokenizeLines_eq (isa : InstructionSet) (line : Nat) (texts : List (List Char)) :
    tokenizeLines isa line texts =
    (texts.zipIdx line).flatMap fun (text, here) =>
      tokenizeLine isa text here ++
        if here + 1 < line + texts.length then [Token.separator ⟨here, Text.utf8Length text + 1⟩ 0] else [] := by
  fun_induction tokenizeLines isa line texts with
  | case1 => rfl
  | case2 line text => simp
  | case3 line text texts more ih =>
    have others : 0 < texts.length := List.length_pos_of_ne_nil more
    have behind : line + (texts.length + 1) = line + 1 + texts.length := by omega
    rw [ih, List.zipIdx_cons, List.flatMap_cons, List.length_cons, behind]
    dsimp only
    rw [if_pos (by omega), List.append_assoc, List.singleton_append]

theorem separators_tokenizeLines (line : Nat) (texts : List (List Char)) :
    (tokenizeLines isa line texts).countP Token.isSeparator = texts.length - 1 := by
  have none (line : Nat) (text : List Char) : (tokenizeLine isa text line).countP Token.isSeparator = 0 :=
    List.countP_eq_zero.mpr fun t member => by simp [inline_of_tokensFrom t member]
  fun_induction tokenizeLines isa line texts with
  | case1 => rfl
  | case2 line text => exact none line text
  | case3 line text texts more ih =>
    have others : 0 < texts.length := List.length_pos_of_ne_nil more
    have here : Token.isSeparator (.separator ⟨line, Text.utf8Length text + 1⟩ 0) := rfl
    rw [List.countP_append, none, List.countP_cons_of_pos here, ih, List.length_cons]
    omega

/-- Nothing of a source is lost. -/
theorem lexer_loses_nothing (isa : InstructionSet) (source : String) :
    let lines := (source.toList.filter (· ≠ '\r')).splitOn '\n'
    tokenize isa source = ((lines.zipIdx 1).flatMap fun (text, line) => tokenizeLine isa text line ++
        if line < lines.length then [Token.separator ⟨line, Text.utf8Length text + 1⟩ 0] else []) ∧
      lines.length = source.toList.count '\n' + 1 ∧
      (tokenize isa source).countP Token.isSeparator = source.toList.count '\n' ∧
      ∀ text line, Covering text line (tokenizeLine isa text line) ∧
        Halts (scanningRound isa line text) ⟨0, []⟩ (some (tokenizeLine isa text line)) := by
  intro lines
  have cut : textLines (source.toList.filter (· ≠ '\r')) = lines := textLines_eq_splitOn _
  have length : lines.length = source.toList.count '\n' + 1 := by
    rw [length_splitOn, List.count_filter (by decide)]
  refine ⟨?_, length, ?_, fun text line => ⟨covering_tokenizeLine isa text line, halts_tokenizeLine isa line text⟩⟩
  · rw [tokenize, cut, tokenizeLines_eq]
    simp only [Nat.add_comm 1, Nat.add_lt_add_iff_right]
  · rw [tokenize, cut, separators_tokenizeLines, length, Nat.add_sub_cancel]

end Bisc
