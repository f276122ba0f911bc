import Bisc.Definition
import Bisc.Proofs.Comments
import Bisc.Proofs.Origin

/-!
Definitions among comments. The definitions in the tokens of a source are those in the tokens
without comments, less the comments in macro bodies; what they stand for can be put before any
tokens, and its comments are still the last of their lines.
-/
namespace Bisc

open Token (uncommented CommentsLast)

/-! ## Directives -/

theorem Token.isComment_of_isWord {t : Token} (word : t.isWord) : t.isComment = false := by
  unfold isWord at word
  unfold isComment
  cases kind : t.kind <;> simp_all [TokenKind.isWord]

theorem Token.isSeparator_of_isWord {t : Token} (word : t.isWord) : t.isSeparator = false := by
  unfold isWord at word
  unfold isSeparator
  cases kind : t.kind <;> simp_all [TokenKind.isWord]

/-- A word comes next in a list if and only if it does without the comments. -/
theorem head_uncommented {ts : List Token} (last : CommentsLast ts) :
    (∃ t us, ts = t :: us ∧ uncommented ts = t :: uncommented us) ∨
      (∀ t ∈ ts.head?, t.isWord = false) ∧ ∀ t ∈ (uncommented ts).head?, t.isWord = false := by
  cases ts with
  | nil => exact .inr ⟨by simp, by simp⟩
  | cons t us =>
    by_cases comment : t.isComment
    · refine .inr ⟨fun u head => ?_, fun u head => ?_⟩
      · cases head
        exact Token.isWord_of_isMark (Token.isMark_of_isComment comment)
      · rw [Token.uncommented_comment comment] at head
        exact Token.isWord_of_isMark (Token.isMark_of_isSeparator (last.uncommented_after comment u head))
    · exact .inl ⟨t, us, rfl, Token.uncommented_cons (by simpa using comment) us⟩

theorem directiveAt?_comment {t : Token} (comment : t.isComment) (ts : List Token) :
    directiveAt? (t :: ts) = none := by
  simp only [Token.isComment, beq_iff_eq] at comment
  cases ts <;> simp [directiveAt?, comment]

theorem directiveAt?_uncommented {t : Token} {ts : List Token} (last : CommentsLast ts) :
    directiveAt? (t :: uncommented ts) = directiveAt? (t :: ts) := by
  rcases head_uncommented last with ⟨u, us, rfl, same⟩ | ⟨other, other'⟩
  · rw [same]
    rfl
  · have none {us : List Token} (other : ∀ u ∈ us.head?, u.isWord = false) : directiveAt? (t :: us) = none := by
      cases us with
      | nil => rfl
      | cons u us => simp [directiveAt?, other u rfl]
    rw [none other, none other']

/-- A definition has its name, or none with and without the comments. -/
theorem definitionName_uncommented {ts : List Token} (last : CommentsLast ts) :
    (∃ name us, ts = name :: us ∧ name.isWord) ∨ ∀ what dot, (∃ e, definitionName what dot ts = .error e) ∧
      ∃ e, definitionName what dot (uncommented ts) = .error e := by
  have fails {us : List Token} (other : ∀ u ∈ us.head?, u.isWord = false) (what : Expected) (dot : Token) :
      ∃ e, definitionName what dot us = .error e := by
    cases us with
    | nil => exact ⟨_, rfl⟩
    | cons u us => exact ⟨_, by rw [definitionName, if_neg (by simp [other u rfl])]⟩
  rcases head_uncommented last with ⟨t, us, rfl, same⟩ | ⟨other, other'⟩
  · by_cases word : t.isWord
    · exact .inl ⟨t, us, rfl, word⟩
    · have other : ∀ u ∈ (t :: us).head?, u.isWord = false := by simpa using word
      have other' : ∀ u ∈ (uncommented (t :: us)).head?, u.isWord = false := by simpa [same] using word
      exact .inr fun what dot => ⟨fails other what dot, fails other' what dot⟩
  · exact .inr fun what dot => ⟨fails other what dot, fails other' what dot⟩

/-! ## Segments -/

/-- Whatever follows the tokens, a comment among them is the last of its line. -/
def Token.Shut (ts : List Token) : Prop := ∀ us, CommentsLast us → CommentsLast (ts ++ us)

theorem Token.shut_of_append {t : Token} {ts us : List Token} (last : CommentsLast (ts ++ t :: us))
    (inline : t.isSeparator = false) :
    Token.Shut ts := by
  obtain ⟨own, -, joint⟩ := List.isChain_append.mp last
  refine fun vs later => List.isChain_append.mpr ⟨own, later, fun u final _ _ comment => ?_⟩
  have ends := joint u final t rfl comment
  simp [inline] at ends

theorem Token.shut_of_separator {t : Token} {ts us : List Token} (last : CommentsLast (ts ++ t :: us))
    (ends : t.isSeparator) :
    Token.Shut (ts ++ [t]) := by
  obtain ⟨own, -, joint⟩ := List.isChain_append.mp last
  refine fun vs later => ?_
  rw [List.append_assoc]
  exact List.isChain_append.mpr ⟨own, Token.commentsLast_cons (Token.isComment_of_isSeparator ends) later, joint⟩

theorem Token.shut_of_plain {ts : List Token} (plain : ∀ t ∈ ts, t.isComment = false) : Token.Shut ts := by
  refine fun us later => List.isChain_append.mpr ⟨Token.commentsLast_of_plain plain, later,
    fun t final _ _ comment => ?_⟩
  simp [plain t (List.mem_of_getLast? final)] at comment
theorem Token.Shut.tail {t : Token} {ts : List Token} (shut : Token.Shut (t :: ts)) : Token.Shut ts :=
  fun us later => (shut us later).tail
theorem Token.Shut.commentsLast {ts : List Token} (shut : Token.Shut ts) : CommentsLast ts := by
  simpa using shut [] .nil

/-- The segment without its comments; one that is a comment is gone. -/
def Segment.uncommented? : Segment → Option Segment
  | plain t => if t.isComment then none else some (plain t)
  | constant name line => some (constant name (Token.uncommented line))
  | macroDefinition name params header body =>
    some (macroDefinition name params (Token.uncommented header) (Token.uncommented body))

/-- What a definition stands for does not depend on comments, and no parameter can be taken for one. -/
def Segment.Sealed : Segment → Prop
  | plain _ => True
  | constant _ line => Token.uncommented ((Token.uncommented line).drop 3) = Token.uncommented (line.drop 3)
  | macroDefinition _ params header body =>
    (∀ p ∈ params, beginsLikeMark p = false) ∧ Token.Shut header ∧ Token.Shut body

theorem readSegment_define {t : Token} {ts : List Token} (define : directiveAt? (t :: ts) = some "define") :
    readSegment t ts = readConstantDefinition t ts := by
  simp [readSegment, define]
theorem readSegment_macroHeader {t : Token} {ts : List Token} (header : directiveAt? (t :: ts) = some "macro") :
    readSegment t ts = readMacroDefinition t ts := by
  simp [readSegment, header]
theorem mem_of_readParams {seen params : List String} {ts : List Token} (read : readParams seen ts = .ok params) :
    ∀ p ∈ params, ∃ t ∈ ts, t.isWord ∧ t.raw = p := by
  fun_induction readParams seen ts generalizing params with
  | case1 =>
    cases read
    simp
  | case4 seen t word =>
    cases read
    simpa using word
  | case9 seen t comma ts word _ _ _ ih =>
    obtain ⟨rest, others, rfl⟩ := map_eq_ok.mp read
    intro p member
    rcases List.mem_cons.mp member with rfl | member
    · exact ⟨t, List.mem_cons_self, by simpa using word, rfl⟩
    · obtain ⟨u, inside, found⟩ := ih others p member
      exact ⟨u, by simp [inside], found⟩
  | _ => cases read

/-- The body of a macro without comments. -/
theorem bodyLength?_uncommented {ts : List Token} (last : CommentsLast ts) :
    (bodyLength? (uncommented ts)).map (fun n => (uncommented ts).take n) =
      (bodyLength? ts).map fun n => uncommented (ts.take n) := by
  induction ts with
  | nil => rfl
  | cons t ts ih =>
    have rest := ih last.tail
    by_cases comment : t.isComment
    · rw [Token.uncommented_comment comment, rest, bodyLength?, directiveAt?_comment comment]
      simp [Function.comp_def, Token.uncommented_comment comment]
    · have plain : t.isComment = false := by simpa using comment
      rw [Token.uncommented_cons plain, bodyLength?, bodyLength?, directiveAt?_uncommented last.tail]
      split
      · simp
      · have longer := congrArg (Option.map (t :: ·)) rest
        simpa [Function.comp_def, Token.uncommented_cons plain] using longer

theorem bodyLength?_split {ts : List Token} {n : Nat} (found : bodyLength? ts = some n) :
    ∃ dot rest, ts = ts.take n ++ dot :: rest ∧ dot.kind = .directive := by
  induction ts generalizing n with
  | nil => cases found
  | cons t ts ih =>
    rw [bodyLength?] at found
    split at found
    · rename_i closes
      cases found
      refine ⟨t, ts, rfl, ?_⟩
      cases ts with
      | nil => simp [directiveAt?] at closes
      | cons u us =>
        by_contra other
        simp [directiveAt?, other] at closes
    · obtain ⟨m, later, rfl⟩ := Option.map_eq_some_iff.mp found
      obtain ⟨dot, rest, split, kind⟩ := ih later
      exact ⟨dot, rest, by rw [List.take_succ_cons, List.cons_append, ← split], kind⟩

theorem of_directiveAt? {t : Token} {ts : List Token} {name : String} (found : directiveAt? (t :: ts) = some name) :
    t.kind = .directive ∧ ∃ word us, ts = word :: us ∧ word.isWord := by
  cases ts with
  | nil => cases found
  | cons word us =>
    rw [directiveAt?] at found
    split at found
    · rename_i both
      exact ⟨both.1, word, us, rfl, both.2⟩
    · cases found

section Definition

variable {t word name : Token} (dot : t.kind = .directive) (spelled : word.isWord) (named : name.isWord)
include dot spelled named

theorem line_definition (ts : List Token) :
    Token.line (t :: word :: name :: ts) = t :: word :: name :: Token.line ts ∧
      Token.afterLine (t :: word :: name :: ts) = Token.afterLine ts := by
  have inline : t.isSeparator = false := by simp [Token.isSeparator, dot]
  simp [Token.line, Token.afterLine, inline, Token.isSeparator_of_isWord spelled, Token.isSeparator_of_isWord named]

private theorem uncommented_definition (ts : List Token) :
    uncommented (t :: word :: name :: ts) = t :: word :: name :: uncommented ts := by
  have plain : t.isComment = false := by simp [Token.isComment, dot]
  rw [Token.uncommented_cons plain, Token.uncommented_cons (Token.isComment_of_isWord spelled),
    Token.uncommented_cons (Token.isComment_of_isWord named)]

private theorem constantSegment_sealed (ts : List Token) :
    (Segment.constant name (Token.line (t :: word :: name :: ts))).uncommented? =
        some (.constant name (Token.line (t :: word :: name :: uncommented ts))) ∧
      (Segment.constant name (Token.line (t :: word :: name :: ts))).Sealed := by
  rw [(line_definition dot spelled named ts).1, (line_definition dot spelled named (uncommented ts)).1]
  refine ⟨?_, ?_⟩
  · rw [Segment.uncommented?, uncommented_definition dot spelled named, Token.line_uncommented]
  · rw [Segment.Sealed, uncommented_definition dot spelled named]
    simp

private theorem readMacroDefinition_uncommented {ts : List Token} (last : CommentsLast (t :: word :: name :: ts))
    (words : ∀ u ∈ ts, u.isWord → beginsLikeMark u.raw = false) :
    Agree (fun _ => True) (fun s s' => s.uncommented? = some s' ∧ s.Sealed)
      (readMacroDefinition t (word :: name :: ts))
      (readMacroDefinition t (word :: name :: uncommented ts)) := by
  obtain ⟨line, after⟩ := line_definition dot spelled named ts
  obtain ⟨line', after'⟩ := line_definition dot spelled named (uncommented ts)
  have found (us : List Token) : definitionName .macroName t ((word :: name :: us).drop 1) = .ok name := if_pos named
  have stripped := uncommented_definition dot spelled named (Token.line ts)
  unfold readMacroDefinition
  rw [found, found]
  simp only [bind, Except.bind, line, line', after, after', List.drop_succ_cons, List.drop_zero,
    Token.line_uncommented,
    Token.uncommented_uncommented, Token.take_afterLine_uncommented, Token.drop_afterLine_uncommented]
  cases read : readParams [] (uncommented (Token.line ts)) with
  | error e => exact .error trivial
  | ok params =>
    have behind : CommentsLast (Token.afterLine ts) := last.tail.tail.tail.suffix (List.dropWhile_suffix _)
    have body := bodyLength?_uncommented (behind.drop 1)
    cases length : bodyLength? ((Token.afterLine ts).drop 1) with
    | none =>
      rw [length, Option.map_none, Option.map_eq_none_iff] at body
      simp only [body]
      exact .error trivial
    | some n =>
      rw [length, Option.map_some] at body
      obtain ⟨n', length', same⟩ := Option.map_eq_some_iff.mp body
      simp only [length', same]
      obtain ⟨closing, rest, split, directive⟩ := bodyLength?_split length
      refine .ok ⟨?_, ?_, ?_, ?_⟩
      · rw [Segment.uncommented?, Token.uncommented_append, stripped, Token.uncommented_take_afterLine]
      · intro p member
        obtain ⟨u, inside, spelled, rfl⟩ := mem_of_readParams read p member
        exact words u ((List.takeWhile_sublist _).subset (List.mem_filter.mp inside).1) spelled
      · cases found : Token.afterLine ts with
        | nil => simp [found] at split
        | cons stop us =>
          have whole : t :: word :: name :: ts = (t :: word :: name :: Token.line ts) ++ stop :: us := by
            rw [← found, List.cons_append, List.cons_append, List.cons_append, Token.line_append_afterLine]
          rw [whole] at last
          exact Token.shut_of_separator last (Token.afterLine_head found)
      · have inner := behind.drop 1
        rw [split] at inner
        exact Token.shut_of_append inner (by simp [Token.isSeparator, directive])

end Definition

/-- A segment of the list without comments is the segment of the list, without its comments. -/
theorem readSegment_uncommented {t : Token} {ts : List Token} (plain : t.isComment = false)
    (last : CommentsLast (t :: ts))
    (words : ∀ u ∈ ts, u.isWord → beginsLikeMark u.raw = false) :
    Agree (fun _ => True) (fun s s' => s.uncommented? = some s' ∧ s.Sealed) (readSegment t ts)
      (readSegment t (uncommented ts)) := by
  have directive := directiveAt?_uncommented (t := t) last.tail
  have after {word : Token} {us : List Token} (spelled : word.isWord) :
      uncommented (word :: us) = word :: uncommented us :=
        Token.uncommented_cons (Token.isComment_of_isWord spelled) us
  by_cases define : directiveAt? (t :: ts) = some "define"
  · rw [readSegment_define define, readSegment_define (directive.trans define)]
    obtain ⟨dot, word, us, rfl, spelled⟩ := of_directiveAt? define
    rw [after spelled]
    rcases definitionName_uncommented last.tail.tail with ⟨name, vs, rfl, named⟩ | fails
    · have found (vs : List Token) : definitionName .constantName t ((word :: name :: vs).drop 1) = .ok name :=
        if_pos named
      rw [after named, readConstantDefinition, readConstantDefinition, found, found]
      exact .ok (constantSegment_sealed dot spelled named vs)
    · obtain ⟨⟨e, failed⟩, e', failed'⟩ := fails .constantName t
      rw [readConstantDefinition, readConstantDefinition, List.drop_one, List.drop_one, List.tail_cons,
        List.tail_cons, failed,
        failed']
      exact .error trivial
  · by_cases header : directiveAt? (t :: ts) = some "macro"
    · rw [readSegment_macroHeader header, readSegment_macroHeader (directive.trans header)]
      obtain ⟨dot, word, us, rfl, spelled⟩ := of_directiveAt? header
      rw [after spelled]
      rcases definitionName_uncommented last.tail.tail with ⟨name, vs, rfl, named⟩ | fails
      · rw [after named]
        exact readMacroDefinition_uncommented dot spelled named last fun u member => words u (by simp [member])
      · obtain ⟨⟨e, failed⟩, e', failed'⟩ := fails .macroName t
        rw [readMacroDefinition, readMacroDefinition, List.drop_one, List.drop_one, List.tail_cons,
          List.tail_cons, failed,
          failed']
        exact .error trivial
    · rw [readSegment_plain define header, readSegment_plain (directive ▸ define) (directive ▸ header)]
      exact .ok ⟨by simp [Segment.uncommented?, plain], trivial⟩

/-- A segment is the front of the list, and what is kept of it begins as it does. -/
theorem split_of_readSegment {t : Token} {ts : List Token} {s : Segment} (read : readSegment t ts = .ok s) :
    ∃ more rest, s.tokens = t :: more ∧ ts = more ++ rest ∧ s.kept.head? = some t := by
  have parts := Token.line_append_afterLine ts
  have directive {name : String} (found : directiveAt? (t :: ts) = some name) :
      Token.line (t :: ts) = t :: Token.line ts ∧ Token.afterLine (t :: ts) = Token.afterLine ts := by
    have inline : t.isSeparator = false := by simp [Token.isSeparator, (of_directiveAt? found).1]
    simp [Token.line, Token.afterLine, inline]
  by_cases define : directiveAt? (t :: ts) = some "define"
  · rw [readSegment_define define] at read
    obtain ⟨name, -, read⟩ := bind_eq_ok.mp read
    cases read
    simp only [Segment.tokens, Segment.kept, (directive define).1]
    exact ⟨_, _, rfl, parts.symm, rfl⟩
  · by_cases header : directiveAt? (t :: ts) = some "macro"
    · rw [readSegment_macroHeader header] at read
      obtain ⟨name, -, read⟩ := bind_eq_ok.mp read
      obtain ⟨params, -, read⟩ := bind_eq_ok.mp read
      split at read
      · cases read
      · rename_i n _
        cases read
        simp only [Segment.tokens, Segment.kept, directive header]
        refine ⟨Token.line ts ++ (Token.afterLine ts).take 1 ++ ((Token.afterLine ts).drop 1).take n,
          ((Token.afterLine ts).drop 1).drop n, rfl, ?_, rfl⟩
        rw [List.append_assoc, List.take_append_drop, List.append_assoc, List.take_append_drop, parts]
    · rw [readSegment_plain define header] at read
      cases read
      exact ⟨[], ts, rfl, rfl, rfl⟩

theorem segmentsFrom_skip (taken : List String) (skip : Nat) (ts : List Token) :
    segmentsFrom taken skip ts = segmentsFrom taken 0 (ts.drop skip) := by
  induction skip generalizing ts with
  | zero => rfl
  | succ skip ih =>
    cases ts with
    | nil => simp [segmentsFrom]
    | cons t ts => rw [segmentsFrom, ih, List.drop_succ_cons]

theorem Segment.uncommented?_spec {s s' : Segment} (found : s.uncommented? = some s') :
    s'.tokens = Token.uncommented s.tokens ∧ s'.name? = s.name? ∧ s'.kept = Token.uncommented s.kept := by
  cases s with
  | plain t =>
    rw [uncommented?] at found
    split at found
    · cases found
    · rename_i plain
      cases found
      simp [tokens, kept, Token.uncommented_cons (t := t) (by simpa using plain)]
  | constant name line =>
    cases found
    exact ⟨rfl, rfl, rfl⟩
  | macroDefinition name params header body =>
    cases found
    exact ⟨(Token.uncommented_append ..).symm, rfl, rfl⟩

/-- The segments of the list without comments are those of the list, and so is what is kept of them. -/
structure UncommentedSegments (ts : List Token) (ss ss' : List Segment) : Prop where
  same : ss' = ss.filterMap Segment.uncommented?
  closed : ∀ s ∈ ss, s.Sealed
  last : CommentsLast (ss.flatMap Segment.kept)
  head : (ss.flatMap Segment.kept).head? = ts.head?

/-- A comment that is kept stays the last of its line. -/
theorem commentsLast_kept {s : Segment} (closed : s.Sealed) {rest kept : List Token}
    (before : CommentsLast (s.tokens ++ rest))
    (later : CommentsLast kept) (head : kept.head? = rest.head?) : CommentsLast (s.kept ++ kept) := by
  have unchanged : CommentsLast (s.tokens ++ kept) := by
    obtain ⟨own, -, joint⟩ := List.isChain_append.mp before
    exact List.isChain_append.mpr ⟨own, later, head ▸ joint⟩
  cases s with
  | macroDefinition name params header body => exact closed.2.1 kept later
  | _ => exact unchanged

theorem UncommentedSegments.cons {t : Token} {ts rest : List Token} {s s' : Segment} {ss ss' : List Segment}
    (found : s.uncommented? = some s') (closed : s.Sealed) (first : s.kept.head? = some t)
    (before : CommentsLast (s.tokens ++ rest)) (later : UncommentedSegments rest ss ss') :
    UncommentedSegments (t :: ts) (s :: ss) (s' :: ss') where
  same := by rw [List.filterMap_cons_some found, later.same]
  closed := List.forall_mem_cons.mpr ⟨closed, later.closed⟩
  last := commentsLast_kept closed before later.last later.head
  head := by rw [List.flatMap_cons, List.head?_append, first]; rfl

theorem segmentsFrom_uncommented (taken : List String) {ts : List Token} (last : CommentsLast ts)
    (words : ∀ t ∈ ts, t.isWord → beginsLikeMark t.raw = false) :
    Agree (fun _ => True) (UncommentedSegments ts) (segmentsFrom taken 0 ts).result
      (segmentsFrom taken 0 (uncommented ts)).result := by
  induction length : ts.length using Nat.strong_induction_on generalizing ts taken with
  | _ n ih =>
  cases ts with
  | nil => exact .ok (a := []) (b := []) ⟨rfl, by simp, .nil, rfl⟩
  | cons t ts =>
    have others : ∀ u ∈ ts, u.isWord → beginsLikeMark u.raw = false :=
      fun u member => words u (List.mem_cons_of_mem _ member)
    by_cases comment : t.isComment
    · have alone : readSegment t ts = .ok (.plain t) := by
        have none := directiveAt?_comment comment ts
        exact readSegment_plain (by simp [none]) (by simp [none])
      rw [Token.uncommented_comment comment, segmentsFrom, alone]
      simp only [Segment.name?, Segment.tokens, List.length_singleton, Nat.sub_self, Run.result_cons]
      refine (ih ts.length (by simp [← length]) taken last.tail others rfl).map_left fun ss ss' _ later => ?_
      refine ⟨?_, List.forall_mem_cons.mpr ⟨trivial, later.closed⟩, ?_, rfl⟩
      · rw [later.same, List.filterMap_cons_none (by simp [Segment.uncommented?, comment])]
      · exact last.cons_of_head later.last later.head
    · have plain : t.isComment = false := by simpa using comment
      rw [Token.uncommented_cons plain, segmentsFrom, segmentsFrom]
      have segment := readSegment_uncommented plain last others
      generalize read : readSegment t ts = x at segment
      generalize readSegment t (uncommented ts) = y at segment
      cases segment with
      | error => exact .error trivial
      | @ok s s' both =>
        obtain ⟨found, closed⟩ := both
        obtain ⟨more, rest, tokens, rfl, first⟩ := split_of_readSegment read
        obtain ⟨tokens', names, -⟩ := Segment.uncommented?_spec found
        rw [tokens, Token.uncommented_cons plain] at tokens'
        have before : CommentsLast (s.tokens ++ rest) := by rwa [tokens]
        have shorter : rest.length < n := by simp [← length]
        have later (taken : List String) := ih rest.length shorter taken (last.suffix ⟨t :: more, rfl⟩)
          (fun u member => others u (List.mem_append_right _ member)) rfl
        dsimp only
        simp only [names, tokens, tokens', List.length_cons, Nat.add_sub_cancel, segmentsFrom_skip _ more.length,
          segmentsFrom_skip _ (uncommented more).length, Token.uncommented_append, List.drop_left]
        cases s.name? with
        | none =>
          dsimp only
          rw [Run.result_cons, Run.result_cons]
          exact (later taken).map fun ss ss' _ => UncommentedSegments.cons found closed first before
        | some name =>
          dsimp only
          split
          · exact .error trivial
          · rw [Run.result_cons, Run.result_cons]
            exact (later (name.raw :: taken)).map fun ss ss' _ => UncommentedSegments.cons found closed first before

/-! ## Definitions -/

def Macro.uncommented (m : Macro) : Macro := ⟨m.params, Token.uncommented m.body⟩

/-- The definitions without comments; constants have none. -/
def Definitions.uncommented (defs : Definitions) : Definitions :=
  ⟨defs.constants, defs.macros.map fun e => (e.1, e.2.uncommented)⟩

/-- What the definitions stand for can be put before any tokens, and no parameter is taken for a
    comment or a separator. -/
structure Definitions.Sealed (defs : Definitions) : Prop where
  constants : ∀ c ∈ defs.constants, ∀ t ∈ c.2, t.isComment = false
  bodies : ∀ m ∈ defs.macros, Token.Shut m.2.body
  marks : ∀ m ∈ defs.macros, ∀ t ∈ m.2.body, t.kind.isMark → t.raw ∉ m.2.params

theorem kept_uncommented (ss : List Segment) :
    (ss.filterMap Segment.uncommented?).flatMap Segment.kept = uncommented (ss.flatMap Segment.kept) := by
  induction ss with
  | nil => rfl
  | cons s ss ih =>
    rw [List.flatMap_cons, Token.uncommented_append, ← ih]
    cases found : s.uncommented? with
    | some s' => rw [List.filterMap_cons_some found, List.flatMap_cons, (Segment.uncommented?_spec found).2.2]
    | none =>
      rw [List.filterMap_cons_none found]
      cases s with
      | plain t =>
        have comment : t.isComment := by
          by_contra plain
          simp [Segment.uncommented?, plain] at found
        simp [Segment.kept, Token.uncommented_comment comment]
      | _ => cases found

theorem ofSegments_uncommented {ss : List Segment} (closed : ∀ s ∈ ss, s.Sealed) :
    Definitions.ofSegments (ss.filterMap Segment.uncommented?) = (Definitions.ofSegments ss).uncommented := by
  have constants : (ss.filterMap Segment.uncommented?).filterMap Segment.definedConstant? =
      ss.filterMap Segment.definedConstant? := by
    rw [List.filterMap_filterMap]
    refine List.filterMap_congr fun s member => ?_
    cases s with
    | plain t => by_cases comment : t.isComment <;> simp [Segment.uncommented?, Segment.definedConstant?, comment]
    | constant name line => exact congrArg (fun value => some (name.raw, value)) (closed _ member)
    | macroDefinition name params header body => rfl
  have macros : (ss.filterMap Segment.uncommented?).filterMap Segment.definedMacro? =
      (ss.filterMap Segment.definedMacro?).map fun e => (e.1, e.2.uncommented) := by
    rw [List.filterMap_filterMap, List.map_filterMap]
    refine List.filterMap_congr fun s _ => ?_
    cases s with
    | plain t => by_cases comment : t.isComment <;> simp [Segment.uncommented?, Segment.definedMacro?, comment]
    | _ => rfl
  rw [Definitions.ofSegments, constants, macros]
  rfl

theorem sealed_ofSegments {ss : List Segment} (closed : ∀ s ∈ ss, s.Sealed)
    (marks : ∀ s ∈ ss, ∀ t ∈ s.tokens, t.kind.isMark → beginsLikeMark t.raw) :
    (Definitions.ofSegments ss).Sealed := by
  refine ⟨fun c member => ?_, fun m member => ?_, fun m member t inside mark parameter => ?_⟩
  · obtain ⟨s, -, defines⟩ := List.mem_filterMap.mp member
    cases s with
    | constant name line =>
      cases defines
      exact Token.plain_uncommented _
    | _ => cases defines
  · obtain ⟨s, listed, defines⟩ := List.mem_filterMap.mp member
    cases s with
    | macroDefinition name params header body =>
      cases defines
      exact (closed _ listed).2.2
    | _ => cases defines
  · obtain ⟨s, listed, defines⟩ := List.mem_filterMap.mp member
    cases s with
    | macroDefinition name params header body =>
      cases defines
      have own := marks _ listed t (List.mem_append_right _ inside) mark
      simp [(closed _ listed).1 _ parameter] at own
    | _ => cases defines

end Bisc
