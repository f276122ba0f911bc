import Bisc.Assembly
import Bisc.Proofs.CommentedDefinitions

/-!
Comments do nothing. Each stage that reads tokens meets comments at the ends of lines only, in what
invocations stand for as in the source, and what it makes of a list without its comments is what it
makes of the list, less its comments.
-/
namespace Bisc

open Token (uncommented CommentsLast)

/-! ## Invocations -/

theorem keys_of_readArguments {name : Token} {arity : Nat} {stop : Option Token}
    {params : List String} {ts : List Token}
    {arguments : List (String × List Token)} (read : readArguments name arity stop params ts = .ok arguments) :
    arguments.map Prod.fst = params := by
  induction params generalizing ts arguments with
  | nil =>
    cases ts with
    | nil =>
      cases read
      rfl
    | cons t ts => cases read
  | cons p ps ih =>
    simp only [readArguments] at read
    split at read
    · cases read
    · split at read
      · obtain ⟨more, others, rfl⟩ := map_eq_ok.mp read
        rw [List.map_cons, ih others]
      · split at read
        · obtain ⟨more, others, rfl⟩ := map_eq_ok.mp read
          rw [List.map_cons, ih others]
        · cases read
        · cases read

section Substitution

variable {arguments : List (String × List Token)}

theorem substitute_kept {t p : Token} (absent : t.kind = .macroOp → arguments.lookup p.raw = none) (ts : List Token) :
    substitute arguments (t :: p :: ts) = t :: substitute arguments (p :: ts) := by
  rw [substitute]
  by_cases operator : t.kind = .macroOp
  · rw [if_pos operator, absent operator]
  · rw [if_neg operator]

theorem substitute_other {t : Token} (token : t.kind ≠ .macroOp) (ts : List Token) :
    substitute arguments (t :: ts) = t :: substitute arguments ts := by
  cases ts with
  | nil => rfl
  | cons p ts => exact substitute_kept (fun operator => absurd operator token) ts

variable (plain : ∀ a ∈ arguments, ∀ t ∈ a.2, t.isComment = false)
include plain

private theorem plain_argument {t p : Token} {argument : List Token}
    (found : (if t.kind = .macroOp then arguments.lookup p.raw else none) = some argument) :
    ∀ u ∈ argument, u.isComment = false := by
  split at found
  · obtain ⟨key, listed⟩ := mem_of_lookup found
    exact plain _ listed
  · cases found

/-- Arguments keep the comments of a body at the ends of their lines. -/
theorem shut_substitute {body : List Token} (shut : Token.Shut body) : Token.Shut (substitute arguments body) := by
  induction body using substitute.induct arguments with
  | case1 t p ts argument found ih =>
    rw [substitute, found]
    intro us later
    rw [List.append_assoc]
    exact Token.shut_of_plain (plain_argument plain found) _ (ih shut.tail.tail us later)
  | case2 t p ts absent ih =>
    rw [substitute, absent]
    refine fun us later => List.isChain_cons.mpr ⟨fun u head comment => ?_, ih shut.tail us later⟩
    have ends : p.isSeparator := (List.isChain_cons.mp shut.commentsLast).1 p rfl comment
    have token : p.kind ≠ .macroOp := fun operator => by simp [Token.isSeparator, operator] at ends
    rw [substitute_other token] at head
    cases head
    exact ends
  | case3 ts short =>
    rw [substitute]
    · exact shut
    · exact short

/-- Arguments go where they go without the comments, unless a parameter is taken for a comment or a separator. -/
theorem substitute_uncommented {body : List Token} (last : CommentsLast body)
    (marks : ∀ t ∈ body, t.kind.isMark → arguments.lookup t.raw = none) :
    substitute arguments (uncommented body) = uncommented (substitute arguments body) := by
  induction body using substitute.induct arguments with
  | case1 t p ts argument found ih =>
    have rest := ih last.tail.tail fun u member => marks u (by simp [member])
    have operator : t.kind = .macroOp := by
      by_contra token
      simp [token] at found
    have bound : arguments.lookup p.raw = some argument := by simpa [operator] using found
    have parameter : p.isComment = false := by
      by_contra comment
      have absent := marks p (by simp) (by simp_all [Token.isComment, TokenKind.isMark])
      simp [absent] at bound
    have own : t.isComment = false := by simp [Token.isComment, operator]
    rw [Token.uncommented_cons own, Token.uncommented_cons parameter, substitute, substitute, found]
    change argument ++ _ = uncommented (argument ++ _)
    rw [Token.uncommented_append, Token.uncommented_of_plain (plain_argument plain found), rest]
  | case2 t p ts absent ih =>
    have rest := ih last.tail fun u member => marks u (by simp [List.mem_cons.mp member])
    rw [substitute, absent]
    by_cases comment : t.isComment
    · rw [Token.uncommented_comment comment, Token.uncommented_comment comment, rest]
    · have own : t.isComment = false := by simpa using comment
      rw [Token.uncommented_cons own, Token.uncommented_cons own, ← rest]
      cases after : uncommented (p :: ts) with
      | nil => rfl
      | cons q qs =>
        refine substitute_kept (fun operator => ?_) qs
        by_cases hidden : p.isComment
        · -- What comes after the comment is the separator of its line.
          rw [Token.uncommented_comment hidden] at after
          have ends : q.isSeparator := last.tail.uncommented_after hidden q (by rw [after]; rfl)
          have member : q ∈ ts := (List.mem_filter.mp (after ▸ List.mem_cons_self)).1
          exact marks q (by simp [member]) (Token.isMark_of_isSeparator ends)
        · rw [Token.uncommented_cons (by simpa using hidden)] at after
          cases after
          simpa [operator] using absent
  | case3 ts short =>
    cases ts with
    | nil => rfl
    | cons t ts =>
      cases ts with
      | nil => by_cases comment : t.isComment <;> simp [uncommented, comment, substitute]
      | cons p ts => exact absurd rfl (short t p ts)

end Substitution

theorem lookup_map_snd {α β : Type} (f : α → β) (name : String) (entries : List (String × α)) :
    (entries.map fun e => (e.1, f e.2)).lookup name = (entries.lookup name).map f := by
  induction entries with
  | nil => rfl
  | cons e es ih =>
    rw [List.map_cons, List.lookup_cons, List.lookup_cons, ih]
    split <;> rfl

section Expansion

variable {defs : Definitions} (closed : defs.Sealed)
include closed

theorem invokeMacro_uncommented {m : Macro} {name : Token} (listed : ∃ key, (key, m) ∈ defs.macros)
    (ts : List Token) :
    Agree (fun _ => True) (fun x y => y = (uncommented x.1, uncommented x.2) ∧ Token.Shut x.1) (invokeMacro m name ts)
      (invokeMacro m.uncommented name (uncommented ts)) := by
  obtain ⟨key, listed⟩ := listed
  unfold invokeMacro
  simp only [Macro.uncommented, Token.head_afterLine_uncommented, Token.line_uncommented,
    Token.uncommented_uncommented,
    Token.drop_afterLine_uncommented]
  cases read : readArguments name m.params.length (Token.afterLine ts).head? m.params
    (uncommented (Token.line ts)) with
  | error e => exact .error trivial
  | ok arguments =>
    have plain : ∀ a ∈ arguments.reverse, ∀ t ∈ a.2, t.isComment = false := fun a member t inside =>
      Token.plain_uncommented _ t (subset_of_readArguments read a (List.mem_reverse.mp member) inside)
    have shut := closed.bodies _ listed
    have marks : ∀ t ∈ m.body, t.kind.isMark → arguments.reverse.lookup t.raw = none := by
      intro t member mark
      have other := closed.marks _ listed t member mark
      rw [← keys_of_readArguments read] at other
      refine List.lookup_eq_none_iff.mpr fun a given => ?_
      have differs : t.raw ≠ a.1 := fun same => other (same ▸ List.mem_map_of_mem (List.mem_reverse.mp given))
      simpa using differs
    exact .ok ⟨by rw [substitute_uncommented plain shut.commentsLast marks], shut_substitute plain shut⟩

/-- An invocation stands for the same without comments, and its product can be put before any tokens. -/
theorem invoke_uncommented (op : Token) {ts : List Token} (last : CommentsLast ts) :
    Agree (fun _ => True) (fun x y => y = (uncommented x.1, uncommented x.2) ∧ Token.Shut x.1) (invoke defs op ts)
      (invoke defs.uncommented op (uncommented ts)) := by
  rcases head_uncommented last with ⟨name, us, rfl, same⟩ | ⟨other, other'⟩
  · rw [same, invoke, invoke]
    by_cases unnamed : !name.isWord
    · rw [if_pos unnamed, if_pos unnamed]
      exact .error trivial
    rw [if_neg unnamed, if_neg unnamed]
    by_cases deep : op.depth ≥ maxDepth
    · rw [if_pos deep, if_pos deep]
      exact .error trivial
    rw [if_neg deep, if_neg deep]
    have constants : defs.uncommented.constants = defs.constants := rfl
    have macros : defs.uncommented.macros.lookup name.raw =
        (defs.macros.lookup name.raw).map Macro.uncommented := lookup_map_snd Macro.uncommented name.raw defs.macros
    rw [constants, macros]
    cases found : defs.constants.lookup name.raw with
    | some value =>
      obtain ⟨key, listed⟩ := mem_of_lookup found
      have plain := closed.constants _ listed
      exact .ok ⟨by rw [Token.uncommented_of_plain plain], Token.shut_of_plain plain⟩
    | none =>
      cases found : defs.macros.lookup name.raw with
      | some m => exact invokeMacro_uncommented closed (mem_of_lookup found) us
      | none => exact .error trivial
  · have fails {defs : Definitions} {us : List Token} (other : ∀ u ∈ us.head?, u.isWord = false) :
        ∃ e, invoke defs op us = .error e := by
      cases us with
      | nil => exact ⟨_, rfl⟩
      | cons u us => exact ⟨_, by rw [invoke, if_pos (by simp [other u rfl])]⟩
    obtain ⟨e, failed⟩ := fails other
    obtain ⟨e', failed'⟩ := fails other'
    rw [failed, failed']
    exact .error trivial

omit closed in
theorem commentsLast_retag {produced after : List Token} (shut : Token.Shut produced)
    (last : CommentsLast after) (pos : Position)
    (depth : Nat) : CommentsLast (produced.map (Token.retag pos depth) ++ after) := by
  obtain ⟨own, -, joint⟩ := List.isChain_append.mp (shut after last)
  refine List.isChain_append.mpr ⟨(List.isChain_map _).mpr own, last, fun t final u head comment => ?_⟩
  rw [List.getLast?_map] at final
  obtain ⟨t', final', rfl⟩ := Option.map_eq_some_iff.mp final
  exact joint t' final' u head comment

omit closed in
theorem uncommented_retag (ts : List Token) (pos : Position) (depth : Nat) :
    uncommented (ts.map (Token.retag pos depth)) = (uncommented ts).map (Token.retag pos depth) := List.filter_map

omit closed in
/-- Where a comment or a separator comes next, or nothing, it does after the expansion. -/
theorem expand_head {ts out : List Token} (mark : ∀ t ∈ ts.head?, t.kind.isMark)
    (expanded : expand defs ts = .ok out) :
    out.head? = ts.head? := by
  cases ts with
  | nil =>
    rw [expand] at expanded
    cases expanded
    rfl
  | cons t ts =>
    have own := mark t rfl
    have undefined : directiveAt? (t :: ts) ≠ some "define" := fun define => by
      simp [(of_directiveAt? define).1, TokenKind.isMark] at own
    have token : t.kind ≠ .macroOp := fun operator => by simp [operator, TokenKind.isMark] at own
    rw [expand_token undefined token] at expanded
    obtain ⟨rest, -, rfl⟩ := map_eq_ok.mp expanded
    rfl

omit closed in
/-- The line of a definition is followed by what its line was followed by, or by nothing. -/
theorem commentsLast_define {t : Token} {rest out : List Token} (last : CommentsLast (t :: rest))
    (later : CommentsLast out)
    (ended : Token.afterLine rest = [] → out = []) :
    CommentsLast (t :: Token.line rest ++ (Token.afterLine rest).take 1 ++ out) := by
  rw [← Token.line_append_afterLine rest, ← List.cons_append] at last
  cases found : Token.afterLine rest with
  | nil =>
    rw [found] at last
    simpa [ended found] using last
  | cons stop us =>
    rw [found] at last
    exact Token.shut_of_separator last (Token.afterLine_head found) out later

/-- The expansion without comments is the expansion of the list without comments, and comments stay
    where they were. -/
theorem expand_uncommented {ts : List Token} (last : CommentsLast ts) :
    Agree (fun _ => True) (fun out out' => out' = uncommented out ∧ CommentsLast out) (expand defs ts)
      (expand defs.uncommented (uncommented ts)) := by
  induction ts using expand.induct defs with
  | case1 =>
    rw [expand, Token.uncommented_nil, expand]
    exact .ok ⟨rfl, .nil⟩
  | case2 t rest define after =>
    rename_i ih
    have dot := (of_directiveAt? define).1
    have plain : t.isComment = false := by simp [Token.isComment, dot]
    have later := ih (last.tail.suffix ((List.drop_suffix _ _).trans (List.dropWhile_suffix _)))
    rw [Token.uncommented_cons plain, expand_define define,
      expand_define ((directiveAt?_uncommented last.tail).trans define), Token.drop_afterLine_uncommented,
      Token.take_afterLine_uncommented, Token.line_uncommented]
    refine later.map ?_
    rintro out _ expanded ⟨rfl, tail⟩
    refine ⟨?_, commentsLast_define last tail fun none => ?_⟩
    · rw [Token.uncommented_append, Token.uncommented_append, Token.uncommented_cons plain,
        Token.uncommented_take_afterLine]
    · change expand defs ((Token.afterLine rest).drop 1) = .ok out at expanded
      rw [none, List.drop_nil, expand] at expanded
      cases expanded
      rfl
  | case3 t rest define token ih =>
    rw [expand_token define token]
    by_cases comment : t.isComment
    · rw [Token.uncommented_comment comment]
      refine (ih last.tail).map_left ?_
      rintro out _ expanded ⟨rfl, later⟩
      have mark : ∀ u ∈ rest.head?, u.kind.isMark := fun u head =>
        Token.isMark_of_isSeparator ((List.isChain_cons.mp last).1 u head comment)
      exact ⟨(Token.uncommented_comment comment out).symm, last.cons_of_head later (expand_head mark expanded)⟩
    · have plain : t.isComment = false := by simpa using comment
      rw [Token.uncommented_cons plain, expand_token (by rwa [directiveAt?_uncommented last.tail]) token]
      refine (ih last.tail).map ?_
      rintro out _ - ⟨rfl, later⟩
      exact ⟨(Token.uncommented_cons plain out).symm, Token.commentsLast_cons plain later⟩
  | case4 t rest define operator e refused =>
    have token : t.kind = .macroOp := by simpa using operator
    have plain : t.isComment = false := by simp [Token.isComment, token]
    have invoked := invoke_uncommented closed t last.tail
    rw [refused] at invoked
    obtain ⟨-, e', refused'⟩ := invoked.error_left
    rw [Token.uncommented_cons plain, expand_error token refused, expand_error token refused']
    exact .error trivial
  | case5 t rest define operator produced after found ih =>
    have token : t.kind = .macroOp := by simpa using operator
    have plain : t.isComment = false := by simp [Token.isComment, token]
    have invoked := invoke_uncommented closed t last.tail
    rw [found] at invoked
    obtain ⟨_, found', rfl, shut⟩ := invoked.ok_left
    have kept := commentsLast_retag shut (last.tail.suffix (invoke_spec found).2) t.pos (t.depth + 1)
    rw [Token.uncommented_cons plain, expand_invocation token found,
      expand_invocation token found', ← uncommented_retag,
      ← Token.uncommented_append]
    exact ih kept

end Expansion

/-! ## Assembly -/

theorem preprocess_uncommented (source : String) :
    Agree (fun _ => True) (fun out out' => out' = uncommented out ∧ CommentsLast out)
      (preprocess (tokenize bisc source))
      (preprocess (uncommented (tokenize bisc source))) := by
  have cut := segmentsFrom_uncommented [] (commentsLast_tokenize bisc source)
    fun t member => (beginsLikeMark_tokenize member).2
  refine Agree.bind cut fun ss ss' found _ later => ?_
  have marks : ∀ s ∈ ss, ∀ t ∈ s.tokens, t.kind.isMark → beginsLikeMark t.raw := by
    intro s member t inside
    unfold Run.result at found
    split at found
    · cases found
    · cases found
      exact (beginsLikeMark_tokenize (tokens_subset_of_segmentsFrom member inside)).1
  rw [later.same, kept_uncommented, ofSegments_uncommented later.closed]
  exact expand_uncommented (sealed_ofSegments later.closed marks) later.last

/-- Assembles the tokens of a source text. -/
def buildTokens (ts : List Token) : Except Error Build := do
  let (program, symbols) ← analyze (← parse bisc (← preprocess ts))
  return ⟨program, symbols, ← generate program symbols⟩

private theorem agree_self {α : Type} (x : Except Error α) : Agree (fun _ => True) (fun a b => a = b) x x := by
  cases x with
  | ok a => exact .ok rfl
  | error e => exact .error trivial

theorem buildTokens_uncommented (source : String) :
    Agree (fun _ => True) (fun b b' => b = b') (buildTokens (tokenize bisc source))
      (buildTokens (uncommented (tokenize bisc source))) := by
  refine Agree.bind (preprocess_uncommented source) ?_
  rintro out _ - - ⟨rfl, last⟩
  refine Agree.bind (parse_uncommented bisc last) ?_
  rintro p _ - - rfl
  exact agree_self _

/-- Comments are inert: without them a source is assembled if and only if it is with them, and to
    the same program, symbols and object file. -/
theorem comments_inert (source : String) :
    build source = buildTokens (tokenize bisc source) ∧ ∀ b, buildTokens (tokenize bisc source) = .ok b ↔
      buildTokens (Token.uncommented (tokenize bisc source)) = .ok b := by
  refine ⟨?_, fun b => ?_⟩
  · unfold build parseSource buildTokens
    simp only [bind_assoc]
  · have agreed := buildTokens_uncommented source
    generalize buildTokens (tokenize bisc source) = x at agreed
    generalize buildTokens (uncommented (tokenize bisc source)) = y at agreed
    cases agreed with
    | ok same => rw [same]
    | error => simp

end Bisc
