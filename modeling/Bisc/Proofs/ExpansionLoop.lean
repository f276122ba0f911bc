import Bisc.Proofs.Loop
import Bisc.Proofs.Origin

/-!
Expansion as a loop over a list of pending tokens, in front of which the products of invocations are
put. However long these are, and however names refer to one another, the loop comes to an end: an
invocation is traded for tokens of the next depth, and at the greatest depth nothing is invoked any
more.
-/
namespace Bisc

/-- The state of an expansion: the tokens that are pending, and what has been given out. -/
structure Worklist where
  pending : List Token
  out : List Token

/-- A round of the expansion takes a definition line, a token or an invocation off the front of the pending tokens. -/
def expansionRound (defs : Definitions) (w : Worklist) : Round Worklist (Except Error (List Token)) :=
  match w.pending with
  | [] => .stop (.ok w.out)
  | t :: rest =>
    if directiveAt? (t :: rest) = some "define" then
      .again ⟨(Token.afterLine rest).drop 1, w.out ++ (t :: Token.line rest ++ (Token.afterLine rest).take 1)⟩
    else if t.kind ≠ .macroOp then .again ⟨rest, w.out ++ [t]⟩
    else match invoke defs t rest with
      | .error e => .stop (.error e)
      | .ok (produced, after) => .again ⟨produced.map (Token.retag t.pos (t.depth + 1)) ++ after, w.out⟩

/-- What an expansion comes to from a state on. -/
def Worklist.due (defs : Definitions) (w : Worklist) : Except Error (List Token) :=
  (expand defs w.pending).map (w.out ++ ·)

variable {defs : Definitions}

/-- A round that goes on lowers the rank of the pending tokens and changes nothing in what they come to. -/
theorem expansionRound_again {w w' : Worklist} (next : expansionRound defs w = .again w') :
    Rank.Lt maxDepth (expansionRank w'.pending) (expansionRank w.pending) ∧ w'.due defs = w.due defs := by
  obtain ⟨pending, out⟩ := w
  unfold expansionRound at next
  cases pending with
  | nil => cases next
  | cons t rest =>
    dsimp only at next
    split at next
    · rename_i define
      cases next
      refine ⟨rank_lt_of_suffix (Token.drop_afterLine_suffix rest), ?_⟩
      rw [Worklist.due, Worklist.due, expand_define define, map_map]
      simp only [List.append_assoc]
    · rename_i undefined
      split at next
      · rename_i token
        cases next
        refine ⟨rank_lt_of_suffix List.suffix_rfl, ?_⟩
        rw [Worklist.due, Worklist.due, expand_token undefined token, map_map]
        simp only [List.append_assoc, List.singleton_append]
      · rename_i operator
        split at next
        · cases next
        · rename_i produced after invoked
          cases next
          refine ⟨rank_lt_of_invoke invoked, ?_⟩
          rw [Worklist.due, Worklist.due, expand_invocation (by simpa using operator) invoked]

/-- A round that stops gives what the pending tokens come to. -/
theorem expansionRound_stop {w : Worklist} {result : Except Error (List Token)}
    (last : expansionRound defs w = .stop result) :
    result = w.due defs := by
  obtain ⟨pending, out⟩ := w
  unfold expansionRound at last
  cases pending with
  | nil =>
    cases last
    rw [Worklist.due, expand]
    simp [Except.map]
  | cons t rest =>
    dsimp only at last
    split at last
    · cases last
    · split at last
      · cases last
      · rename_i operator
        split at last
        · rename_i refused
          cases last
          rw [Worklist.due, expand_error (by simpa using operator) refused]
          rfl
        · cases last

/-- The loop is the expansion. -/
theorem halts_expand (defs : Definitions) (ts : List Token) :
    Halts (expansionRound defs) ⟨ts, []⟩ (expand defs ts) := by
  have halts := halts_of_measure (Rank.lt_wf maxDepth) (fun w : Worklist => expansionRank w.pending)
    (Worklist.due defs)
    (fun _ _ => expansionRound_again) (fun _ _ => expansionRound_stop) ⟨ts, []⟩
  have whole : Worklist.due defs ⟨ts, []⟩ = expand defs ts := by
    cases result : expand defs ts <;> simp [Worklist.due, result, Except.map]
  rwa [whole] at halts

/-- No token of an expansion is deeper than invocations may be. -/
theorem depth_of_expand {ts out : List Token} (bounded : ∀ t ∈ ts, t.depth ≤ maxDepth)
    (expanded : expand defs ts = .ok out) :
    ∀ t ∈ out, t.depth ≤ maxDepth := by
  induction ts using expand.induct defs generalizing out with
  | case1 =>
    rw [expand] at expanded
    cases expanded
    simp
  | case2 t rest define after =>
    rename_i ih
    rw [expand_define define] at expanded
    obtain ⟨tail, later, rfl⟩ := map_eq_ok.mp expanded
    have stop : (Token.afterLine rest).take 1 ⊆ rest :=
      ((List.take_sublist _ _).trans (List.dropWhile_sublist _)).subset
    have first : t :: Token.line rest ++ (Token.afterLine rest).take 1 ⊆ t :: rest := by
      rw [List.cons_append]
      exact List.cons_subset_cons _ (List.append_subset.mpr ⟨(List.takeWhile_sublist _).subset, stop⟩)
    have behind : after.drop 1 ⊆ t :: rest := ((Token.drop_afterLine_suffix rest).trans (List.suffix_cons _ _)).subset
    have others := ih (fun u member => bounded u (behind member)) later
    intro u member
    rcases List.mem_append.mp member with here | there
    · exact bounded u (first here)
    · exact others u there
  | case3 t rest define token ih =>
    rw [expand_token define token] at expanded
    obtain ⟨tail, later, rfl⟩ := map_eq_ok.mp expanded
    obtain ⟨own, rest⟩ := List.forall_mem_cons.mp bounded
    exact List.forall_mem_cons.mpr ⟨own, ih rest later⟩
  | case4 t rest define operator e refused =>
    rw [expand_error (by simpa using operator) refused] at expanded
    cases expanded
  | case5 t rest define operator produced after invoked ih =>
    rw [expand_invocation (by simpa using operator) invoked] at expanded
    obtain ⟨shallow, suffix⟩ := invoke_spec invoked
    refine ih (fun u member => ?_) expanded
    rcases List.mem_append.mp member with new | old
    · obtain ⟨v, -, rfl⟩ := List.mem_map.mp new
      exact shallow
    · exact bounded u (List.mem_cons_of_mem _ (suffix.subset old))

/-- Expansion always ends, whatever the definitions and the depths of the tokens: after finitely
    many rounds the loop stops with tokens or an error. Tokens that come from a list of depth zero
    are no deeper than invocations may be. -/
theorem expansion_ends (defs : Definitions) (ts : List Token) :
    Halts (expansionRound defs) ⟨ts, []⟩ (expand defs ts) ∧
    ((∀ t ∈ ts, t.depth = 0) → ∀ out, expand defs ts = .ok out → ∀ t ∈ out, t.depth ≤ maxDepth) := by
  refine ⟨halts_expand defs ts, fun flat out expanded => ?_⟩
  exact depth_of_expand (fun t member => by simp [flat t member]) expanded

/-- As many constants as invocations may nest, each of which stands for the next. -/
private def chain : Definitions :=
  ⟨(List.range 64).map fun i => (s!"c{i}",
    if i < 63 then [⟨.macroOp, "%", none, ⟨1, 1⟩, 0⟩, ⟨.identifier, s!"c{i + 1}", none, ⟨1, 2⟩, 0⟩]
    else [⟨.opcode, "halt", some 1, ⟨1, 1⟩, 0⟩]), []⟩

private def chainUse : List Token := [⟨.macroOp, "%", none, ⟨9, 1⟩, 0⟩, ⟨.identifier, "c0", none, ⟨9, 2⟩, 0⟩]

/-- The greatest depth is reached. -/
theorem expansion_ends_chain : (∀ t ∈ chainUse, t.depth = 0) ∧
    ∃ out, expand chain chainUse = .ok out ∧ (∃ t ∈ out, t.depth = 64) ∧ ∀ t ∈ out, t.depth ≤ maxDepth := by
  have flat : ∀ t ∈ chainUse, t.depth = 0 := by decide
  obtain ⟨halts, bounded⟩ := expansion_ends chain chainUse
  have result : Halts (expansionRound chain) ⟨chainUse, []⟩ (.ok [⟨.opcode, "halt", some 1, ⟨9, 1⟩, 64⟩]) :=
    ⟨66, by rfl⟩
  have expanded := halts.unique result
  exact ⟨flat, _, expanded, ⟨_, List.mem_singleton_self _, rfl⟩, bounded flat _ expanded⟩

end Bisc
