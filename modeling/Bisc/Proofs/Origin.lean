import Bisc.Expansion
import Bisc.Proofs.Outcome

/-!
Where the tokens of an expansion come from: each is a token of the list that was expanded, with
the place of another and another depth at most. What holds of all tokens of a list, and of each in
the place of any other, holds of all tokens of its expansion.
-/
namespace Bisc

/-! ## Segments -/

private theorem line_subset (ts : List Token) : Token.line ts ⊆ ts := (List.takeWhile_sublist _).subset
private theorem afterLine_subset (ts : List Token) : Token.afterLine ts ⊆ ts := (List.dropWhile_sublist _).subset

/-- A segment has tokens of the list only. -/
theorem tokens_subset_of_readSegment {t : Token} {ts : List Token} {segment : Segment}
    (read : readSegment t ts = .ok segment) : segment.tokens ⊆ t :: ts := by
  unfold readSegment at read
  split at read
  · obtain ⟨name, -, read⟩ := bind_eq_ok.mp read
    cases read
    exact line_subset _
  · obtain ⟨name, -, read⟩ := bind_eq_ok.mp read
    obtain ⟨params, -, read⟩ := bind_eq_ok.mp read
    split at read
    · cases read
    · cases read
      intro u member
      simp only [Segment.tokens, List.mem_append] at member
      rcases member with (member | member) | member
      · exact line_subset _ member
      · exact afterLine_subset _ (List.mem_of_mem_take member)
      · exact afterLine_subset _ (List.mem_of_mem_drop (List.mem_of_mem_take member))
  · cases read
    simp [Segment.tokens]

theorem tokens_subset_of_segmentsFrom {taken : List String} {skip : Nat} {ts : List Token} {segment : Segment}
    (member : segment ∈ (segmentsFrom taken skip ts).out) : segment.tokens ⊆ ts := by
  induction ts generalizing taken skip with
  | nil => cases skip <;> simp [segmentsFrom, Run.done] at member
  | cons t ts ih =>
    cases skip with
    | succ skip =>
      rw [segmentsFrom] at member
      exact List.subset_cons_of_subset _ (ih member)
    | zero =>
      rw [segmentsFrom] at member
      cases read : readSegment t ts with
      | error e => simp [read, Run.fail] at member
      | ok first =>
        have own := tokens_subset_of_readSegment read
        simp only [read] at member
        split at member
        · rcases List.mem_cons.mp member with rfl | member
          · exact own
          · exact List.subset_cons_of_subset _ (ih member)
        · split at member
          · simp [Run.fail] at member
          · rcases List.mem_cons.mp member with rfl | member
            · exact own
            · exact List.subset_cons_of_subset _ (ih member)

theorem Segment.kept_subset_tokens (segment : Segment) : segment.kept ⊆ segment.tokens := by
  cases segment with
  | macroDefinition name params header body => exact List.subset_append_left _ _
  | _ => exact List.Subset.refl _

/-! ## Invocations -/

theorem mem_of_lookup {α : Type} {name : String} {value : α} {entries : List (String × α)}
    (found : entries.lookup name = some value) : ∃ key, (key, value) ∈ entries := by
  induction entries with
  | nil => cases found
  | cons e es ih =>
    rw [List.lookup_cons] at found
    split at found
    · cases found
      exact ⟨e.1, List.mem_cons_self⟩
    · obtain ⟨key, member⟩ := ih found
      exact ⟨key, List.mem_cons_of_mem _ member⟩

/-- The arguments of an invocation are tokens of its line. -/
theorem subset_of_readArguments {name : Token} {arity : Nat} {stop : Option Token} {params : List String}
    {ts : List Token} {arguments : List (String × List Token)}
    (read : readArguments name arity stop params ts = .ok arguments) : ∀ a ∈ arguments, a.2 ⊆ ts := by
  induction params generalizing ts arguments with
  | nil =>
    cases ts with
    | nil => cases read; simp
    | cons t ts => cases read
  | cons p ps ih =>
    have own : (ts.takeWhile fun t => t.kind ≠ .comma) ⊆ ts := (List.takeWhile_sublist _).subset
    have rest : (ts.dropWhile fun t => t.kind ≠ .comma) ⊆ ts := (List.dropWhile_sublist _).subset
    simp only [readArguments] at read
    split at read
    · cases read
    · split at read
      · obtain ⟨more, others, rfl⟩ := map_eq_ok.mp read
        intro a member
        rcases List.mem_cons.mp member with rfl | member
        · exact own
        · exact List.Subset.trans (ih others a member) rest
      · split at read
        · rename_i comma after remaining
          obtain ⟨more, others, rfl⟩ := map_eq_ok.mp read
          have later : after ⊆ ts := List.Subset.trans (List.subset_cons_self _ _) (remaining ▸ rest)
          intro a member
          rcases List.mem_cons.mp member with rfl | member
          · exact own
          · exact List.Subset.trans (ih others a member) later
        · cases read
        · cases read

/-- A macro body with arguments has tokens of the body and of the arguments. -/
theorem mem_substitute {arguments : List (String × List Token)} {body : List Token} {t : Token}
    (member : t ∈ substitute arguments body) : t ∈ body ∨ ∃ a ∈ arguments, t ∈ a.2 := by
  induction body using substitute.induct arguments with
  | case1 op p ts argument found ih =>
    rw [substitute, found] at member
    rcases List.mem_append.mp member with member | member
    · have bound : arguments.lookup p.raw = some argument := by
        split at found
        · exact found
        · cases found
      obtain ⟨key, listed⟩ := mem_of_lookup bound
      exact .inr ⟨_, listed, member⟩
    · exact (ih member).imp_left fun inside => by simp [inside]
  | case2 op p ts absent ih =>
    rw [substitute, absent] at member
    rcases List.mem_cons.mp member with rfl | member
    · exact .inl List.mem_cons_self
    · exact (ih member).imp_left (List.mem_cons_of_mem _)
  | case3 ts short =>
    rw [substitute] at member
    · exact .inl member
    · exact short

/-! ## Expansion, one token at a time -/

section Expansion

variable {defs : Definitions} {t : Token} {rest : List Token}

theorem expand_define (define : directiveAt? (t :: rest) = some "define") : expand defs (t :: rest) =
    (expand defs ((Token.afterLine rest).drop 1)).map
      (t :: Token.line rest ++ (Token.afterLine rest).take 1 ++ ·) := by
  rw [expand, if_pos define]

theorem expand_token (undefined : directiveAt? (t :: rest) ≠ some "define") (token : t.kind ≠ .macroOp) :
    expand defs (t :: rest) = (expand defs rest).map (t :: ·) := by
  rw [expand, if_neg undefined, if_pos token]

variable (operator : t.kind = .macroOp)
include operator

private theorem directiveAt?_operator : directiveAt? (t :: rest) = none := by
  cases rest <;> simp [directiveAt?, operator]

theorem expand_error {e : Error} (refused : invoke defs t rest = .error e) : expand defs (t :: rest) = .error e := by
  rw [expand, if_neg (by simp [directiveAt?_operator operator]), if_neg (by simp [operator])]
  split
  · simp_all
  · simp_all

theorem expand_invocation {produced after : List Token} (invoked : invoke defs t rest = .ok (produced, after)) :
    expand defs (t :: rest) = expand defs (produced.map (Token.retag t.pos (t.depth + 1)) ++ after) := by
  rw [expand, if_neg (by simp [directiveAt?_operator operator]), if_neg (by simp [operator])]
  split
  · simp_all
  · simp_all

end Expansion

section Transport

variable {P : Token → Prop}

/-- The tokens that the definitions stand for have the property. -/
structure Definitions.All (defs : Definitions) (P : Token → Prop) : Prop where
  constants : ∀ c ∈ defs.constants, ∀ t ∈ c.2, P t
  macros : ∀ m ∈ defs.macros, ∀ t ∈ m.2.body, P t

theorem forall_of_invoke {defs : Definitions} (defined : defs.All P) {op : Token} {ts produced after : List Token}
    (all : ∀ t ∈ ts, P t) (invoked : invoke defs op ts = .ok (produced, after)) :
    (∀ t ∈ produced, P t) ∧ ∀ t ∈ after, P t := by
  have rest : ∀ t ∈ after, P t := fun t member => all t ((invoke_spec invoked).2.subset member)
  refine ⟨?_, rest⟩
  unfold invoke at invoked
  split at invoked
  · cases invoked
  · rename_i name ts
    split at invoked
    · cases invoked
    · split at invoked
      · cases invoked
      · split at invoked
        · rename_i value found
          cases invoked
          obtain ⟨key, listed⟩ := mem_of_lookup found
          exact defined.constants _ listed
        · split at invoked
          · rename_i m found
            obtain ⟨arguments, read, invoked⟩ := bind_eq_ok.mp invoked
            cases invoked
            obtain ⟨key, listed⟩ := mem_of_lookup found
            intro t member
            rcases mem_substitute member with inside | ⟨a, given, inside⟩
            · exact defined.macros _ listed t inside
            · have own := subset_of_readArguments read a (List.mem_reverse.mp given) inside
              exact all t (List.mem_cons_of_mem _ (line_subset _ (List.mem_filter.mp own).1))
          · cases invoked

theorem forall_of_expand (kept : ∀ t op depth, P t → P op → P (t.retag op.pos depth)) {defs : Definitions}
    (defined : defs.All P) {ts out : List Token} (all : ∀ t ∈ ts, P t) (expanded : expand defs ts = .ok out) :
    ∀ t ∈ out, P t := by
  induction ts using expand.induct defs generalizing out with
  | case1 =>
    rw [expand] at expanded
    cases expanded
    simp
  | case2 t rest define after =>
    rename_i ih
    rw [expand_define define] at expanded
    obtain ⟨tail, later, rfl⟩ := map_eq_ok.mp expanded
    have behind : ∀ u ∈ after, P u := fun u member => all u (List.mem_cons_of_mem _ (afterLine_subset _ member))
    have others := ih (fun u member => behind u (List.mem_of_mem_drop member)) later
    intro u member
    simp only [List.cons_append, List.mem_cons, List.mem_append] at member
    rcases member with rfl | (member | member) | member
    · exact all u List.mem_cons_self
    · exact all u (List.mem_cons_of_mem _ (line_subset _ member))
    · exact behind u (List.mem_of_mem_take member)
    · exact others u member
  | case3 t rest define plain ih =>
    rw [expand_token define plain] at expanded
    obtain ⟨tail, later, rfl⟩ := map_eq_ok.mp expanded
    have others := ih (fun u member => all u (List.mem_cons_of_mem _ member)) later
    intro u member
    rcases List.mem_cons.mp member with rfl | member
    · exact all u List.mem_cons_self
    · exact others u member
  | case4 t rest define operator e refused =>
    rw [expand_error (by simpa using operator) refused] at expanded
    cases expanded
  | case5 t rest define operator produced after invoked ih =>
    rw [expand_invocation (by simpa using operator) invoked] at expanded
    obtain ⟨new, old⟩ := forall_of_invoke defined (fun u member => all u (List.mem_cons_of_mem _ member)) invoked
    refine ih (fun u member => ?_) expanded
    rcases List.mem_append.mp member with member | member
    · obtain ⟨v, inside, rfl⟩ := List.mem_map.mp member
      exact kept v t _ (new v inside) (all t List.mem_cons_self)
    · exact old u member

/-- The definitions and what is kept of a list have what all its tokens have. -/
theorem forall_of_segments {ts : List Token} {ss : List Segment} (all : ∀ t ∈ ts, P t)
    (cut : (segments ts).result = .ok ss) :
    (Definitions.ofSegments ss).All P ∧ ∀ t ∈ ss.flatMap Segment.kept, P t := by
  have listed : ∀ segment ∈ ss, ∀ t ∈ segment.tokens, P t := by
    intro segment member t inside
    unfold Run.result at cut
    split at cut
    · cases cut
    · cases cut
      exact all t (tokens_subset_of_segmentsFrom member inside)
  refine ⟨⟨?_, ?_⟩, fun t member => ?_⟩
  · intro c member t inside
    obtain ⟨segment, belongs, defines⟩ := List.mem_filterMap.mp member
    cases segment with
    | constant name line =>
      cases defines
      exact listed _ belongs t (List.mem_of_mem_drop (List.mem_filter.mp inside).1)
    | _ => cases defines
  · intro m member t inside
    obtain ⟨segment, belongs, defines⟩ := List.mem_filterMap.mp member
    cases segment with
    | macroDefinition name params header body =>
      cases defines
      exact listed _ belongs t (List.mem_append_right _ inside)
    | _ => cases defines
  · obtain ⟨segment, belongs, inside⟩ := List.mem_flatMap.mp member
    exact listed segment belongs t (segment.kept_subset_tokens inside)

/-- What holds of all tokens, and of each in the place of any other, holds of all tokens after expansion. -/
theorem forall_of_preprocess (kept : ∀ t op depth, P t → P op → P (t.retag op.pos depth)) {ts out : List Token}
    (all : ∀ t ∈ ts, P t) (preprocessed : preprocess ts = .ok out) : ∀ t ∈ out, P t := by
  obtain ⟨ss, cut, expanded⟩ := bind_eq_ok.mp preprocessed
  obtain ⟨defined, listed⟩ := forall_of_segments all cut
  exact forall_of_expand kept defined listed expanded

end Transport

/-! ## Lists with nothing to expand -/

theorem readSegment_plain {t : Token} {ts : List Token} (undefined : directiveAt? (t :: ts) ≠ some "define")
    (other : directiveAt? (t :: ts) ≠ some "macro") : readSegment t ts = .ok (.plain t) := by
  unfold readSegment
  split
  · contradiction
  · contradiction
  · rfl

section Unchanged

variable {ts : List Token} (undefining : ∀ us, us <:+ ts → directiveAt? us ≠ some "define" ∧
  directiveAt? us ≠ some "macro")
include undefining

private theorem segments_undefining : segments ts = ⟨ts.map .plain, none⟩ := by
  unfold segments
  induction ts with
  | nil => rfl
  | cons t ts ih =>
    have rest := ih fun us behind => undefining us (behind.trans (List.suffix_cons ..))
    obtain ⟨constant, template⟩ := undefining _ List.suffix_rfl
    simp only [segmentsFrom, readSegment_plain constant template, Segment.name?, Segment.tokens,
      List.length_singleton, Nat.sub_self, rest]
    rfl

private theorem expand_undefining (uninvoking : ∀ t ∈ ts, t.kind ≠ .macroOp) (defs : Definitions) :
    expand defs ts = .ok ts := by
  induction ts with
  | nil => rw [expand]
  | cons t ts ih =>
    obtain ⟨here, later⟩ := List.forall_mem_cons.mp uninvoking
    have rest := ih (fun us behind => undefining us (behind.trans (List.suffix_cons ..))) later
    rw [expand, if_neg (undefining _ List.suffix_rfl).1, if_pos here, rest]
    rfl

/-- Tokens that define and invoke nothing stay as they are. -/
theorem preprocess_unchanged (uninvoking : ∀ t ∈ ts, t.kind ≠ .macroOp) : preprocess ts = .ok ts := by
  have kept : (ts.map Segment.plain).flatMap Segment.kept = ts := by
    rw [List.flatMap_map]
    exact List.flatMap_singleton' ts
  simp only [preprocess, segments_undefining undefining, Run.result, bind, Except.bind, kept]
  exact expand_undefining undefining uninvoking _

end Unchanged

/-- Tokens without directives and invocations stay as they are. -/
theorem preprocess_plain {ts : List Token} (plain : ∀ t ∈ ts, t.kind ≠ .directive ∧ t.kind ≠ .macroOp) :
    preprocess ts = .ok ts := by
  refine preprocess_unchanged (fun us behind => ?_) fun t member => (plain t member).2
  have none : directiveAt? us = none := by
    match us, behind with
    | [], _ => rfl
    | [_], _ => rfl
    | t :: u :: us, behind => simp [directiveAt?, (plain t (behind.mem List.mem_cons_self)).1]
  simp [none]

end Bisc
