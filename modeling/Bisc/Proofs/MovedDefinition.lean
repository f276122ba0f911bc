import Bisc.Proofs.Cuts
import Bisc.Proofs.FixedPoint
import Bisc.Proofs.InertComments
import Bisc.Proofs.JoinedLines

/-!
A constant may be defined anywhere. If what macros stand for ends with a whole line, an expansion
goes line by line, and depends on what names stand for and not on where they are defined; so the
line of a constant's definition may be moved over other lines, and moves in the result.
-/
namespace Bisc

open Token (uncommented)

/-- The whole line of a constant's definition. -/
def DefinitionLine (line : List Token) : Prop :=
  ∃ dot word name value stop, line = dot :: word :: name :: (value ++ [stop]) ∧ dot.kind = .directive ∧
    (word.isWord ∧ word.name = "define") ∧ name.isWord ∧ (∀ t ∈ value, t.isSeparator = false) ∧ stop.isSeparator

/-- The body is empty, or it ends with a separator; if that is spelled like a parameter, no `%` is before it. -/
def Macro.EndsLine (m : Macro) : Prop :=
  ∀ t ∈ m.body.getLast?, t.isSeparator ∧ (t.raw ∈ m.params → ∀ op ∈ m.body.dropLast.getLast?, op.kind ≠ .macroOp)

instance (m : Macro) : Decidable m.EndsLine := inferInstanceAs (Decidable (∀ t ∈ m.body.getLast?, _))

/-- Every macro of the list is empty or ends a line. -/
def BodiesEndLines (ts : List Token) : Prop :=
  ∀ ss, (segments ts).result = .ok ss → ∀ m ∈ (Definitions.ofSegments ss).macros, m.2.EndsLine

instance (ts : List Token) : Decidable (BodiesEndLines ts) :=
  inferInstanceAs (Decidable (∀ ss, (segments ts).result = .ok ss → _))

/-! ## Line by line -/

/-- Arguments leave the end of a body, unless a parameter is there. -/
theorem getLast?_substitute {arguments : List (String × List Token)} {body : List Token}
    (free : ∀ t ∈ body.getLast?, arguments.lookup t.raw = none ∨ ∀ op ∈ body.dropLast.getLast?, op.kind ≠ .macroOp) :
    (substitute arguments body).getLast? = body.getLast? := by
  -- Behind its first tokens, what is said of the end of the body is still true.
  have later {front : List Token} {u : Token} {us : List Token}
      (free : ∀ t ∈ (front ++ u :: us).getLast?, arguments.lookup t.raw = none ∨
        ∀ op ∈ (front ++ u :: us).dropLast.getLast?, op.kind ≠ .macroOp) :
      ∀ t ∈ (u :: us).getLast?, arguments.lookup t.raw = none ∨ ∀ op ∈ (u :: us).dropLast.getLast?,
        op.kind ≠ .macroOp := by
    intro t last
    refine (free t (by rw [List.getLast?_append, last]; rfl)).imp_right fun other op before => other op ?_
    rw [List.dropLast_append_of_ne_nil (List.cons_ne_nil u us), List.getLast?_append, before]
    rfl
  induction body using substitute.induct arguments with
  | case1 t p ts argument found ih =>
    obtain ⟨operator, bound⟩ : t.kind = .macroOp ∧ arguments.lookup p.raw = some argument := by
      split at found
      · exact ⟨‹_›, found⟩
      · cases found
    cases ts with
    | nil =>
      rcases free p rfl with absent | other
      · simp [absent] at bound
      · exact absurd operator (other t rfl)
    | cons u us =>
      have rest := ih (@later [t, p] u us free)
      rw [substitute, found]
      dsimp only
      rw [List.getLast?_append, rest, List.getLast?_cons_cons, List.getLast?_cons_cons, List.getLast?_cons]
      rfl
  | case2 t p ts absent ih =>
    have rest := ih (@later [t] p ts free)
    rw [substitute, absent]
    dsimp only
    rw [List.getLast?_cons, rest, List.getLast?_cons_cons, List.getLast?_cons]
    rfl
  | case3 ts short =>
    rw [substitute]
    exact short

theorem key_of_lookup {α : Type} {name : String} {value : α} {entries : List (String × α)}
    (found : entries.lookup name = some value) : name ∈ entries.map Prod.fst := by
  by_contra absent
  have none : entries.lookup name = none := by
    refine List.lookup_eq_none_iff.mpr fun e listed => ?_
    have differs : name ≠ e.1 := fun same => absent (same ▸ List.mem_map_of_mem listed)
    simpa using differs
  simp [none] at found

theorem wholeLines_retag {ts : List Token} (whole : WholeLines ts) (pos : Position) (depth : Nat) :
    WholeLines (ts.map (Token.retag pos depth)) := by
  intro t last
  rw [List.getLast?_map] at last
  obtain ⟨u, final, rfl⟩ := Option.map_eq_some_iff.mp last
  exact whole u final

section Expansion

variable {defs : Definitions} {op : Token} {ts : List Token}

/-- An invocation takes nothing from behind whole lines. -/
theorem invoke_append (whole : WholeLines ts) (some : ts ≠ []) (us : List Token) :
    invoke defs op (ts ++ us) = (invoke defs op ts).map fun x => (x.1, x.2 ++ us) := by
  cases ts with
  | nil => contradiction
  | cons name ts =>
    rw [List.cons_append, invoke, invoke]
    by_cases unnamed : !name.isWord
    · rw [if_pos unnamed, if_pos unnamed]
      rfl
    rw [if_neg unnamed, if_neg unnamed]
    by_cases deep : op.depth ≥ maxDepth
    · rw [if_pos deep, if_pos deep]
      rfl
    rw [if_neg deep, if_neg deep]
    cases defs.constants.lookup name.raw with
    | some value => rfl
    | none =>
      cases defs.macros.lookup name.raw with
      | none => rfl
      | some m =>
        have spelled : name.isWord := by simpa using unnamed
        have more := whole.more (Token.isSeparator_of_isWord spelled)
        obtain ⟨line, after, stopped⟩ := whole.tail.line_append more us
        have head : (Token.afterLine ts ++ us).head? = (Token.afterLine ts).head? := by
          obtain ⟨stop, vs, found⟩ := List.exists_cons_of_ne_nil stopped
          rw [found]
          rfl
        simp only [invokeMacro, line, after, head, List.drop_append_of_le_length (List.length_pos_of_ne_nil stopped)]
        cases readArguments name m.params.length (Token.afterLine ts).head? m.params
          (uncommented (Token.line ts)) <;> rfl

variable (closed : ∀ m ∈ defs.macros, m.2.EndsLine)
include closed

/-- What takes the place of an invocation in whole lines leaves whole lines. -/
theorem wholeLines_of_invoke (whole : WholeLines ts) {produced after : List Token}
    (invoked : invoke defs op ts = .ok (produced, after)) : WholeLines (produced ++ after) := by
  have behind : WholeLines after := whole.suffix (invoke_spec invoked).2
  unfold invoke at invoked
  split at invoked
  · cases invoked
  · rename_i name ts
    split at invoked
    · cases invoked
    · rename_i named
      split at invoked
      · cases invoked
      · split at invoked
        · cases invoked
          refine behind.append_right ?_
          exact whole.more (Token.isSeparator_of_isWord (by simpa using named))
        · split at invoked
          · rename_i m found
            obtain ⟨arguments, read, invoked⟩ := bind_eq_ok.mp invoked
            cases invoked
            obtain ⟨key, listed⟩ := mem_of_lookup found
            refine WholeLines.append ?_ behind
            have free : ∀ t ∈ m.body.getLast?, arguments.reverse.lookup t.raw = none ∨
                ∀ op ∈ m.body.dropLast.getLast?, op.kind ≠ .macroOp := by
              intro t last
              by_cases named : t.raw ∈ m.params
              · exact .inr ((closed _ listed t last).2 named)
              · rw [← keys_of_readArguments read] at named
                refine .inl (Option.eq_none_iff_forall_ne_some.mpr fun argument given => named ?_)
                simpa using key_of_lookup given
            intro t last
            rw [getLast?_substitute free] at last
            exact (closed _ listed t last).1
          · cases invoked

/-- Whole lines are expanded by themselves, and then what follows them. -/
theorem expand_append (whole : WholeLines ts) (us : List Token) :
    expand defs (ts ++ us) = expand defs ts >>= fun out => (expand defs us).map (out ++ ·) := by
  induction ts using expand.induct defs with
  | case1 =>
    rw [List.nil_append, expand]
    change _ = (expand defs us).map ([] ++ ·)
    cases expand defs us <;> rfl
  | case2 t rest define after =>
    rename_i ih
    obtain ⟨dot, word, vs, rfl, spelled⟩ := of_directiveAt? define
    obtain ⟨line, same, stopped⟩ := whole.tail.line_append (List.cons_ne_nil word vs) us
    have positive := List.length_pos_of_ne_nil stopped
    have later := ih (whole.tail.suffix ((List.drop_suffix _ _).trans (List.dropWhile_suffix _)))
    rw [expand_define define, List.cons_append,
      expand_define ((directiveAt?_append whole us).trans define), line, same,
      List.take_append_of_le_length positive, List.drop_append_of_le_length positive]
    change (expand defs ((Token.afterLine (word :: vs)).drop 1 ++ us)).map _ = _
    rw [later, map_bind, bind_map]
    simp only [map_map, List.append_assoc]
    rfl
  | case3 t rest define token ih =>
    rw [expand_token define token, List.cons_append, expand_token (by rwa [directiveAt?_append whole us]) token,
      ih whole.tail, map_bind, bind_map]
    simp only [map_map, List.cons_append]
  | case4 t rest define operator e refused =>
    have token : t.kind = .macroOp := by simpa using operator
    have more := whole.more (by simp [Token.isSeparator, token])
    have refused' : invoke defs t (rest ++ us) = .error e := by rw [invoke_append whole.tail more, refused]; rfl
    rw [List.cons_append, expand_error token refused, expand_error token refused']
    rfl
  | case5 t rest define operator produced after invoked ih =>
    have token : t.kind = .macroOp := by simpa using operator
    have more := whole.more (by simp [Token.isSeparator, token])
    have invoked' : invoke defs t (rest ++ us) = .ok (produced, after ++ us) := by
      rw [invoke_append whole.tail more, invoked]
      rfl
    have lines := wholeLines_of_invoke closed whole.tail invoked
    rw [List.cons_append, expand_invocation token invoked, expand_invocation token invoked', ← List.append_assoc]
    refine ih ?_
    by_cases none : after = []
    · rw [none, List.append_nil] at lines ⊢
      exact wholeLines_retag lines _ _
    · exact (whole.tail.suffix (invoke_spec invoked).2).append_right none

theorem expand_flatten {parts : List (List Token)} (whole : ∀ part ∈ parts, WholeLines part) {out : List Token} :
    expand defs parts.flatten = .ok out ↔
      ∃ outs, List.Forall₂ (fun part out => expand defs part = .ok out) parts outs ∧ out = outs.flatten := by
  induction parts generalizing out with
  | nil =>
    rw [List.flatten_nil, expand]
    constructor
    · rintro ⟨⟩
      exact ⟨[], .nil, rfl⟩
    · rintro ⟨outs, ⟨⟩, rfl⟩
      rfl
  | cons part parts ih =>
    obtain ⟨own, others⟩ := List.forall_mem_cons.mp whole
    rw [List.flatten_cons, expand_append closed own, bind_eq_ok]
    constructor
    · rintro ⟨first, here, rest⟩
      obtain ⟨later, behind, rfl⟩ := map_eq_ok.mp rest
      obtain ⟨outs, each, rfl⟩ := (ih others).mp behind
      exact ⟨first :: outs, .cons here each, rfl⟩
    · rintro ⟨_, each, rfl⟩
      cases each with
      | cons here rest => exact ⟨_, here, map_eq_ok.mpr ⟨_, (ih others).mpr ⟨_, rest, rfl⟩, rfl⟩⟩

end Expansion

/-! ## What names stand for -/

/-- Every name stands for the same. -/
def Definitions.Alike (defs defs' : Definitions) : Prop :=
  ∀ name, defs.constants.lookup name = defs'.constants.lookup name ∧ defs.macros.lookup name =
  defs'.macros.lookup name

theorem Definitions.Alike.invoke {defs defs' : Definitions} (alike : defs.Alike defs')
    (op : Token) (ts : List Token) :
    invoke defs op ts = invoke defs' op ts := by
  cases ts with
  | nil => rfl
  | cons name ts => rw [Bisc.invoke, Bisc.invoke, (alike name.raw).1, (alike name.raw).2]

theorem Definitions.Alike.expand {defs defs' : Definitions} (alike : defs.Alike defs') (ts : List Token) :
    expand defs ts = expand defs' ts := by
  induction ts using expand.induct defs with
  | case1 => rw [Bisc.expand, Bisc.expand]
  | case2 t rest define after =>
    rename_i ih
    have later : Bisc.expand defs ((Token.afterLine rest).drop 1) = Bisc.expand defs'
        ((Token.afterLine rest).drop 1) := ih
    rw [expand_define define, expand_define define, later]
  | case3 t rest define token ih => rw [expand_token define token, expand_token define token, ih]
  | case4 t rest define operator e refused =>
    have token : t.kind = .macroOp := by simpa using operator
    rw [expand_error token refused, expand_error token (alike.invoke t rest ▸ refused)]
  | case5 t rest define operator produced after invoked ih =>
    have token : t.kind = .macroOp := by simpa using operator
    rw [expand_invocation token invoked, expand_invocation token (alike.invoke t rest ▸ invoked), ih]

/-- Entries may change places with others that have none of their keys. -/
private theorem lookup_moved {α : Type} (front xs ys back : List (String × α)) {name : String}
    (apart : ¬(name ∈ xs.map Prod.fst ∧ name ∈ ys.map Prod.fst)) :
    (front ++ (xs ++ (ys ++ back))).lookup name = (front ++ (ys ++ (xs ++ back))).lookup name := by
  simp only [List.lookup_append]
  cases first : xs.lookup name with
  | none => simp
  | some x =>
    cases second : ys.lookup name with
    | none => simp
    | some y => exact absurd ⟨key_of_lookup first, key_of_lookup second⟩ apart

theorem constants_subset_definedNames (ss : List Segment) :
    (ss.filterMap Segment.definedConstant?).map Prod.fst ⊆ definedNames ss := by
  intro name member
  obtain ⟨e, listed, rfl⟩ := List.mem_map.mp member
  obtain ⟨s, inside, defines⟩ := List.mem_filterMap.mp listed
  refine List.mem_filterMap.mpr ⟨s, inside, ?_⟩
  cases s with
  | constant name line =>
    cases defines
    rfl
  | _ => cases defines

theorem macros_subset_definedNames (ss : List Segment) :
    (ss.filterMap Segment.definedMacro?).map Prod.fst ⊆ definedNames ss := by
  intro name member
  obtain ⟨e, listed, rfl⟩ := List.mem_map.mp member
  obtain ⟨s, inside, defines⟩ := List.mem_filterMap.mp listed
  refine List.mem_filterMap.mpr ⟨s, inside, ?_⟩
  cases s with
  | macroDefinition name params header body =>
    cases defines
    rfl
  | _ => cases defines

/-- Names stand for the same wherever they are defined, if they are distinct. -/
theorem ofSegments_alike {front xs ys back : List Segment}
    (distinct : (definedNames (front ++ (xs ++ (ys ++ back)))).Nodup) :
    (Definitions.ofSegments (front ++ (xs ++ (ys ++ back)))).Alike (.ofSegments (front ++ (ys ++ (xs ++ back)))) := by
  have apart (name : String) : ¬(name ∈ definedNames xs ∧ name ∈ definedNames ys) := by
    rintro ⟨first, second⟩
    simp only [definedNames, List.filterMap_append, List.nodup_append] at distinct
    exact distinct.2.1.2.2 name first name (List.mem_append_left _ second) rfl
  intro name
  simp only [Definitions.ofSegments, List.filterMap_append]
  constructor
  · refine lookup_moved _ _ _ _ ?_
    rintro ⟨first, second⟩
    exact apart name ⟨constants_subset_definedNames xs first, constants_subset_definedNames ys second⟩
  · refine lookup_moved _ _ _ _ ?_
    rintro ⟨first, second⟩
    exact apart name ⟨macros_subset_definedNames xs first, macros_subset_definedNames ys second⟩

/-! ## The moved line -/

theorem DefinitionLine.wholeLines {line : List Token} (definition : DefinitionLine line) : WholeLines line := by
  obtain ⟨dot, word, name, value, stop, rfl, -, -, -, -, ends⟩ := definition
  exact @WholeLines.append_right (dot :: word :: name :: value) [stop] (.singleton ends) (List.cons_ne_nil stop [])

/-- The line of a definition is kept, and passes an expansion. -/
theorem DefinitionLine.kept {line : List Token} {ss : List Segment} (definition : DefinitionLine line)
    (cut : Cut line ss) :
    ss.flatMap Segment.kept = line := by
  obtain ⟨dot, word, name, value, stop, rfl, directive, ⟨spelled, define⟩, named, inline, ends⟩ := definition
  have found : directiveAt? (dot :: word :: name :: (value ++ [stop])) = some "define" := by
    simp [directiveAt?, directive, spelled, define]
  have body : Token.line (dot :: word :: name :: (value ++ [stop])) = dot :: word :: name :: value := by
    refine @Token.line_append_stop (dot :: word :: name :: value) ?_ stop ends []
    intro t member
    simp only [List.mem_cons] at member
    rcases member with rfl | rfl | rfl | member
    · simp [Token.isSeparator, directive]
    · exact Token.isSeparator_of_isWord spelled
    · exact Token.isSeparator_of_isWord named
    · exact inline t member
  obtain ⟨s, more, rest, ss', parts, rfl, read, tokens, later⟩ := Cut.cons_iff.mp cut
  rw [readSegment_define found] at read
  obtain ⟨name', -, read⟩ := bind_eq_ok.mp read
  cases read
  rw [Segment.tokens, body] at tokens
  cases tokens
  obtain rfl : rest = [stop] := by simpa using parts.symm
  obtain ⟨s, more, rest, ss, parts, rfl, read, tokens, later⟩ := Cut.cons_iff.mp later
  obtain ⟨rfl, rfl⟩ := List.append_eq_nil_iff.mp parts.symm
  obtain rfl := Cut.nil_iff.mp later
  rw [readSegment_plain (by simp [directiveAt?]) (by simp [directiveAt?])] at read
  cases read
  simp [Segment.kept, body]

theorem DefinitionLine.expand {line : List Token} (definition : DefinitionLine line) (defs : Definitions) :
    expand defs line = .ok line := by
  obtain ⟨dot, word, name, value, stop, rfl, directive, ⟨spelled, define⟩, named, inline, ends⟩ := definition
  have found : directiveAt? (dot :: word :: name :: (value ++ [stop])) = some "define" := by
    simp [directiveAt?, directive, spelled, define]
  have body : ∀ t ∈ word :: name :: value, t.isSeparator = false := by
    intro t member
    simp only [List.mem_cons] at member
    rcases member with rfl | rfl | member
    · exact Token.isSeparator_of_isWord spelled
    · exact Token.isSeparator_of_isWord named
    · exact inline t member
  have line := Token.line_append_stop body ends []
  have after := Token.afterLine_append_stop body ends []
  rw [expand_define found]
  simp only [List.cons_append] at line after
  rw [line, after, List.drop_succ_cons, List.drop_zero, Bisc.expand]
  simp [Except.map]

theorem kept_flatten (sss : List (List Segment)) :
    sss.flatten.flatMap Segment.kept = (sss.map (List.flatMap Segment.kept)).flatten := by
  simp only [List.flatMap_def, List.map_flatten, List.flatten_flatten, List.map_map]
  rfl

/-- Parts of whole lines are expanded one by one, each under the definitions of all. -/
theorem preprocess_parts {parts : List (List Token)} (whole : ∀ part ∈ parts, WholeLines part)
    (unstraddled : Unstraddled parts)
    (closed : BodiesEndLines parts.flatten) {out : List Token} : preprocess parts.flatten = .ok out ↔
      ∃ sss outs, List.Forall₂ Cut parts sss ∧ (definedNames sss.flatten).Nodup ∧
        List.Forall₂ (fun ss out => expand (.ofSegments sss.flatten) (ss.flatMap Segment.kept) = .ok out) sss outs ∧
        out = outs.flatten := by
  have kept {sss : List (List Segment)} (cuts : List.Forall₂ Cut parts sss) :
      ∀ part ∈ sss.map (List.flatMap Segment.kept), WholeLines part := by
    clear unstraddled closed
    induction cuts with
    | nil => simp
    | cons cut _ ih =>
      obtain ⟨own, others⟩ := List.forall_mem_cons.mp whole
      exact List.forall_mem_cons.mpr ⟨(cut.wholeLines_kept own).1, ih others⟩
  rw [preprocess, bind_eq_ok]
  constructor
  · rintro ⟨ss, found, expanded⟩
    obtain ⟨sss, cuts, rfl, distinct⟩ := (segments_parts whole unstraddled).mp found
    rw [kept_flatten] at expanded
    obtain ⟨outs, each, rfl⟩ := (expand_flatten (closed _ found) (kept cuts)).mp expanded
    exact ⟨sss, outs, cuts, distinct, List.forall₂_map_left_iff.mp each, rfl⟩
  · rintro ⟨sss, outs, cuts, distinct, each, rfl⟩
    have found := (segments_parts whole unstraddled).mpr ⟨sss, cuts, rfl, distinct⟩
    refine ⟨_, found, ?_⟩
    rw [kept_flatten]
    exact (expand_flatten (closed _ found) (kept cuts)).mpr ⟨outs, List.forall₂_map_left_iff.mpr each, rfl⟩

/-! ## Parts that change places -/

section Swap

variable {p₁ p₂ p₃ p₄ : List Token} (whole : ∀ part ∈ [p₁, p₂, p₃, p₄], WholeLines part)
include whole

private theorem wholeLines_swap : ∀ part ∈ [p₁, p₃, p₂, p₄], WholeLines part := by
  intro part member
  refine whole part ?_
  simp only [List.mem_cons] at member ⊢
  tauto

variable (unstraddled : Unstraddled [p₁, p₂, p₃, p₄]) (swapped : Unstraddled [p₁, p₃, p₂, p₄])
include unstraddled swapped

theorem segments_swap {ss : List Segment} (found : (segments [p₁, p₃, p₂, p₄].flatten).result = .ok ss) :
    ∃ ss', (segments [p₁, p₂, p₃, p₄].flatten).result = .ok ss' ∧ ss.Perm ss' := by
  obtain ⟨sss, cuts, rfl, distinct⟩ := (segments_parts (wholeLines_swap whole) swapped).mp found
  obtain _ | ⟨c₁, _ | ⟨c₃, _ | ⟨c₂, _ | ⟨c₄, _ | _⟩⟩⟩⟩ := cuts
  rename_i s₁ s₃ s₂ s₄
  have permuted : [s₁, s₃, s₂, s₄].flatten.Perm [s₁, s₂, s₃, s₄].flatten :=
    ((List.Perm.swap s₂ s₃ [s₄]).cons s₁).flatten
  refine ⟨_, (segments_parts whole unstraddled).mpr ⟨[s₁, s₂, s₃, s₄],
    .cons c₁ (.cons c₂ (.cons c₃ (.cons c₄ .nil))), rfl, ?_⟩,
    permuted⟩
  exact (permuted.filterMap _).nodup_iff.mp distinct

theorem BodiesEndLines.swap (closed : BodiesEndLines [p₁, p₂, p₃, p₄].flatten) :
    BodiesEndLines [p₁, p₃, p₂, p₄].flatten := by
  intro ss found m member
  obtain ⟨ss', found', permuted⟩ := segments_swap whole unstraddled swapped found
  exact closed ss' found' m ((permuted.filterMap _).mem_iff.mp member)

/-- The parts of a list that change places change places in what is left of it. -/
theorem preprocess_swap (closed : BodiesEndLines [p₁, p₂, p₃, p₄].flatten) {out : List Token}
    (preprocessed : preprocess [p₁, p₂, p₃, p₄].flatten = .ok out) :
    ∃ defs ss₂ ss₃ o₁ o₂ o₃ o₄, Cut p₂ ss₂ ∧ expand defs (ss₂.flatMap Segment.kept) = .ok o₂ ∧
      Cut p₃ ss₃ ∧ expand defs (ss₃.flatMap Segment.kept) = .ok o₃ ∧ out = [o₁, o₂, o₃, o₄].flatten ∧
      preprocess [p₁, p₃, p₂, p₄].flatten = .ok [o₁, o₃, o₂, o₄].flatten := by
  obtain ⟨sss, outs, cuts, distinct, each, rfl⟩ := (preprocess_parts whole unstraddled closed).mp preprocessed
  obtain _ | ⟨c₁, _ | ⟨c₂, _ | ⟨c₃, _ | ⟨c₄, _ | _⟩⟩⟩⟩ := cuts
  rename_i s₁ s₂ s₃ s₄
  obtain _ | ⟨e₁, _ | ⟨e₂, _ | ⟨e₃, _ | ⟨e₄, _ | _⟩⟩⟩⟩ := each
  rename_i o₁ o₂ o₃ o₄
  refine ⟨_, s₂, s₃, o₁, o₂, o₃, o₄, c₂, e₂, c₃, e₃, rfl, ?_⟩
  have alike : (Definitions.ofSegments [s₁, s₂, s₃, s₄].flatten).Alike (.ofSegments [s₁, s₃, s₂, s₄].flatten) :=
    ofSegments_alike distinct
  have permuted : [s₁, s₂, s₃, s₄].flatten.Perm [s₁, s₃, s₂, s₄].flatten :=
    ((List.Perm.swap s₃ s₂ [s₄]).cons s₁).flatten
  rw [preprocess_parts (wholeLines_swap whole) swapped (closed.swap whole unstraddled swapped)]
  refine ⟨[s₁, s₃, s₂, s₄], [o₁, o₃, o₂, o₄], .cons c₁ (.cons c₃ (.cons c₂ (.cons c₄ .nil))),
    (permuted.filterMap _).nodup_iff.mp distinct, ?_, rfl⟩
  simp only [alike.expand] at e₁ e₂ e₃ e₄
  exact .cons e₁ (.cons e₃ (.cons e₂ (.cons e₄ .nil)))

end Swap

/-- A constant may be defined anywhere: the whole line of its definition may be moved over other
    whole lines, and the result is the same but for the place of the line. -/
theorem definition_moves {l₁ line l₂ l₃ : List Token} (definition : DefinitionLine line)
    (whole : WholeLines l₁ ∧ WholeLines l₂ ∧ WholeLines l₃) (unstraddled : Unstraddled [l₁, line, l₂, l₃])
    (moved : Unstraddled [l₁, l₂, line, l₃]) (closed : BodiesEndLines (l₁ ++ line ++ l₂ ++ l₃)) :
    ((∃ out, preprocess (l₁ ++ line ++ l₂ ++ l₃) = .ok out) ↔ ∃ out, preprocess (l₁ ++ l₂ ++ line ++ l₃) = .ok out) ∧
      ∀ out out', preprocess (l₁ ++ line ++ l₂ ++ l₃) = .ok out → preprocess (l₁ ++ l₂ ++ line ++ l₃) = .ok out' →
        ∃ o₁ o₂ o₃, out = o₁ ++ line ++ o₂ ++ o₃ ∧ out' = o₁ ++ o₂ ++ line ++ o₃ := by
  have before : l₁ ++ line ++ l₂ ++ l₃ = [l₁, line, l₂, l₃].flatten := by simp
  have after : l₁ ++ l₂ ++ line ++ l₃ = [l₁, l₂, line, l₃].flatten := by simp
  obtain ⟨first, second, third⟩ := whole
  have lines : ∀ part ∈ [l₁, line, l₂, l₃], WholeLines part := by
    simpa using ⟨first, definition.wholeLines, second, third⟩
  have lines' : ∀ part ∈ [l₁, l₂, line, l₃], WholeLines part := by
    simpa using ⟨first, second, definition.wholeLines, third⟩
  have passes {defs : Definitions} {ss : List Segment} {out : List Token} (cut : Cut line ss)
      (expanded : expand defs (ss.flatMap Segment.kept) = .ok out) : out = line := by
    rw [definition.kept cut, definition.expand defs] at expanded
    cases expanded
    rfl
  rw [before] at closed ⊢
  rw [after]
  have forward {out : List Token} (preprocessed : preprocess [l₁, line, l₂, l₃].flatten = .ok out) :
      ∃ o₁ o₂ o₃, out = o₁ ++ line ++ o₂ ++ o₃ ∧ preprocess [l₁, l₂, line, l₃].flatten =
      .ok (o₁ ++ o₂ ++ line ++ o₃) := by
    obtain ⟨defs, ss, _, o₁, o, o₂, o₃, cut, expanded, -, -, rfl, result⟩ :=
      preprocess_swap lines unstraddled moved closed preprocessed
    obtain rfl := passes cut expanded
    exact ⟨o₁, o₂, o₃, by simp, by simpa using result⟩
  refine ⟨⟨fun ⟨out, preprocessed⟩ => ?_, fun ⟨out, preprocessed⟩ => ?_⟩,
    fun out out' preprocessed preprocessed' => ?_⟩
  · obtain ⟨o₁, o₂, o₃, -, result⟩ := forward preprocessed
    exact ⟨_, result⟩
  · obtain ⟨defs, _, ss, o₁, o₂, o, o₃, -, -, -, -, -, result⟩ :=
      preprocess_swap lines' moved unstraddled (closed.swap lines unstraddled moved) preprocessed
    exact ⟨_, result⟩
  · obtain ⟨o₁, o₂, o₃, split, result⟩ := forward preprocessed
    cases result.symm.trans preprocessed'
    exact ⟨o₁, o₂, o₃, split, rfl⟩

/-- A token that an example spells out. -/
private def written (kind : TokenKind) (raw : String) (line column : Nat) : Token :=
  ⟨kind, raw, none, ⟨line, column⟩, 0⟩

private def definedLine : List Token :=
  [written .directive "." 4 1, written .identifier "define" 4 2, written .identifier "X" 4 9,
    written .opcode "halt" 4 11,
    .separator ⟨4, 15⟩ 0]

private def usingMacro : List Token :=
  [written .directive "." 1 1, written .identifier "macro" 1 2, written .identifier "M" 1 8, .separator ⟨1, 9⟩ 0,
    written .macroOp "%" 2 1, written .identifier "X" 2 2, .separator ⟨2, 3⟩ 0,
    written .directive "." 3 1, written .identifier "endm" 3 2, .separator ⟨3, 6⟩ 0]

private def invokingLine : List Token := [written .macroOp "%" 5 1, written .identifier "M" 5 2, .separator ⟨5, 3⟩ 0]

/-- A constant that a macro uses may be defined below the line that invokes the macro. -/
theorem definition_moves_invoked :
    ∃ out out', preprocess (usingMacro ++ definedLine ++ invokingLine ++ []) = .ok out ∧
    preprocess (usingMacro ++ invokingLine ++ definedLine ++ []) = .ok out' ∧ out.map Token.raw =
      [".", "macro", "M", "\n", ".", "endm", "\n", ".", "define", "X", "halt", "\n", "halt", "\n"] ∧
    ∃ o₁ o₂ o₃, out = o₁ ++ definedLine ++ o₂ ++ o₃ ∧ out' = o₁ ++ o₂ ++ definedLine ++ o₃ := by
  have definition : DefinitionLine definedLine := ⟨_, _, _, [written .opcode "halt" 4 11], _, rfl, by decide +kernel⟩
  obtain ⟨succeeds, same⟩ := @definition_moves usingMacro definedLine invokingLine [] definition
    (by decide) (by decide +kernel)
    (by decide +kernel) (by decide +kernel)
  let defs : Definitions := ⟨[("X", [written .opcode "halt" 4 11])], [("M", ⟨[], (usingMacro.drop 4).take 3⟩)]⟩
  let front := usingMacro.take 4 ++ usingMacro.drop 7 ++ definedLine
  let halt : Token := (written .opcode "halt" 4 11).retag ⟨5, 1⟩ 2
  let stop : Token := .separator ⟨5, 1⟩ 1
  have body : invoke defs (written .macroOp "%" 5 1) (invokingLine.drop 1) =
      .ok ((usingMacro.drop 4).take 3, []) := rfl
  have value : invoke defs ((written .macroOp "%" 2 1).retag ⟨5,
    1⟩ 1) [(written .identifier "X" 2 2).retag ⟨5, 1⟩ 1, stop] =
    .ok ([written .opcode "halt" 4 11], [stop]) := rfl
  have ended : expand defs [halt, stop] = .ok [halt, stop] := expand_of_settled (settled_of_plain (by decide))
  have invoked : expand defs invokingLine = .ok [halt, stop] :=
    (expand_invocation rfl body).trans ((expand_invocation rfl value).trans ended)
  have plain : expand defs front = .ok front := expand_of_settled (settled_of_plain (by decide))
  have expanded : expand defs (front ++ invokingLine) = .ok (front ++ [halt, stop]) := by
    rw [expand_append (by decide +kernel) (by decide), plain, invoked]
    rfl
  have done : preprocess (usingMacro ++ definedLine ++ invokingLine ++ []) = .ok (front ++ [halt, stop]) := expanded
  obtain ⟨out', done'⟩ := succeeds.mp ⟨_, done⟩
  exact ⟨_, out', done, done', by decide, same _ _ done done'⟩

private def strayEnd : List Token :=
  [written .directive "." 1 1, written .identifier "define" 1 2, written .identifier "X" 1 9,
    written .directive "." 1 11,
    written .identifier "endm" 1 12, .separator ⟨1, 16⟩ 0]

private def openMacro : List Token :=
  [written .directive "." 2 1, written .identifier "macro" 2 2, written .identifier "M" 2 8, .separator ⟨2, 9⟩ 0]

private def joiningLine : List Token :=
  [written .macroOp "%" 1 1, written .identifier "M" 1 2, written .macroOp "%" 1 4, .separator ⟨1, 5⟩ 0]

private def namingLine : List Token := [written .identifier "X" 5 1, .separator ⟨5, 2⟩ 0]

/-- A macro whose body is the parameter, spelled by the separator that ends the body. -/
private def joiningMacro : List Token :=
  [written .directive "." 6 1, written .identifier "macro" 6 2, written .identifier "M" 6 8,
    written .identifier "a" 6 10,
    .separator ⟨6, 11⟩ 0, written .macroOp "%" 7 1, written .lineSeparator "a" 7 2,
    written .directive "." 8 1, written .identifier "endm" 8 2, .separator ⟨8, 6⟩ 0]

/-- That no macro definition straddles a boundary of the list is not enough, for the moved line may
    close a macro that was not closed; nor that the bodies of macros end with separators, for
    arguments may take their place. -/
theorem not_definition_moves :
    (¬∀ l₁ line l₂ l₃ : List Token, DefinitionLine line → WholeLines l₁ ∧ WholeLines l₂ ∧ WholeLines l₃ →
      Unstraddled [l₁, line, l₂, l₃] → BodiesEndLines (l₁ ++ line ++ l₂ ++ l₃) →
      ((∃ out, preprocess (l₁ ++ line ++ l₂ ++ l₃) = .ok out) ↔
        ∃ out, preprocess (l₁ ++ l₂ ++ line ++ l₃) = .ok out)) ∧
    ¬∀ l₁ line l₂ l₃ : List Token, DefinitionLine line → WholeLines l₁ ∧ WholeLines l₂ ∧ WholeLines l₃ →
      Unstraddled [l₁, line, l₂, l₃] → Unstraddled [l₁, l₂, line, l₃] →
      (∀ ss, (segments (l₁ ++ line ++ l₂ ++ l₃)).result = .ok ss →
        ∀ m ∈ (Definitions.ofSegments ss).macros, ∀ t ∈ m.2.body.getLast?, t.isSeparator) →
      ((∃ out, preprocess (l₁ ++ line ++ l₂ ++ l₃) = .ok out) ↔
        ∃ out, preprocess (l₁ ++ l₂ ++ line ++ l₃) = .ok out) := by
  constructor
  · intro moves
    have definition : DefinitionLine strayEnd := ⟨_, _, _, (strayEnd.drop 3).take 2, _, rfl, by decide +kernel⟩
    have closed : preprocess ([] ++ openMacro ++ strayEnd ++ []) = .ok (openMacro ++ strayEnd.drop 3) :=
      expand_of_settled (settled_of_plain (by decide) : Settled (openMacro ++ strayEnd.drop 3))
    obtain ⟨out, impossible⟩ :=
      (moves [] strayEnd openMacro [] definition (by decide) (by decide +kernel) (by decide +kernel)).mpr
      ⟨_, closed⟩
    have failed : preprocess ([] ++ strayEnd ++ openMacro ++ []) =
        .error ⟨.unexpected .macroEnd .endOfFile, ⟨2, 8⟩⟩ := rfl
    cases failed.symm.trans impossible
  · intro moves
    have definition : DefinitionLine definedLine :=
      ⟨_, _, _, [written .opcode "halt" 4 11], _, rfl, by decide +kernel⟩
    let defs : Definitions := ⟨[("X", [written .opcode "halt" 4 11])], [("M", ⟨["a"], (joiningMacro.drop 5).take 2⟩)]⟩
    let behind := .separator ⟨5, 2⟩ 0 :: definedLine ++ (joiningMacro.take 5 ++ joiningMacro.drop 7)
    let halt : Token := (written .opcode "halt" 4 11).retag ⟨1, 1⟩ 2
    have body : invoke defs (written .macroOp "%" 1 1) (joiningLine.drop 1 ++ namingLine.take 1 ++ behind) =
      .ok ([written .macroOp "%" 1 4], namingLine.take 1 ++ behind) := rfl
    have value : invoke defs ((written .macroOp "%" 1 4).retag ⟨1, 1⟩ 1) (namingLine.take 1 ++ behind) =
      .ok ([written .opcode "halt" 4 11], behind) := rfl
    have ended : expand defs (halt :: behind) = .ok (halt :: behind) :=
      expand_of_settled (settled_of_plain (by decide))
    have joined : preprocess (joiningLine ++ namingLine ++ definedLine ++ joiningMacro) = .ok (halt :: behind) :=
      (expand_invocation rfl body).trans ((expand_invocation rfl value).trans ended)
    obtain ⟨out, impossible⟩ :=
      (moves joiningLine definedLine namingLine joiningMacro definition (by decide) (by decide +kernel)
      (by decide +kernel) (by decide +kernel)).mpr ⟨_, joined⟩
    have named : invoke defs (written .macroOp "%" 1 1)
      (joiningLine.drop 1 ++ (definedLine ++ namingLine ++ joiningMacro.take 5 ++ joiningMacro.drop 7)) =
        .ok ([written .macroOp "%" 1 4],
          definedLine ++ namingLine ++ joiningMacro.take 5 ++ joiningMacro.drop 7) := rfl
    have failed : preprocess (joiningLine ++ definedLine ++ namingLine ++ joiningMacro) =
        .error ((written .directive "." 4 1).unexpected .definedName) :=
      (expand_invocation rfl named).trans (expand_error rfl rfl)
    cases failed.symm.trans impossible

end Bisc
