import Bisc.Assembly
import Bisc.Proofs.Contents
import Bisc.Proofs.Images
import Bisc.Proofs.Origin
import Bisc.Proofs.Readers
import Bisc.Proofs.Spelling

/-!
Where errors are reported. Every stage reports at the place of a token or of an item that it was given, and what it
hands on has places it was given too, so that an error of an assembly is at a token of the source.
-/
namespace Bisc

variable {place : Position → Prop}

/-! ## Definitions -/

theorem place_of_definitionName {what : Expected} {dot : Token} {ts : List Token} {e : Error} (here : place dot.pos)
    (all : ∀ t ∈ ts, place t.pos) (failed : definitionName what dot ts = .error e) : place e.pos := by
  cases ts with
  | nil =>
    cases failed
    exact here
  | cons t ts =>
    rw [definitionName] at failed
    split at failed
    · cases failed
    · cases failed
      exact all t List.mem_cons_self

theorem mem_of_definitionName {what : Expected} {dot name : Token} {ts : List Token}
    (named : definitionName what dot ts = .ok name) : name ∈ ts := by
  cases ts with
  | nil => cases named
  | cons t ts =>
    rw [definitionName] at named
    split at named
    · cases named
      exact List.mem_cons_self
    · cases named

theorem place_of_readParams {seen : List String} {ts : List Token} {e : Error} (all : ∀ t ∈ ts, place t.pos)
    (failed : readParams seen ts = .error e) : place e.pos := by
  fun_induction readParams seen ts with
  | case1 => cases failed
  | case2 | case3 =>
    cases failed
    exact all _ List.mem_cons_self
  | case4 => cases failed
  | case5 | case6 =>
    cases failed
    exact all _ List.mem_cons_self
  | case7 | case8 =>
    cases failed
    exact all _ (by simp)
  | case9 seen t comma ts _ _ _ _ ih =>
    cases rest : readParams (t.raw :: seen) ts with
    | ok params => simp [rest, Except.map] at failed
    | error e' =>
      rw [rest] at failed
      cases failed
      exact ih (fun u member => all u (by simp [member])) rest

theorem place_of_readSegment {t : Token} {ts : List Token} {e : Error} (all : ∀ u ∈ t :: ts, place u.pos)
    (failed : readSegment t ts = .error e) : place e.pos := by
  have here := all t List.mem_cons_self
  have named : ∀ u ∈ ts.drop 1, place u.pos :=
    fun u member => all u (List.mem_cons_of_mem _ (List.mem_of_mem_drop member))
  unfold readSegment at failed
  split at failed
  · rcases bind_eq_error.mp failed with failed | ⟨name, -, impossible⟩
    · exact place_of_definitionName here named failed
    · cases impossible
  · rcases bind_eq_error.mp failed with failed | ⟨name, found, failed⟩
    · exact place_of_definitionName here named failed
    · rcases bind_eq_error.mp failed with failed | ⟨params, -, failed⟩
      · refine place_of_readParams (fun u member => all u ?_) failed
        exact (List.takeWhile_sublist _).subset (List.mem_of_mem_drop (List.mem_filter.mp member).1)
      · split at failed
        · cases failed
          exact named name (mem_of_definitionName found)
        · cases failed
  · cases failed

theorem name_of_readSegment {t name : Token} {ts : List Token} {segment : Segment}
    (read : readSegment t ts = .ok segment)
    (named : segment.name? = some name) : name ∈ ts := by
  unfold readSegment at read
  split at read
  · obtain ⟨own, found, read⟩ := bind_eq_ok.mp read
    cases read
    cases named
    exact List.mem_of_mem_drop (mem_of_definitionName found)
  · obtain ⟨own, found, read⟩ := bind_eq_ok.mp read
    obtain ⟨params, -, read⟩ := bind_eq_ok.mp read
    split at read
    · cases read
    · cases read
      cases named
      exact List.mem_of_mem_drop (mem_of_definitionName found)
  · cases read
    cases named

theorem place_of_segmentsFrom {taken : List String} {skip : Nat} {ts : List Token} {e : Error}
    (all : ∀ t ∈ ts, place t.pos)
    (failed : (segmentsFrom taken skip ts).failure = some e) : place e.pos := by
  fun_induction segmentsFrom taken skip ts with
  | case1 => cases failed
  | case2 taken skip t ts ih => exact ih (fun u member => all u (List.mem_cons_of_mem _ member)) failed
  | case3 taken t ts e' refused =>
    cases failed
    exact place_of_readSegment all refused
  | case4 taken t ts segment read unnamed ih =>
    exact ih (fun u member => all u (List.mem_cons_of_mem _ member)) failed
  | case5 taken t ts segment read name named duplicate =>
    cases failed
    exact all name (List.mem_cons_of_mem _ (name_of_readSegment read named))
  | case6 taken t ts segment read name named fresh ih =>
    exact ih (fun u member => all u (List.mem_cons_of_mem _ member)) failed

/-! ## Invocations -/

theorem place_of_map {α β : Type} {x : Except Error α} {f : α → β} {e : Error} (failed : x.map f = .error e)
    (cause : x = .error e → place e.pos) : place e.pos := by
  cases x with
  | ok a => cases failed
  | error e' =>
    cases failed
    exact cause rfl

theorem place_of_readArguments {name : Token} {arity : Nat} {stop : Option Token}
    {params : List String} {ts : List Token}
    {e : Error} (here : place name.pos) (stopped : ∀ t ∈ stop, place t.pos) (all : ∀ t ∈ ts, place t.pos)
    (failed : readArguments name arity stop params ts = .error e) : place e.pos := by
  induction params generalizing ts with
  | nil =>
    cases ts with
    | nil => cases failed
    | cons t ts =>
      cases failed
      exact all t List.mem_cons_self
  | cons p ps ih =>
    have rest : ∀ t ∈ ts.dropWhile fun t => t.kind ≠ .comma, place t.pos := fun t member =>
      all t ((List.dropWhile_sublist _).subset member)
    simp only [readArguments] at failed
    split at failed
    · cases failed
      exact here
    · split at failed
      · exact place_of_map failed (ih rest)
      · split at failed
        · rename_i comma more remaining
          rw [remaining] at rest
          exact place_of_map failed (ih fun t member => rest t (List.mem_cons_of_mem _ member))
        · rename_i t _
          cases failed
          exact stopped t rfl
        · cases failed
          exact here

theorem place_of_invoke {defs : Definitions} {op : Token} {ts : List Token} {e : Error} (here : place op.pos)
    (all : ∀ t ∈ ts, place t.pos) (failed : invoke defs op ts = .error e) : place e.pos := by
  unfold invoke at failed
  split at failed
  · cases failed
    exact here
  · rename_i name ts
    have named := all name List.mem_cons_self
    have rest := fun t member => all t (List.mem_cons_of_mem _ member)
    split at failed
    · cases failed
      exact named
    · split at failed
      · cases failed
        exact here
      · split at failed
        · cases failed
        · split at failed
          · rename_i m found
            rcases bind_eq_error.mp failed with failed | ⟨arguments, -, impossible⟩
            · refine place_of_readArguments named (fun t member => rest t ?_) (fun t member => rest t ?_) failed
              · exact (List.dropWhile_sublist _).subset (List.mem_of_mem_head? member)
              · exact (List.takeWhile_sublist _).subset (List.mem_filter.mp member).1
            · cases impossible
          · cases failed
            exact named

theorem place_of_expand {defs : Definitions} (defined : defs.All fun t => place t.pos) {ts : List Token} {e : Error}
    (all : ∀ t ∈ ts, place t.pos) (failed : expand defs ts = .error e) : place e.pos := by
  induction ts using expand.induct defs with
  | case1 =>
    rw [expand] at failed
    cases failed
  | case2 t rest define after =>
    rename_i ih
    rw [expand_define define] at failed
    have behind : after ⊆ rest := (List.dropWhile_sublist _).subset
    exact place_of_map failed (ih fun u member =>
      all u (List.mem_cons_of_mem _ (behind (List.mem_of_mem_drop member))))
  | case3 t rest define plain ih =>
    rw [expand_token define plain] at failed
    exact place_of_map failed (ih fun u member => all u (List.mem_cons_of_mem _ member))
  | case4 t rest define operator e' refused =>
    rw [expand_error (by simpa using operator) refused] at failed
    cases failed
    exact place_of_invoke (all t List.mem_cons_self) (fun u member => all u (List.mem_cons_of_mem _ member)) refused
  | case5 t rest define operator produced after invoked ih =>
    rw [expand_invocation (by simpa using operator) invoked] at failed
    obtain ⟨new, old⟩ := forall_of_invoke defined (fun u member => all u (List.mem_cons_of_mem _ member)) invoked
    refine ih (fun u member => ?_) failed
    rcases List.mem_append.mp member with member | member
    · obtain ⟨v, inside, rfl⟩ := List.mem_map.mp member
      exact all t List.mem_cons_self
    · exact old u member

theorem place_of_preprocess {ts : List Token} (all : ∀ t ∈ ts, place t.pos) :
    (∀ e, preprocess ts = .error e → place e.pos) ∧ ∀ out, preprocess ts = .ok out → ∀ t ∈ out, place t.pos := by
  refine ⟨fun e failed => ?_, fun out => forall_of_preprocess (fun _ _ _ _ here => here) all⟩
  rcases bind_eq_error.mp failed with uncut | ⟨ss, cut, failed⟩
  · have found : (segmentsFrom [] 0 ts).failure = some e := by
      unfold Run.result segments at uncut
      split at uncut
      · rename_i e' found
        cases uncut
        exact found
      · cases uncut
    exact place_of_segmentsFrom all found
  · obtain ⟨defined, kept⟩ := forall_of_segments (P := fun t => place t.pos) all cut
    exact place_of_expand defined kept failed

/-! ## Programs -/

namespace Comparison

/-- One run among tokens that stand where the property says. -/
def placed (place : Position → Prop) : Comparison :=
  diagonal (fun c => place c.last ∧ ∀ t ∈ c.rest, place t.pos) place

theorem placed_lawful (place : Position → Prop) : (placed place).Lawful := by
  refine diagonal_lawful ?_ And.left And.right
  rintro c c' ⟨last, all⟩ ⟨rest, behind⟩
  refine ⟨?_, fun t member => all t (rest.subset member)⟩
  rcases behind with same | ⟨t, member, same⟩
  · rwa [same]
  · rw [same]
    exact all t member

end Comparison

theorem unfold_pos {isa : InstructionSet} {form : PseudoForm} {operands : List String} {origin t : Token}
    (member : t ∈ form.unfold isa operands origin) : t.pos = origin.pos := by
  obtain ⟨line, -, inside⟩ := List.mem_flatMap.mp member
  obtain ⟨u, -, rfl⟩ := List.mem_map.mp inside
  rfl

/-- However deeply pseudo-instructions are nested, errors and steps are at places of tokens. -/
theorem readTokens_placed {isa : InstructionSet} {n : Nat} {ts : List Token} (all : ∀ t ∈ ts, place t.pos) :
    Run.Agree place (readTokens isa n ts) (readTokens isa n ts) := by
  induction n generalizing ts with
  | zero => exact Run.agree_done
  | succ n ih =>
    have lines : ∀ l ∈ Token.lines ts, ∀ t ∈ l, place t.pos := fun l member t inside =>
      all t (by rw [← lines_flatten ts]; exact List.mem_flatten.mpr ⟨l, member, inside⟩)
    rw [readTokens]
    generalize Token.lines ts = ls at lines
    induction ls with
    | nil => exact Run.agree_done
    | cons l ls later =>
      refine Run.Agree.append ?_ (later fun m member => lines m (List.mem_cons_of_mem _ member))
      have here := lines l List.mem_cons_self
      cases l with
      | nil => exact Run.agree_done
      | cons t l =>
        refine (Comparison.placed_lawful place).readLine (c := ⟨t :: l, t.pos⟩) (d := ⟨t :: l, t.pos⟩) ?_ ?_
        · exact fun u own form operands => ih fun v member => by rwa [unfold_pos member]
        · exact ⟨rfl, here t List.mem_cons_self, here⟩

/-- The items of a program are at places of the steps. -/
theorem blocksFrom_placed {ss : List Step} (all : ∀ s ∈ ss, s.PlacedIn place) :
    (∀ i ∈ (blocksFrom ss).1, place i.pos) ∧ ∀ b ∈ (blocksFrom ss).2,
      ∀ i ∈ b.start.toList ++ b.items, place i.pos := by
  induction ss with
  | nil => simp [blocksFrom]
  | cons s ss ih =>
    obtain ⟨items, blocks⟩ := ih fun u member => all u (List.mem_cons_of_mem _ member)
    have here := all s List.mem_cons_self
    cases s with
    | item i => exact ⟨List.forall_mem_cons.mpr ⟨here, items⟩, blocks⟩
    | newSection name pos =>
      refine ⟨by simp [blocksFrom], List.forall_mem_cons.mpr ⟨?_, blocks⟩⟩
      exact List.forall_mem_cons.mpr ⟨here, items⟩
    | unfolded pos name operands form => exact ⟨items, blocks⟩

theorem contentSections_placed {carried : List Item} {bs : List Block} (before : ∀ i ∈ carried, place i.pos)
    (all : ∀ b ∈ bs, ∀ i ∈ b.start.toList ++ b.items, place i.pos) :
    ∀ i ∈ Program.items (contentSections carried bs), place i.pos := by
  induction bs generalizing carried with
  | nil => simp [contentSections, Program.items]
  | cons b bs ih =>
    have later := fun c member => all c (List.mem_cons_of_mem _ member)
    have own := all b List.mem_cons_self
    rw [contentSections]
    split
    · rw [Program.items_cons]
      intro i member
      simp only [List.mem_append] at member own
      rcases member with ((start | member) | member) | member
      · exact own i (.inl start)
      · exact before i member
      · exact own i (.inr member)
      · exact ih (by simp) later i member
    · refine ih (fun i member => ?_) later
      rcases List.mem_append.mp member with member | member
      · exact before i member
      · exact own i (List.mem_append_right _ member)

theorem place_of_parse {isa : InstructionSet} {ts : List Token} (all : ∀ t ∈ ts, place t.pos) :
    (∀ e, parse isa ts = .error e → place e.pos) ∧ ∀ p, parse isa ts = .ok p →
    ∀ i ∈ Program.items p, place i.pos := by
  have read : Run.Agree place (steps isa ts) (steps isa ts) := readTokens_placed all
  unfold Run.Agree at read
  unfold parse
  cases run : (steps isa ts).result with
  | error e =>
    rw [run] at read
    refine ⟨fun e' failed => ?_, fun p parsed => (by cases parsed)⟩
    cases failed
    exact read.error_left.1
  | ok ss =>
    rw [run] at read
    obtain ⟨-, -, -, placed⟩ := read.ok_left
    refine ⟨fun e' failed => (by cases failed), fun p parsed => ?_⟩
    cases parsed
    obtain ⟨items, blocks⟩ := blocksFrom_placed placed
    exact contentSections_placed (by simp) (List.forall_mem_cons.mpr ⟨by simpa using items, blocks⟩)

/-! ## Layout and bytes -/

theorem placementFault?_pos {before : List Item} {i : Item} {e : Error} (fault : placementFault? before i = some e) :
    e.pos = i.pos := by
  unfold placementFault? at fault
  split at fault
  · cases fault
    rfl
  · split at fault
    · split at fault
      · cases fault
        rfl
      · cases fault
    · cases fault

theorem Constant.fault?_pos {is : List Item} {pos : Position} {c : Constant} {e : Error}
    (fault : c.fault? is pos = some e) :
    e.pos = pos := by
  unfold Constant.fault? at fault
  split at fault
  · cases fault
    rfl
  · split at fault
    · cases fault
    · cases fault
      rfl
  · cases fault

theorem Constant.faultIn?_pos {arithmetic : Arithmetic} {is : List Item} {pos : Position} {c : Constant} {e : Error}
    (fault : c.faultIn? arithmetic is pos = some e) : e.pos = pos := by
  rcases Option.or_eq_some_iff.mp fault with named | ⟨-, overflow⟩
  · exact fault?_pos named
  · split at overflow
    · cases overflow
      rfl
    · cases overflow

/-- The layout fails at an item. -/
theorem item_of_analyze {p : Program} {e : Error} (failed : analyze p = .error e) : ∃ i ∈ p.items, e.pos = i.pos := by
  obtain ⟨symbols, run, -⟩ := analyze_outcome p
  rw [run] at failed
  cases fault : p.placementFault?.or (p.constantFault? .checked) with
  | none =>
    rw [fault] at failed
    cases failed
  | some e' =>
    rw [fault] at failed
    cases failed
    rcases Option.or_eq_some_iff.mp fault with misplaced | ⟨-, unresolved⟩
    · obtain ⟨⟨i, k⟩, member, here⟩ := List.exists_of_findSome?_eq_some misplaced
      exact ⟨i, List.fst_mem_of_mem_zipIdx member, placementFault?_pos here⟩
    · obtain ⟨⟨c, pos⟩, member, here⟩ := List.exists_of_findSome?_eq_some unresolved
      obtain ⟨i, listed, inside⟩ := List.mem_flatMap.mp member
      obtain ⟨c', -, same⟩ := List.mem_map.mp inside
      cases same
      exact ⟨i, listed, Constant.faultIn?_pos here⟩

theorem Constant.known_error {pos : Position} {c : Constant} {e : Error}
    (failed : c.known pos = .error e) : e.pos = pos := by
  unfold Constant.known at failed
  split at failed
  · cases failed
  · cases failed
    rfl

theorem encodeImmediate_error {pos : Position} {code : UInt8} {v : UInt32} {e : Error}
    (failed : encodeImmediate pos code v = .error e) : e.pos = pos := by
  unfold encodeImmediate at failed
  split at failed
  · cases failed
  · split at failed
    · cases failed
    · cases failed
      rfl

theorem encodeOffset_error {pos : Position} {code : UInt8} {v : UInt32} {e : Error}
    (failed : encodeOffset pos code v = .error e) : e.pos = pos := by
  unfold encodeOffset at failed
  split at failed
  · cases failed
  · cases failed
    rfl

theorem encodeDatum_error {pos : Position} {width : Width} {c : Constant} {e : Error}
    (failed : encodeDatum pos width c = .error e) : e.pos = pos := by
  rcases bind_eq_error.mp failed with unknown | ⟨v, -, failed⟩
  · exact Constant.known_error unknown
  · split at failed
    · cases failed
    · cases failed
      rfl

theorem Instruction.encode_error {pos : Position} {i : Instruction} {e : Error} (failed : i.encode pos = .error e) :
    e.pos = pos := by
  obtain ⟨code, operands⟩ := i
  cases operands with
  | regImm r imm =>
    rcases bind_eq_error.mp failed with unknown | ⟨v, -, failed⟩
    · exact Constant.known_error unknown
    · rcases bind_eq_error.mp failed with failed | ⟨field, -, impossible⟩
      · exact encodeImmediate_error failed
      · cases impossible
  | regMem dst base offset =>
    rcases bind_eq_error.mp failed with unknown | ⟨v, -, failed⟩
    · exact Constant.known_error unknown
    · rcases bind_eq_error.mp failed with failed | ⟨field, -, impossible⟩
      · exact encodeOffset_error failed
      · cases impossible
  | _ => cases failed

/-- An item without bytes is reported at its own place. -/
theorem Item.encode_error {i : Item} {e : Error} (failed : i.encode = .error e) : e.pos = i.pos := by
  unfold Item.encode at failed
  split at failed
  · exact Instruction.encode_error failed
  · rename_i d _
    cases d with
    | values width cs =>
      rcases bind_eq_error.mp failed with failed | ⟨bss, -, impossible⟩
      · obtain ⟨c, -, failed⟩ := mapM_eq_error failed
        exact encodeDatum_error failed
      · cases impossible
    | _ => cases failed
  · cases failed

/-- A section without an image is reported at one of its items, if it has any. -/
theorem item_of_image {s : Section} {e : Error} (filled : s.items ≠ []) (failed : s.image = .error e) :
    ∃ i ∈ s.items, e.pos = i.pos := by
  rcases bind_eq_error.mp failed with unencoded | ⟨bss, -, unmade⟩
  · obtain ⟨i, member, failed⟩ := mapM_eq_error unencoded
    exact ⟨i, member, i.encode_error failed⟩
  · obtain ⟨i, rest, items⟩ := List.exists_cons_of_ne_nil filled
    unfold SectionImage.make at unmade
    split at unmade
    · cases unmade
    · cases unmade
      exact ⟨i, by simp [items], by simp [items]⟩

/-- The layout keeps the places of items. -/
theorem LaidOut.places {p p' : Program} {symbols : SymbolTable} (laid : LaidOut p p' symbols) :
    p'.items.map Item.pos = p.items.map Item.pos := by
  have origins := congrArg (List.map Prod.snd) laid.origins
  simpa [Item.origin, Item.valued, Function.comp_def] using origins

/-! ## Sources -/

theorem tokensFrom_pos {isa : InstructionSet} {line column skip : Nat} {cs : List Char}
    (positive : 1 ≤ column) {t : Token}
    (member : t ∈ tokensFrom isa line column skip cs) : t.pos.line = line ∧ 1 ≤ t.pos.column := by
  obtain ⟨c, cs, x, column', -, -, -, after, rfl⟩ := isLexemeOf_of_tokensFrom member
  exact ⟨rfl, positive.trans after⟩

theorem tokenize_pos {isa : InstructionSet} {source : String} {t : Token} (member : t ∈ tokenize isa source) :
    1 ≤ t.pos.line ∧ 1 ≤ t.pos.column := by
  obtain ⟨line, text, positive, inside | rfl⟩ := mem_tokenize member
  · obtain ⟨same, column⟩ := tokensFrom_pos le_rfl inside
    exact ⟨same ▸ positive, column⟩
  · exact ⟨positive, Nat.le_add_left 1 _⟩

/-- Every error of an assembly is at a token of the source, and so at a line and a column that count from one. -/
theorem error_at_token {source : String} {e : Error} (failed : build source = .error e) :
    ∃ t ∈ tokenize bisc source, t.pos = e.pos ∧ 1 ≤ e.pos.line ∧ 1 ≤ e.pos.column := by
  suffices located : ∃ t ∈ tokenize bisc source, t.pos = e.pos by
    obtain ⟨t, member, here⟩ := located
    exact ⟨t, member, here, here ▸ tokenize_pos member⟩
  let place : Position → Prop := fun pos => ∃ t ∈ tokenize bisc source, t.pos = pos
  change place e.pos
  have all : ∀ t ∈ tokenize bisc source, place t.pos := fun t member => ⟨t, member, rfl⟩
  obtain ⟨unexpanded, expanded⟩ := place_of_preprocess all
  rcases bind_eq_error.mp failed with unparsed | ⟨p, parsed, failed⟩
  · rcases bind_eq_error.mp unparsed with failed | ⟨ts, preprocessed, failed⟩
    · exact unexpanded e failed
    · exact (place_of_parse (expanded ts preprocessed)).1 e failed
  obtain ⟨ts, preprocessed, parsed⟩ := bind_eq_ok.mp parsed
  have items := (place_of_parse (expanded ts preprocessed)).2 p parsed
  rcases bind_eq_error.mp failed with failed | ⟨⟨p', symbols⟩, analyzed, failed⟩
  · obtain ⟨i, member, here⟩ := item_of_analyze failed
    exact here ▸ items i member
  have laid := laidOut_of_analyze analyzed
  rcases bind_eq_error.mp failed with failed | ⟨object, -, impossible⟩
  · obtain ⟨s, listed, unmade⟩ := image_error_of_generate failed
    obtain ⟨i, member, here⟩ := item_of_image (laid.noEmptySection (noEmptySection_of_parse parsed) s listed) unmade
    have own : i.pos ∈ p'.items.map Item.pos := List.mem_map_of_mem (List.mem_flatMap.mpr ⟨s, listed, member⟩)
    rw [laid.places] at own
    obtain ⟨j, origin, same⟩ := List.mem_map.mp own
    rw [here, ← same]
    exact items j origin
  · cases impossible

/-- A constant whose value breaks off, and the last line of the source, which is its invocation. -/
private def brokenOff : List Token := [
  ⟨.directive, ".", none, ⟨1, 1⟩, 0⟩, ⟨.identifier, "define", none, ⟨1, 2⟩, 0⟩, ⟨.identifier, "put", none, ⟨1, 9⟩, 0⟩,
  ⟨.opcode, "lui", some 17, ⟨1, 13⟩, 0⟩, ⟨.register, "r1", some 1, ⟨1, 17⟩, 0⟩, ⟨.comma, ",", none, ⟨1, 19⟩, 0⟩,
  ⟨.lineSeparator, "\n", none, ⟨1, 20⟩, 0⟩, ⟨.macroOp, "%", none, ⟨2, 3⟩, 0⟩, ⟨.identifier, "put", none, ⟨2, 4⟩, 0⟩]

theorem error_at_token_brokenOff :
    build ".define put lui r1,\n  %put" = .error ⟨.unexpected .constant .endOfFile, ⟨2, 3⟩⟩ ∧
      ∃ t ∈ tokenize bisc ".define put lui r1,\n  %put", t.pos = ⟨2, 3⟩ ∧ 1 ≤ 2 ∧ 1 ≤ 3 := by
  have tokens : tokenize bisc ".define put lui r1,\n  %put" = brokenOff := by decide +kernel
  have preprocessed : preprocess brokenOff =
      .ok (brokenOff.take 7 ++ ((brokenOff.drop 3).take 3).map (Token.retag ⟨2, 3⟩ 1)) := by cbv
  have failed : build ".define put lui r1,\n  %put" = .error ⟨.unexpected .constant .endOfFile, ⟨2, 3⟩⟩ := by
    unfold build parseSource
    rw [tokens, preprocessed]
    cbv
  exact ⟨failed, error_at_token failed⟩

end Bisc
