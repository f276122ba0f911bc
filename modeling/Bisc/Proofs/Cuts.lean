import Bisc.Proofs.CommentedDefinitions

/-!
Definitions in parts. A token list that is put together from sequences of whole lines has the
segments of its parts, unless a macro definition runs from one part into another; and whether the
names that it defines are distinct does not depend on the order of the parts.
-/
namespace Bisc

open Token (uncommented)

/-- Nothing, or lines of which the last has its separator too. -/
def WholeLines (ts : List Token) : Prop := ∀ t ∈ ts.getLast?, t.isSeparator

instance (ts : List Token) : Decidable (WholeLines ts) := inferInstanceAs (Decidable (∀ t ∈ ts.getLast?, _))

/-- The tokens from the header of a macro to the end of the directive that closes it, which is two
    tokens; none in another segment. -/
def Segment.macroLength : Segment → Nat
  | macroDefinition _ _ header body => (header ++ body).length + 2
  | _ => 0

instance decidableForallOk {ε α : Type} {P : α → Prop} [DecidablePred P] (result : Except ε α) :
    Decidable (∀ a, result = .ok a → P a) :=
  match result with
  | .ok a => decidable_of_iff (P a) (by simp)
  | .error _ => .isTrue (by simp)

/-- A macro definition among the segments begins before the token of this index and ends after it. -/
def crosses : List Segment → Nat → Bool
  | [], _ => false
  | s :: ss, n => (0 < n && n < s.macroLength) || (s.tokens.length ≤ n && crosses ss (n - s.tokens.length))

/-- No macro definition of the list that the parts make straddles a boundary between them. -/
def Unstraddled (parts : List (List Token)) : Prop :=
  ∀ ss, (segments parts.flatten).result = .ok ss → ∀ front ∈ parts.inits, crosses ss front.flatten.length = false

instance (parts : List (List Token)) : Decidable (Unstraddled parts) :=
  inferInstanceAs (Decidable (∀ ss, (segments parts.flatten).result = .ok ss → _))

/-- The list is cut into the segments, whatever names they define. -/
inductive Cut : List Token → List Segment → Prop
  | nil : Cut [] []
  | cons {t : Token} {more rest : List Token} {s : Segment} {ss : List Segment}
      (read : readSegment t (more ++ rest) = .ok s) (tokens : s.tokens = t :: more) (later : Cut rest ss) :
      Cut (t :: (more ++ rest)) (s :: ss)

/-- The names that segments define. -/
def definedNames (ss : List Segment) : List String := ss.filterMap fun s => s.name?.map Token.raw

/-! ## Whole lines -/

namespace WholeLines

variable {t : Token} {ts us : List Token}

theorem nil : WholeLines [] := by
  intro t last
  simp at last

theorem singleton (ends : t.isSeparator) : WholeLines [t] := by
  intro u last
  cases last
  exact ends

theorem append (first : WholeLines ts) (second : WholeLines us) : WholeLines (ts ++ us) := by
  intro t last
  rw [List.getLast?_append] at last
  cases final : us.getLast? with
  | none =>
    rw [final] at last
    exact first t last
  | some _ =>
    rw [final] at last
    cases last
    exact second t final

theorem append_right (whole : WholeLines us) (some : us ≠ []) : WholeLines (ts ++ us) := by
  intro t last
  rw [List.getLast?_append_of_ne_nil _ some] at last
  exact whole t last

theorem suffix (whole : WholeLines ts) (behind : us <:+ ts) : WholeLines us := by
  obtain ⟨front, rfl⟩ := behind
  intro t last
  refine whole t ?_
  rw [List.getLast?_append, last]
  rfl

theorem tail (whole : WholeLines (t :: ts)) : WholeLines ts := whole.suffix (List.suffix_cons t ts)

/-- A line goes on after a token that does not end it. -/
theorem more (whole : WholeLines (t :: ts)) (inline : t.isSeparator = false) : ts ≠ [] := by
  rintro rfl
  have ends := whole t rfl
  simp [inline] at ends

theorem exists_stop (whole : WholeLines ts) (some : ts ≠ []) : ∃ stop ∈ ts, stop.isSeparator := by
  obtain ⟨stop, last⟩ := Option.isSome_iff_exists.mp (List.getLast?_isSome.mpr some)
  exact ⟨stop, List.mem_of_getLast? last, whole stop last⟩

/-- Tokens after whole lines are not on their first line. -/
theorem line_append (whole : WholeLines ts) (some : ts ≠ []) (us : List Token) :
    Token.line (ts ++ us) = Token.line ts ∧ Token.afterLine (ts ++ us) = Token.afterLine ts ++ us ∧
      Token.afterLine ts ≠ [] := by
  obtain ⟨stop, member, ends⟩ := whole.exists_stop some
  clear whole some
  unfold Token.line Token.afterLine
  induction ts with
  | nil => cases member
  | cons t ts ih =>
    by_cases own : t.isSeparator
    · simp [own]
    · have inside : stop ∈ ts := by
        rcases List.mem_cons.mp member with rfl | inside
        · contradiction
        · exact inside
      simpa [own] using ih inside

end WholeLines

/-! ## Reading a segment -/

section Segments

variable {t : Token} {ts us : List Token} {s : Segment}

theorem directiveAt?_append (whole : WholeLines (t :: ts)) (us : List Token) :
    directiveAt? (t :: (ts ++ us)) = directiveAt? (t :: ts) := by
  cases ts with
  | cons word ts => rfl
  | nil =>
    have ends := whole t rfl
    have other : t.kind ≠ .directive := by
      intro directive
      simp [Token.isSeparator, directive] at ends
    cases us <;> simp [directiveAt?, other]

private theorem bodyLength?_cons_cons (t u : Token) (ts us : List Token) :
    bodyLength? (t :: u :: ts ++ us) = if directiveAt? (t :: u :: ts) ∈ [some "endmacro", some "endm"] then some 0
      else (bodyLength? (u :: ts ++ us)).map (· + 1) := rfl

theorem bodyLength?_append {n : Nat} (found : bodyLength? ts = some n) (us : List Token) :
    bodyLength? (ts ++ us) = some n ∧ n + 2 ≤ ts.length := by
  induction ts generalizing n with
  | nil => cases found
  | cons t ts ih =>
    rw [bodyLength?] at found
    cases ts with
    | nil => simp [directiveAt?, bodyLength?] at found
    | cons u ts =>
      rw [bodyLength?_cons_cons]
      split at found
      · rename_i closes
        cases found
        rw [if_pos closes]
        simp
      · rename_i other
        obtain ⟨m, later, rfl⟩ := Option.map_eq_some_iff.mp found
        obtain ⟨same, bound⟩ := ih later
        rw [if_neg other, same]
        simpa using bound

theorem bodyLength?_of_append {n : Nat} (found : bodyLength? (ts ++ us) = some n) (inside : n + 2 ≤ ts.length) :
    bodyLength? ts = some n := by
  induction ts generalizing n with
  | nil => simp at inside
  | cons t ts ih =>
    cases ts with
    | nil => simp at inside
    | cons u ts =>
      rw [bodyLength?_cons_cons] at found
      rw [bodyLength?]
      split
      · rename_i closes
        rw [if_pos closes] at found
        exact found
      · rename_i other
        rw [if_neg other] at found
        obtain ⟨m, later, rfl⟩ := Option.map_eq_some_iff.mp found
        rw [ih later (by simp at inside ⊢; omega)]
        rfl

/-- What makes a macro definition: a name, parameters, and a directive that closes it. -/
theorem readMacroDefinition_eq_ok {dot : Token} : readMacroDefinition dot ts = .ok s ↔ ∃ name params n,
    definitionName .macroName dot (ts.drop 1) = .ok name ∧
    readParams [] (uncommented ((Token.line (dot :: ts)).drop 3)) = .ok params ∧
    bodyLength? ((Token.afterLine (dot :: ts)).drop 1) = some n ∧
    s = .macroDefinition name params (Token.line (dot :: ts) ++ (Token.afterLine (dot :: ts)).take 1)
      (((Token.afterLine (dot :: ts)).drop 1).take n) := by
  unfold readMacroDefinition
  rw [bind_eq_ok]
  constructor
  · rintro ⟨name, named, read⟩
    obtain ⟨params, parameters, read⟩ := bind_eq_ok.mp read
    split at read
    · cases read
    · rename_i n body
      cases read
      exact ⟨name, params, n, named, parameters, body, rfl⟩
  · rintro ⟨name, params, n, named, parameters, body, rfl⟩
    refine ⟨name, named, bind_eq_ok.mpr ⟨params, parameters, ?_⟩⟩
    simp only [body]
    rfl

/-- The name of a definition is on its line. -/
theorem definitionName_append (whole : WholeLines (t :: ts)) {directive : String}
    (found : directiveAt? (t :: ts) = some directive) (what : Expected) (us : List Token) :
    definitionName what t ((ts ++ us).drop 1) = definitionName what t (ts.drop 1) := by
  obtain ⟨-, word, vs, rfl, spelled⟩ := of_directiveAt? found
  have more := whole.tail.more (Token.isSeparator_of_isWord spelled)
  cases vs with
  | nil => exact absurd rfl more
  | cons v vs => rfl

/-- Whole lines begin with the same segment whatever follows them. -/
theorem readSegment_append (whole : WholeLines (t :: ts)) (read : readSegment t ts = .ok s) (us : List Token) :
    readSegment t (ts ++ us) = .ok s := by
  obtain ⟨line, after, stopped⟩ := whole.line_append (List.cons_ne_nil t ts) us
  rw [List.cons_append] at line after
  have positive : 1 ≤ (Token.afterLine (t :: ts)).length := List.length_pos_of_ne_nil stopped
  have same := directiveAt?_append whole us
  by_cases define : directiveAt? (t :: ts) = some "define"
  · rw [readSegment_define define] at read
    rw [readSegment_define (same.trans define), readConstantDefinition, definitionName_append whole define, line]
    exact read
  · by_cases header : directiveAt? (t :: ts) = some "macro"
    · rw [readSegment_macroHeader header] at read
      obtain ⟨name, params, n, named, parameters, body, rfl⟩ := readMacroDefinition_eq_ok.mp read
      rw [readSegment_macroHeader (same.trans header), readMacroDefinition_eq_ok,
        definitionName_append whole header, line, after,
        List.take_append_of_le_length positive, List.drop_append_of_le_length positive]
      obtain ⟨longer, bound⟩ := bodyLength?_append body us
      refine ⟨name, params, n, named, parameters, longer, ?_⟩
      rw [List.take_append_of_le_length (by omega)]
    · rw [readSegment_plain define header] at read
      rwa [readSegment_plain (same ▸ define) (same ▸ header)]

/-- The first segment of whole lines and what follows them is that of the lines, unless it is a
    macro definition that ends outside. -/
theorem readSegment_of_append (whole : WholeLines (t :: ts)) (read : readSegment t (ts ++ us) = .ok s)
    (inside : s.macroLength ≤ (t :: ts).length) : readSegment t ts = .ok s := by
  obtain ⟨line, after, stopped⟩ := whole.line_append (List.cons_ne_nil t ts) us
  rw [List.cons_append] at line after
  have positive : 1 ≤ (Token.afterLine (t :: ts)).length := List.length_pos_of_ne_nil stopped
  have same := directiveAt?_append whole us
  by_cases define : directiveAt? (t :: ts) = some "define"
  · rw [readSegment_define (same.trans define), readConstantDefinition,
      definitionName_append whole define, line] at read
    rwa [readSegment_define define]
  · by_cases header : directiveAt? (t :: ts) = some "macro"
    · rw [readSegment_macroHeader (same.trans header), readMacroDefinition_eq_ok,
        definitionName_append whole header, line, after,
        List.take_append_of_le_length positive, List.drop_append_of_le_length positive] at read
      obtain ⟨name, params, n, named, parameters, body, rfl⟩ := read
      have parts := congrArg List.length (Token.line_append_afterLine (t :: ts))
      have stop : ((Token.afterLine (t :: ts)).take 1).length = 1 := by rw [List.length_take]; omega
      have bound := (bodyLength?_append body []).2
      simp only [List.length_append, List.length_drop] at parts bound
      have room : n + 2 ≤ ((Token.afterLine (t :: ts)).drop 1).length := by
        simp only [Segment.macroLength, List.length_append, stop, List.length_take, List.length_drop] at inside
        rw [List.length_drop]
        omega
      rw [readSegment_macroHeader header, readMacroDefinition_eq_ok]
      refine ⟨name, params, n, named, parameters, bodyLength?_of_append body room, ?_⟩
      rw [List.take_append_of_le_length (by omega)]
    · rw [readSegment_plain (same ▸ define) (same ▸ header)] at read
      rwa [readSegment_plain define header]

end Segments

/-! ## Cuts -/

namespace Cut

variable {t : Token} {ts us : List Token} {ss : List Segment}

theorem nil_iff : Cut [] ss ↔ ss = [] := by
  constructor
  · intro cut
    cases cut
    rfl
  · rintro rfl
    exact .nil

theorem cons_iff : Cut (t :: ts) ss ↔ ∃ s more rest ss', ts = more ++ rest ∧ ss = s :: ss' ∧
    readSegment t ts = .ok s ∧ s.tokens = t :: more ∧ Cut rest ss' := by
  constructor
  · intro cut
    generalize whole : t :: ts = all at cut
    cases cut with
    | nil => cases whole
    | cons read tokens later =>
      cases whole
      exact ⟨_, _, _, _, rfl, rfl, read, tokens, later⟩
  · rintro ⟨s, more, rest, ss', rfl, rfl, read, tokens, later⟩
    exact .cons read tokens later

theorem flatMap_tokens (cut : Cut ts ss) : ss.flatMap Segment.tokens = ts := by
  induction cut with
  | nil => rfl
  | cons read tokens later ih => rw [List.flatMap_cons, tokens, ih]; rfl

theorem append {ss' : List Segment} (whole : WholeLines ts) (first : Cut ts ss) (second : Cut us ss') :
    Cut (ts ++ us) (ss ++ ss') := by
  induction first with
  | nil => exact second
  | @cons t more rest s ss read tokens later ih =>
    have read' := readSegment_append whole read us
    rw [List.cons_append, List.append_assoc]
    rw [List.append_assoc] at read'
    exact .cons read' tokens (ih (whole.suffix ⟨t :: more, rfl⟩))

theorem split (whole : WholeLines ts) (cut : Cut (ts ++ us) ss) (clear : crosses ss ts.length = false) :
    ∃ ss₁ ss₂, ss = ss₁ ++ ss₂ ∧ Cut ts ss₁ ∧ Cut us ss₂ := by
  induction ss generalizing ts with
  | nil =>
    have none := cut.flatMap_tokens
    obtain ⟨rfl, rfl⟩ := List.append_eq_nil_iff.mp none.symm
    exact ⟨[], [], rfl, .nil, .nil⟩
  | cons s ss ih =>
    cases ts with
    | nil => exact ⟨[], s :: ss, rfl, .nil, cut⟩
    | cons t ts =>
      obtain ⟨s', more, rest, ss', parts, same, read, tokens, later⟩ := cons_iff.mp cut
      cases same
      simp only [crosses, List.length_cons, Bool.or_eq_false_iff, Bool.and_eq_false_imp, decide_eq_true_eq,
        decide_eq_false_iff_not] at clear
      have own : readSegment t ts = .ok s := readSegment_of_append whole read (by simpa using clear.1 (by omega))
      obtain ⟨more', rest', tokens', rfl, -⟩ := split_of_readSegment own
      obtain rfl : more = more' := by simpa [tokens] using tokens'
      obtain rfl : rest = rest' ++ us := by simpa [List.append_assoc] using parts.symm
      have behind : crosses ss rest'.length = false := by
        have none := clear.2
        rw [tokens] at none
        simpa using none
      obtain ⟨ss₁, ss₂, rfl, first, second⟩ := ih (whole.suffix ⟨t :: more, rfl⟩) later behind
      exact ⟨s :: ss₁, ss₂, rfl, .cons own tokens first, second⟩

/-- What is kept of whole lines is whole lines. -/
theorem wholeLines_kept (cut : Cut ts ss) (whole : WholeLines ts) :
    WholeLines (ss.flatMap Segment.kept) ∧ (ss.flatMap Segment.kept).head? = ts.head? := by
  induction cut with
  | nil => exact ⟨.nil, rfl⟩
  | @cons t more rest s ss read tokens later ih =>
    obtain ⟨-, -, -, -, first⟩ := split_of_readSegment read
    obtain ⟨kept, head⟩ := ih (whole.suffix ⟨t :: more, rfl⟩)
    refine ⟨?_, by rw [List.flatMap_cons, List.head?_append, first]; rfl⟩
    rw [List.flatMap_cons]
    by_cases last : rest = []
    · subst last
      obtain rfl := nil_iff.mp later
      refine WholeLines.append ?_ .nil
      rw [List.append_nil] at read whole
      cases s with
      | macroDefinition name params header body =>
        by_cases header' : directiveAt? (t :: more) = some "macro"
        · rw [readSegment_macroHeader header'] at read
          obtain ⟨_, _, _, -, -, -, same⟩ := readMacroDefinition_eq_ok.mp read
          cases same
          obtain ⟨-, -, some⟩ := whole.line_append (List.cons_ne_nil t more) []
          obtain ⟨stop, us, after⟩ := List.exists_cons_of_ne_nil some
          simp only [Segment.kept, after, List.take_succ_cons, List.take_zero]
          exact (WholeLines.singleton (Token.afterLine_head after)).append_right (List.cons_ne_nil _ _)
        · by_cases define : directiveAt? (t :: more) = some "define"
          · rw [readSegment_define define] at read
            obtain ⟨_, -, impossible⟩ := bind_eq_ok.mp read
            cases impossible
          · rw [readSegment_plain define header'] at read
            cases read
      | plain u =>
        change WholeLines (Segment.plain u).tokens
        rwa [tokens]
      | constant name line =>
        change WholeLines (Segment.constant name line).tokens
        rwa [tokens]
    · refine kept.append_right ?_
      intro none
      rw [none] at head
      exact last (List.head?_eq_none_iff.mp head.symm)

end Cut

/-- The segments of a list are those that it is cut into, if they define distinct names that are not taken. -/
theorem segmentsFrom_eq_ok {taken : List String} {ts : List Token} {ss : List Segment} :
    (segmentsFrom taken 0 ts).result = .ok ss ↔
      Cut ts ss ∧ (definedNames ss).Nodup ∧ ∀ name ∈ definedNames ss, name ∉ taken := by
  induction length : ts.length using Nat.strong_induction_on generalizing taken ts ss with
  | _ n ih =>
  cases ts with
  | nil =>
    rw [Cut.nil_iff]
    constructor
    · intro found
      cases found
      exact ⟨rfl, by simp [definedNames, segmentsFrom, Run.done]⟩
    · rintro ⟨rfl, -⟩
      rfl
  | cons t ts =>
    rw [segmentsFrom, Cut.cons_iff]
    cases read : readSegment t ts with
    | error e => simp [Run.result, Run.fail]
    | ok s =>
      obtain ⟨more, rest, tokens, rfl, -⟩ := split_of_readSegment read
      have later (taken : List String) (ss' : List Segment) := @ih rest.length (by simp [← length]) taken rest ss' rfl
      have cut : (∃ s' more' rest' ss', more ++ rest = more' ++ rest' ∧ ss = s' :: ss' ∧
        (.ok s : Except Error Segment) = .ok s' ∧
          s'.tokens = t :: more' ∧ Cut rest' ss') ↔ ∃ ss', ss = s :: ss' ∧ Cut rest ss' := by
        constructor
        · rintro ⟨s', more', rest', ss', parts, rfl, same, tokens', behind⟩
          cases same
          obtain rfl : more' = more := by simpa [tokens] using tokens'.symm
          obtain rfl : rest = rest' := by simpa using parts
          exact ⟨ss', rfl, behind⟩
        · rintro ⟨ss', rfl, behind⟩
          exact ⟨s, more, rest, ss', rfl, rfl, rfl, tokens, behind⟩
      dsimp only
      rw [cut, tokens, List.length_cons, Nat.add_sub_cancel]
      cases named : s.name? with
      | none =>
        have names (ss' : List Segment) : definedNames (s :: ss') = definedNames ss' := by simp [definedNames, named]
        simp only [segmentsFrom_skip taken more.length, List.drop_left, Run.result_cons]
        rw [map_eq_ok]
        constructor
        · rintro ⟨ss', found, rfl⟩
          obtain ⟨behind, distinct⟩ := (later taken ss').mp found
          exact ⟨⟨ss', rfl, behind⟩, by rwa [names]⟩
        · rintro ⟨⟨ss', rfl, behind⟩, distinct⟩
          rw [names] at distinct
          exact ⟨ss', (later taken ss').mpr ⟨behind, distinct⟩, rfl⟩
      | some name =>
        simp only [segmentsFrom_skip _ more.length, List.drop_left]
        have names (ss' : List Segment) : definedNames (s :: ss') = name.raw :: definedNames ss' := by
          simp [definedNames, named]
        split
        · rename_i duplicate
          constructor
          · intro impossible
            cases impossible
          · rintro ⟨⟨ss', rfl, -⟩, -, free⟩
            rw [names] at free
            exact absurd duplicate (free name.raw List.mem_cons_self)
        · rename_i fresh
          rw [Run.result_cons, map_eq_ok]
          constructor
          · rintro ⟨ss', found, rfl⟩
            obtain ⟨behind, distinct, free⟩ := (later _ ss').mp found
            rw [names, List.nodup_cons, List.forall_mem_cons]
            refine ⟨⟨ss', rfl, behind⟩, ⟨?_, distinct⟩, fresh, ?_⟩
            · intro again
              exact free _ again List.mem_cons_self
            · intro other member taken
              exact free other member (List.mem_cons_of_mem _ taken)
          · rintro ⟨⟨ss', rfl, behind⟩, distinct, free⟩
            rw [names, List.nodup_cons] at distinct
            rw [names, List.forall_mem_cons] at free
            refine ⟨ss', (later _ ss').mpr ⟨behind, distinct.2, ?_⟩, rfl⟩
            intro other member taken
            rcases List.mem_cons.mp taken with rfl | taken
            · exact distinct.1 member
            · exact free.2 other member taken

theorem segments_eq_ok {ts : List Token} {ss : List Segment} :
    (segments ts).result = .ok ss ↔ Cut ts ss ∧ (definedNames ss).Nodup := by
  rw [segments, segmentsFrom_eq_ok]
  simp

/-! ## Parts -/

theorem crosses_append {ss₁ ss₂ : List Segment} {n : Nat} (later : crosses ss₂ n) :
    crosses (ss₁ ++ ss₂) ((ss₁.flatMap Segment.tokens).length + n) := by
  induction ss₁ with
  | nil => simpa using later
  | cons s ss₁ ih =>
    rw [List.cons_append, crosses, List.flatMap_cons, List.length_append]
    have behind : s.tokens.length + (ss₁.flatMap Segment.tokens).length + n - s.tokens.length =
        (ss₁.flatMap Segment.tokens).length + n := by omega
    rw [behind, ih]
    simp only [Bool.and_true, Bool.or_eq_true, decide_eq_true_eq]
    exact .inr (by omega)

theorem Cut.parts {parts : List (List Token)} {ss : List Segment} (whole : ∀ part ∈ parts, WholeLines part)
    (cut : Cut parts.flatten ss) (clear : ∀ front ∈ parts.inits, crosses ss front.flatten.length = false) :
    ∃ sss, List.Forall₂ Cut parts sss ∧ ss = sss.flatten := by
  induction parts generalizing ss with
  | nil => exact ⟨[], .nil, Cut.nil_iff.mp cut⟩
  | cons part parts ih =>
    obtain ⟨first, others⟩ := List.forall_mem_cons.mp whole
    have here := clear [part] (by simp)
    obtain ⟨ss₁, ss₂, rfl, front, back⟩ := cut.split first (by simpa using here)
    have behind : ∀ front ∈ parts.inits, crosses ss₂ front.flatten.length = false := by
      intro more member
      by_contra other
      have across := @crosses_append ss₁ _ _ (Bool.not_eq_false _ ▸ other)
      rw [front.flatMap_tokens, ← List.length_append, ← List.flatten_cons] at across
      rw [clear (part :: more) (by simpa using member)] at across
      cases across
    obtain ⟨sss, cuts, rfl⟩ := ih others back behind
    exact ⟨ss₁ :: sss, .cons front cuts, rfl⟩

theorem Cut.flatten {parts : List (List Token)} {sss : List (List Segment)} (whole : ∀ part ∈ parts, WholeLines part)
    (cuts : List.Forall₂ Cut parts sss) : Cut parts.flatten sss.flatten := by
  induction cuts with
  | nil => exact .nil
  | cons first _ ih =>
    obtain ⟨own, others⟩ := List.forall_mem_cons.mp whole
    exact first.append own (ih others)

/-- A list has the segments of its parts, if the names that they define are distinct. -/
theorem segments_parts {parts : List (List Token)} {ss : List Segment} (whole : ∀ part ∈ parts, WholeLines part)
    (unstraddled : Unstraddled parts) : (segments parts.flatten).result = .ok ss ↔
      ∃ sss, List.Forall₂ Cut parts sss ∧ ss = sss.flatten ∧ (definedNames ss).Nodup := by
  constructor
  · intro found
    obtain ⟨cut, distinct⟩ := segments_eq_ok.mp found
    obtain ⟨sss, cuts, rfl⟩ := cut.parts whole (unstraddled ss found)
    exact ⟨sss, cuts, rfl, distinct⟩
  · rintro ⟨sss, cuts, rfl, distinct⟩
    exact segments_eq_ok.mpr ⟨Cut.flatten whole cuts, distinct⟩

end Bisc
