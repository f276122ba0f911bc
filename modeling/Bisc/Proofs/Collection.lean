import Bisc.Proofs.MacroHeaders
import Bisc.Proofs.ParserLoop

/-!
What is collected of a token list. From the left, the list goes on with a token that begins no
definition, with the line of a constant or with a macro. Everything is kept but the bodies of the
macros, and these are the bodies that invocations stand for.
-/
namespace Bisc

open Token (uncommented)

/-- The list begins with a directive of this name. -/
def BeginsDirective (name : String) (ts : List Token) : Prop :=
  ∃ dot word rest, ts = dot :: word :: rest ∧ dot.kind = .directive ∧ word.isWord ∧ word.name = name

/-- The list begins with a directive that closes a macro. -/
def ClosesMacro (ts : List Token) : Prop := BeginsDirective "endmacro" ts ∨ BeginsDirective "endm" ts

/-- The definition of a constant: a directive, a name and the value to the end of the line, which is before `rest`. -/
structure ConstantDefinition (dot word name : Token) (value rest : List Token) : Prop where
  dotted : dot.kind = .directive
  spelled : word.isWord
  directive : word.name = "define"
  named : name.isWord
  inline : ∀ t ∈ value, t.isSeparator = false
  ends : ∃ behind, LineStop rest behind

/-- The definition of a macro: a directive, a name and parameters on a line with a separator, and a
    body before the first directive that closes the macro. Such a directive may begin with any token
    of a line. -/
structure MacroDefinition (dot word name : Token) (line : List Token) (stop : Token) (params : List String)
    (body rest : List Token) :
    Prop where
  dotted : dot.kind = .directive
  spelled : word.isWord
  directive : word.name = "macro"
  named : name.isWord
  inline : ∀ t ∈ line, t.isSeparator = false
  ends : stop.isSeparator
  parameters : AreParameters (uncommented line) params
  distinct : params.Nodup
  closed : ClosesMacro rest
  first : ∀ front back, body = front ++ back → back ≠ [] → ¬ClosesMacro (back ++ rest)

/-- What is collected of a list from the left: the tokens that are kept, and the definitions in the
    order of the list. -/
inductive Collects : List Token → List Token → Definitions → Prop
  | nil : Collects [] [] ⟨[], []⟩
  | token {t : Token} {ts kept : List Token} {defs : Definitions} (constant : ¬BeginsDirective "define" (t :: ts))
      (header : ¬BeginsDirective "macro" (t :: ts)) (later : Collects ts kept defs) :
      Collects (t :: ts) (t :: kept) defs
  | constant {dot word name : Token} {value rest kept : List Token} {defs : Definitions}
      (defined : ConstantDefinition dot word name value rest) (later : Collects rest kept defs) :
      Collects (dot :: word :: name :: (value ++ rest)) (dot :: word :: name :: (value ++ kept))
        ⟨(name.raw, uncommented value) :: defs.constants, defs.macros⟩
  | macroDefinition {dot word name stop : Token} {line body rest kept : List Token}
      {params : List String} {defs : Definitions}
      (defined : MacroDefinition dot word name line stop params body rest) (later : Collects rest kept defs) :
      Collects (dot :: word :: name :: (line ++ stop :: (body ++ rest)))
        (dot :: word :: name :: (line ++ stop :: kept))
        ⟨defs.constants, (name.raw, ⟨params, body⟩) :: defs.macros⟩

/-- The second list is the first with stretches cut out of it, in their order. -/
inductive CutOut : List (List Token) → List Token → List Token → Prop
  | none (ts : List Token) : CutOut [] ts ts
  | cons (front stretch : List Token) {stretches : List (List Token)} {ts kept : List Token}
      (later : CutOut stretches ts kept) :
      CutOut (stretch :: stretches) (front ++ (stretch ++ ts)) (front ++ kept)

/-- The names that definitions have, those of constants first. -/
def Definitions.names (defs : Definitions) : List String := defs.constants.map Prod.fst ++ defs.macros.map Prod.fst

/-! ## Directives -/

theorem beginsDirective_iff {name : String} {ts : List Token} :
    BeginsDirective name ts ↔ directiveAt? ts = some name := by
  constructor
  · rintro ⟨dot, word, rest, rfl, dotted, spelled, rfl⟩
    simp [directiveAt?, dotted, spelled]
  · intro found
    rcases ts with _ | ⟨dot, _ | ⟨word, rest⟩⟩
    · cases found
    · cases found
    · rw [directiveAt?] at found
      split at found
      · rename_i shape
        exact ⟨dot, word, rest, rfl, shape.1, shape.2, Option.some.inj found⟩
      · cases found

theorem closesMacro_iff {ts : List Token} : ClosesMacro ts ↔ directiveAt? ts ∈ [some "endmacro", some "endm"] := by
  simp [ClosesMacro, beginsDirective_iff]

/-- The body of a macro is what stands before the first directive that closes it. -/
theorem bodyLength?_eq_some {ts : List Token} {n : Nat} :
    bodyLength? ts = some n ↔ ∃ body rest, ts = body ++ rest ∧ body.length = n ∧
    ClosesMacro rest ∧ ∀ front back, body = front ++ back → back ≠ [] → ¬ClosesMacro (back ++ rest) := by
  induction ts generalizing n with
  | nil =>
    constructor
    · intro found
      cases found
    · rintro ⟨body, rest, whole, -, closed, -⟩
      obtain ⟨rfl, rfl⟩ := List.append_eq_nil_iff.mp whole.symm
      simp [closesMacro_iff, directiveAt?] at closed
  | cons t ts ih =>
    rw [bodyLength?]
    by_cases closed : ClosesMacro (t :: ts)
    · rw [if_pos (closesMacro_iff.mp closed)]
      constructor
      · intro found
        cases found
        refine ⟨[], t :: ts, rfl, rfl, closed, fun front back split some => ?_⟩
        exact absurd (List.append_eq_nil_iff.mp split.symm).2 some
      · rintro ⟨body, rest, whole, rfl, -, first⟩
        cases body with
        | nil => rfl
        | cons u us => exact absurd (whole ▸ closed) (first [] (u :: us) rfl (List.cons_ne_nil _ _))
    · rw [if_neg fun found => closed (closesMacro_iff.mpr found), Option.map_eq_some_iff]
      constructor
      · rintro ⟨m, later, rfl⟩
        obtain ⟨body, rest, rfl, rfl, ends, first⟩ := ih.mp later
        refine ⟨t :: body, rest, rfl, rfl, ends, fun front back split some => ?_⟩
        cases front with
        | nil =>
          rw [List.nil_append] at split
          rwa [← split]
        | cons u front =>
          cases split
          exact first front back rfl some
      · rintro ⟨body, rest, whole, rfl, ends, first⟩
        cases body with
        | nil => exact absurd (whole ▸ ends) closed
        | cons u body =>
          cases whole
          refine ⟨body.length, ih.mpr ⟨body, rest, rfl, rfl, ends, fun front back split some => ?_⟩, rfl⟩
          exact first (t :: front) back (by rw [split]; rfl) some

/-! ## Segments -/

theorem definitionName_eq_ok {what : Expected} {dot name : Token} {ts : List Token} :
    definitionName what dot ts = .ok name ↔ ∃ us, ts = name :: us ∧ name.isWord := by
  cases ts with
  | nil => simp [definitionName]
  | cons t ts =>
    rw [definitionName]
    split
    · rename_i word
      simp only [Except.ok.injEq, List.cons.injEq]
      constructor
      · rintro rfl
        exact ⟨ts, ⟨rfl, rfl⟩, word⟩
      · rintro ⟨us, ⟨rfl, -⟩, -⟩
        rfl
    · rename_i other
      simp only [reduceCtorEq, List.cons.injEq, false_iff]
      rintro ⟨us, ⟨rfl, -⟩, word⟩
      exact other word

section Segments

variable {t name : Token} {ts : List Token}

/-- The directive in front of a list tells what kind of segment it begins with. -/
theorem directive_of_readSegment {s : Segment} (read : readSegment t ts = .ok s) : match s with
    | .plain _ => directiveAt? (t :: ts) ≠ some "define" ∧ directiveAt? (t :: ts) ≠ some "macro"
    | .constant .. => directiveAt? (t :: ts) = some "define"
    | .macroDefinition .. => directiveAt? (t :: ts) = some "macro" := by
  by_cases define : directiveAt? (t :: ts) = some "define"
  · rw [readSegment_define define] at read
    obtain ⟨_, -, same⟩ := bind_eq_ok.mp read
    cases same
    exact define
  · by_cases header : directiveAt? (t :: ts) = some "macro"
    · rw [readSegment_macroHeader header] at read
      obtain ⟨_, _, _, -, -, -, same⟩ := readMacroDefinition_eq_ok.mp read
      cases same
      exact header
    · rw [readSegment_plain define header] at read
      cases read
      exact ⟨define, header⟩

theorem readSegment_eq_plain {u : Token} : readSegment t ts = .ok (.plain u) ↔
    u = t ∧ ¬BeginsDirective "define" (t :: ts) ∧ ¬BeginsDirective "macro" (t :: ts) := by
  rw [beginsDirective_iff, beginsDirective_iff]
  constructor
  · intro read
    obtain ⟨define, header⟩ := directive_of_readSegment read
    rw [readSegment_plain define header] at read
    cases read
    exact ⟨rfl, define, header⟩
  · rintro ⟨rfl, define, header⟩
    exact readSegment_plain define header

/-- A constant is read exactly where its definition stands. -/
theorem readSegment_eq_constant {line : List Token} : readSegment t ts = .ok (.constant name line) ↔
    ∃ word value rest, ts = word :: name :: (value ++ rest) ∧ line = t :: word :: name :: value ∧
      ConstantDefinition t word name value rest := by
  constructor
  · intro read
    have define := directive_of_readSegment read
    rw [readSegment_define define] at read
    obtain ⟨_, found, same⟩ := bind_eq_ok.mp read
    cases same
    obtain ⟨dot, word, us, split, dotted, spelled, directive⟩ := beginsDirective_iff.mpr define
    cases split
    obtain ⟨vs, rfl, named⟩ := definitionName_eq_ok.mp found
    obtain ⟨own, -⟩ := line_definition dotted spelled named vs
    refine ⟨word, Token.line vs, Token.afterLine vs, by rw [Token.line_append_afterLine], own, ?_⟩
    exact ⟨dotted, spelled, directive, named, Token.inline_of_line vs, lineStop_afterLine vs⟩
  · rintro ⟨word, value, rest, rfl, rfl, defined⟩
    have define : directiveAt? (t :: word :: name :: (value ++ rest)) = some "define" :=
      beginsDirective_iff.mp ⟨t, word, _, rfl, defined.dotted, defined.spelled, defined.directive⟩
    obtain ⟨_, stop⟩ := defined.ends
    rw [readSegment_define define, readConstantDefinition,
      (line_definition defined.dotted defined.spelled defined.named _).1, (line_of_stop defined.inline stop).1]
    exact bind_eq_ok.mpr ⟨name, definitionName_eq_ok.mpr ⟨_, rfl, defined.named⟩, rfl⟩

/-- A macro is read exactly where its definition stands. -/
theorem readSegment_eq_macro {params : List String} {header body : List Token} :
    readSegment t ts = .ok (.macroDefinition name params header body) ↔
      ∃ word line stop rest, ts = word :: name :: (line ++ stop :: (body ++ rest)) ∧
        header = t :: word :: name :: (line ++ [stop]) ∧ MacroDefinition t word name line stop params body rest := by
  constructor
  · intro read
    have begun := directive_of_readSegment read
    rw [readSegment_macroHeader begun] at read
    obtain ⟨_, params, n, found, parameters, body, same⟩ := readMacroDefinition_eq_ok.mp read
    cases same
    obtain ⟨dot, word, us, split, dotted, spelled, directive⟩ := beginsDirective_iff.mpr begun
    cases split
    obtain ⟨vs, rfl, named⟩ := definitionName_eq_ok.mp found
    obtain ⟨own, behind⟩ := line_definition dotted spelled named vs
    rw [own] at parameters
    rw [behind] at body
    obtain ⟨parameters, distinct, -⟩ := readParams_eq_ok.mp parameters
    obtain ⟨text, rest, whole, rfl, closed, first⟩ := bodyLength?_eq_some.mp body
    -- A header at the end of the list has no separator, and nothing behind it to close the macro.
    cases after : Token.afterLine vs with
    | nil =>
      rw [after, List.drop_nil] at whole
      obtain ⟨rfl, rfl⟩ := List.append_eq_nil_iff.mp whole.symm
      simp [closesMacro_iff, directiveAt?] at closed
    | cons stop ws =>
      rw [after, List.drop_succ_cons, List.drop_zero] at whole
      subst whole
      rw [own, behind, after, List.take_succ_cons, List.take_zero, List.drop_succ_cons,
        List.drop_zero, List.take_left]
      refine ⟨word, Token.line vs, stop, rest, ?_, rfl, ?_⟩
      · rw [← after, Token.line_append_afterLine]
      · exact ⟨dotted, spelled, directive, named, Token.inline_of_line vs, Token.afterLine_head after,
          parameters, distinct, closed,
          first⟩
  · rintro ⟨word, line, stop, rest, rfl, rfl, defined⟩
    have begun : directiveAt? (t :: word :: name :: (line ++ stop :: (body ++ rest))) = some "macro" :=
      beginsDirective_iff.mp ⟨t, word, _, rfl, defined.dotted, defined.spelled, defined.directive⟩
    obtain ⟨own, behind⟩ := line_definition defined.dotted defined.spelled defined.named
      (line ++ stop :: (body ++ rest))
    have stops : LineStop (stop :: (body ++ rest)) (body ++ rest) := .separator defined.ends
    obtain ⟨line', after⟩ := line_of_stop defined.inline stops
    rw [readSegment_macroHeader begun, readMacroDefinition_eq_ok, own, behind, line', after]
    refine ⟨name, params, body.length, definitionName_eq_ok.mpr ⟨_, rfl, defined.named⟩, ?_, ?_, ?_⟩
    · exact readParams_eq_ok.mpr ⟨defined.parameters, defined.distinct, by simp⟩
    · exact bodyLength?_eq_some.mpr ⟨body, rest, rfl, rfl, defined.closed, defined.first⟩
    · simp

end Segments

/-! ## Everything that is collected -/

/-- A list is collected as the segments that it is cut into. -/
theorem collects_of_cut {ts : List Token} {ss : List Segment} (cut : Cut ts ss) :
    Collects ts (ss.flatMap Segment.kept) (.ofSegments ss) := by
  induction cut with
  | nil => exact .nil
  | @cons t more rest s ss read tokens later ih =>
    cases s with
    | plain u =>
      obtain ⟨rfl, constant, header⟩ := readSegment_eq_plain.mp read
      cases tokens
      exact .token constant header ih
    | constant name line =>
      obtain ⟨word, value, rest', whole, rfl, defined⟩ := readSegment_eq_constant.mp read
      cases tokens
      cases List.append_cancel_left (whole : (word :: name :: value) ++ rest = (word :: name :: value) ++ rest')
      exact .constant defined ih
    | macroDefinition name params header body =>
      obtain ⟨word, line, stop, rest', whole, rfl, defined⟩ := readSegment_eq_macro.mp read
      cases tokens
      have split : (word :: name :: (line ++ [stop]) ++ body) ++ rest =
          (word :: name :: (line ++ [stop]) ++ body) ++ rest' := by
        simpa using whole
      cases List.append_cancel_left split
      have collected : Collects (t :: word :: name :: (line ++ stop :: (body ++ rest)))
          (t :: word :: name :: (line ++ stop :: ss.flatMap Segment.kept))
          (.ofSegments (.macroDefinition name params (t :: word :: name :: (line ++ [stop])) body :: ss)) :=
        .macroDefinition defined ih
      simpa [Segment.kept] using collected

theorem cut_of_collects {ts kept : List Token} {defs : Definitions} (collects : Collects ts kept defs) :
    ∃ ss, Cut ts ss ∧ kept = ss.flatMap Segment.kept ∧ defs = .ofSegments ss := by
  induction collects with
  | nil => exact ⟨[], .nil, rfl, rfl⟩
  | @token t ts kept defs constant header later ih =>
    obtain ⟨ss, cut, rfl, rfl⟩ := ih
    have read : readSegment t ([] ++ ts) = .ok (.plain t) := readSegment_eq_plain.mpr ⟨rfl, constant, header⟩
    exact ⟨.plain t :: ss, .cons read rfl cut, rfl, rfl⟩
  | @constant dot word name value rest kept defs defined later ih =>
    obtain ⟨ss, cut, rfl, rfl⟩ := ih
    have read : readSegment dot ((word :: name :: value) ++ rest) =
        .ok (.constant name (dot :: word :: name :: value)) :=
      readSegment_eq_constant.mpr ⟨word, value, rest, rfl, rfl, defined⟩
    exact ⟨.constant name (dot :: word :: name :: value) :: ss, .cons read rfl cut, rfl, rfl⟩
  | @macroDefinition dot word name stop line body rest kept params defs defined later ih =>
    obtain ⟨ss, cut, rfl, rfl⟩ := ih
    let header := dot :: word :: name :: (line ++ [stop])
    have whole : word :: name :: (line ++ stop :: (body ++ rest)) =
        (word :: name :: (line ++ [stop]) ++ body) ++ rest := by simp
    have read : readSegment dot (word :: name :: (line ++ [stop]) ++ body ++ rest) =
        .ok (.macroDefinition name params header body) :=
      readSegment_eq_macro.mpr ⟨word, line, stop, rest, whole.symm, rfl, defined⟩
    refine ⟨.macroDefinition name params header body :: ss, ?_, ?_, rfl⟩
    · rw [whole]
      exact .cons read rfl cut
    · simp [Segment.kept, header]

/-- The names of collected definitions are those that the segments define, but for their order. -/
theorem names_ofSegments (ss : List Segment) : (Definitions.ofSegments ss).names.Perm (definedNames ss) := by
  induction ss with
  | nil => exact .nil
  | cons s ss ih =>
    cases s with
    | plain t => exact ih
    | constant name line => exact ih.cons name.raw
    | macroDefinition name params header body => exact List.perm_middle.trans (ih.cons name.raw)

/-- What is collected of a token list. -/
def collect (ts : List Token) : Except Error (List Token × Definitions) :=
  (segments ts).result.map fun ss => (ss.flatMap Segment.kept, .ofSegments ss)

/-- Collecting succeeds exactly on what is collected with distinct names. -/
theorem collect_eq_ok {ts kept : List Token} {defs : Definitions} :
    collect ts = .ok (kept, defs) ↔ Collects ts kept defs ∧ defs.names.Nodup := by
  rw [collect, map_eq_ok]
  constructor
  · rintro ⟨ss, found, same⟩
    cases same
    obtain ⟨cut, distinct⟩ := segments_eq_ok.mp found
    exact ⟨collects_of_cut cut, (names_ofSegments ss).nodup_iff.mpr distinct⟩
  · rintro ⟨collects, distinct⟩
    obtain ⟨ss, cut, rfl, rfl⟩ := cut_of_collects collects
    exact ⟨ss, segments_eq_ok.mpr ⟨cut, (names_ofSegments ss).nodup_iff.mp distinct⟩, rfl⟩

theorem CutOut.append (front : List Token) {stretches : List (List Token)} {ts kept : List Token}
    (out : CutOut stretches ts kept) :
    CutOut stretches (front ++ ts) (front ++ kept) := by
  cases out with
  | none => exact .none _
  | cons more stretch later =>
    rw [← List.append_assoc, ← List.append_assoc front more]
    exact .cons (front ++ more) stretch later

/-- Nothing is missing but the bodies of the macros. -/
theorem Collects.cutOut {ts kept : List Token} {defs : Definitions} (collects : Collects ts kept defs) :
    CutOut (defs.macros.map fun m => m.2.body) ts kept := by
  induction collects with
  | nil => exact .none []
  | token constant header later ih => exact ih.append [_]
  | @constant dot word name value rest kept defs defined later ih => exact ih.append (dot :: word :: name :: value)
  | @macroDefinition dot word name stop line body rest kept params defs defined later ih =>
    have out := CutOut.cons (dot :: word :: name :: (line ++ [stop])) body ih
    simpa using out

end Bisc
