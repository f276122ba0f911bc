import Bisc.Proofs.Collection
import Bisc.Proofs.FormMatching

/-!
Collecting as a loop over an index. Every token is taken by its index, and lines, headers and bodies
are the tokens between two indices, which are searched for. None of them is outside of the list,
however the list ends, and the loop stops with what is collected.
-/
namespace Bisc

open Token (uncommented)

/-- The token at an index. -/
def tokenAt (index : Nat) (ts : List Token) : Except SliceFault Token :=
  match ts[index]? with
  | some t => .ok t
  | none => .error ⟨index, ts.length⟩

/-- The tokens from an index on and before another. -/
def sliceBetween (first last : Nat) (ts : List Token) : Except SliceFault (List Token) := do
  sliceFrom first (← sliceUpTo last ts)

/-- The name of the directive at an index. -/
def directiveAtIndex? (ts : List Token) (index : Nat) : Option String :=
  match ts[index]?, ts[index + 1]? with
  | some dot, some word => if dot.kind = .directive ∧ word.isWord then some word.name else none
  | _, _ => none

/-- The index of the separator that ends a line, or of the end of the list. -/
def lineEnd (ts : List Token) (index : Nat) : Except SliceFault Nat := do
  let found ← (List.range' index (ts.length - index)).findM? fun k => return (← tokenAt k ts).isSeparator
  return found.getD ts.length

/-- The index of the first directive that closes a macro. -/
def closingFrom? (ts : List Token) (start : Nat) : Option Nat :=
  (List.range' start (ts.length - start)).find? fun k =>
    directiveAtIndex? ts k == some "endmacro" || directiveAtIndex? ts k == some "endm"

/-- The name that the definition at an index gives. -/
def nameAt (what : Expected) (ts : List Token) (index : Nat) : Except SliceFault (Except Error Token) := do
  let dot ← tokenAt index ts
  match ts[index + 2]? with
  | some t => return if t.isWord then .ok t else .error (t.unexpected what)
  | none => return .error ⟨.unexpected what .endOfFile, dot.pos⟩

/-- Definitions and later ones. -/
def Definitions.append (defs more : Definitions) : Definitions :=
  ⟨defs.constants ++ more.constants, defs.macros ++ more.macros⟩

theorem Definitions.append_empty (defs : Definitions) : defs.append ⟨[], []⟩ = defs := by
  simp [append]

/-- The state of a scan: the index of the next token, what was kept and what was defined so far. -/
structure Scan where
  index : Nat
  kept : List Token
  definitions : Definitions

/-- Takes the definition of a constant. -/
def scanConstant (ts : List Token) (s : Scan) : Except SliceFault (Except Error Scan) := do
  let last ← lineEnd ts s.index
  match ← nameAt .constantName ts s.index with
  | .error e => return .error e
  | .ok name =>
    let value ← sliceBetween (s.index + 3) last ts
    if name.raw ∈ s.definitions.names then return .error ⟨.duplicateSymbol name.raw, name.pos⟩
    else
      let line ← sliceBetween s.index last ts
      return .ok ⟨last, s.kept ++ line, s.definitions.append ⟨[(name.raw, uncommented value)], []⟩⟩

/-- Takes the definition of a macro up to the directive that closes it. -/
def scanMacro (ts : List Token) (s : Scan) : Except SliceFault (Except Error Scan) := do
  let last ← lineEnd ts s.index
  match ← nameAt .macroName ts s.index with
  | .error e => return .error e
  | .ok name =>
    match readParams [] (uncommented (← sliceBetween (s.index + 3) last ts)) with
    | .error e => return .error e
    | .ok params =>
      let start := min (last + 1) ts.length
      match closingFrom? ts start with
      | none => return .error ⟨.unexpected .macroEnd .endOfFile, name.pos⟩
      | some stop =>
        if name.raw ∈ s.definitions.names then return .error ⟨.duplicateSymbol name.raw, name.pos⟩
        else
          let body ← sliceBetween start stop ts
          let header ← sliceBetween s.index start ts
          return .ok ⟨stop, s.kept ++ header, s.definitions.append ⟨[], [(name.raw, ⟨params, body⟩)]⟩⟩

/-- Takes a definition, or a token that begins none. -/
def scanNext (ts : List Token) (s : Scan) : Except SliceFault (Except Error Scan) :=
  match directiveAtIndex? ts s.index with
  | some "define" => scanConstant ts s
  | some "macro" => scanMacro ts s
  | _ => do
    let t ← tokenAt s.index ts
    return .ok ⟨s.index + 1, s.kept ++ [t], s.definitions⟩

/-- A round of the scan. -/
def scanRound (ts : List Token) (s : Scan) :
    Round Scan (Except SliceFault (Except Error (List Token × Definitions))) :=
  if s.index < ts.length then
    match scanNext ts s with
    | .error fault => .stop (.error fault)
    | .ok (.error e) => .stop (.ok (.error e))
    | .ok (.ok s') => .again s'
  else .stop (.ok (.ok (s.kept, s.definitions)))

/-! ## Indices -/

section Indices

variable {ts rest : List Token} {t : Token} {index : Nat}

theorem getElem?_of_drop (here : ts.drop index = rest) (k : Nat) : ts[index + k]? = rest[k]? := by
  rw [← here, List.getElem?_drop]

theorem tokenAt_of_drop (here : ts.drop index = t :: rest) : tokenAt index ts = .ok t := by
  have first : ts[index]? = some t := getElem?_of_drop here 0
  rw [tokenAt, first]

theorem directiveAtIndex?_eq (ts : List Token) (index : Nat) :
    directiveAtIndex? ts index = directiveAt? (ts.drop index) := by
  have first := getElem?_of_drop (rfl : ts.drop index = ts.drop index) 0
  rw [directiveAtIndex?, getElem?_of_drop rfl 1, show ts[index]? = (ts.drop index)[0]? from first]
  rcases ts.drop index with _ | ⟨dot, _ | ⟨word, rest⟩⟩ <;> rfl

theorem drop_succ_of_drop (here : ts.drop index = t :: rest) : ts.drop (index + 1) = rest := by
  rw [← List.drop_drop, here]
  rfl

/-- A slice of what stands at an index is inside the list. -/
theorem sliceBetween_front {front back : List Token} (split : ts.drop index = front ++ back)
    (inside : index ≤ ts.length) {skip : Nat}
    (short : skip ≤ front.length) :
    sliceBetween (index + skip) (index + front.length) ts = .ok (front.drop skip) := by
  have total := congrArg List.length split
  rw [List.length_drop, List.length_append] at total
  have upTo : ts.take (index + front.length) = ts.take index ++ front := by
    rw [List.take_add, split, List.take_left]
  have length : (ts.take index).length = index := by rw [List.length_take]; omega
  rw [sliceBetween, sliceUpTo_inside (by omega), upTo]
  change sliceFrom (index + skip) (ts.take index ++ front) = _
  rw [sliceFrom_inside (by rw [List.length_append]; omega), List.drop_append, length]
  simp [List.drop_eq_nil_of_le (show (ts.take index).length ≤ index + skip by omega)]

theorem sliceBetween_whole {front back : List Token} (split : ts.drop index = front ++ back)
    (inside : index ≤ ts.length) :
    sliceBetween index (index + front.length) ts = .ok front := sliceBetween_front split inside (Nat.zero_le _)

/-- What stands behind a line and its separator; a line at the end of the list has none. -/
theorem behind_separator {line after : List Token} (split : ts.drop index = line ++ after)
    (inside : index ≤ ts.length) :
    min (index + line.length + 1) ts.length = index + (line ++ after.take 1).length ∧
      ts.drop index = (line ++ after.take 1) ++ after.drop 1 ∧
      ts.drop (index + (line ++ after.take 1).length) = after.drop 1 := by
  have total := congrArg List.length split
  rw [List.length_drop, List.length_append] at total
  have parted : ts.drop index = (line ++ after.take 1) ++ after.drop 1 := by
    rw [split, List.append_assoc, List.take_append_drop]
  refine ⟨?_, parted, ?_⟩
  · rw [List.length_append, List.length_take]
    omega
  · rw [← List.drop_drop, parted, List.drop_left]

/-- Separators are searched for at indices inside the list, and the first is found. -/
theorem findM?_separator (here : ts.drop index = rest) :
    (List.range' index rest.length).findM? (fun k => return (← tokenAt k ts).isSeparator) =
      .ok ((Token.afterLine rest).head?.map fun _ => index + (Token.line rest).length) := by
  induction rest generalizing index with
  | nil => rfl
  | cons t rest ih =>
    have later := ih (drop_succ_of_drop here)
    rw [List.length_cons, List.range'_succ, List.findM?, tokenAt_of_drop here]
    cases ends : t.isSeparator with
    | true => simp [Token.afterLine, Token.line, ends, bind, Except.bind, pure, Except.pure]
    | false =>
      have next : index + 1 + (Token.line rest).length = index + (Token.line (t :: rest)).length := by
        simp [Token.line, ends]
        omega
      simp only [bind, Except.bind, pure, Except.pure, ends] at later ⊢
      rw [later, next]
      simp [Token.afterLine, ends]

theorem lineEnd_eq (inside : index ≤ ts.length) :
    lineEnd ts index = .ok (index + (Token.line (ts.drop index)).length) := by
  have found := findM?_separator (rfl : ts.drop index = ts.drop index)
  rw [List.length_drop] at found
  rw [lineEnd, found]
  have parts := congrArg List.length (Token.line_append_afterLine (ts.drop index))
  rw [List.length_append, List.length_drop] at parts
  cases after : Token.afterLine (ts.drop index) with
  | nil =>
    rw [after] at parts
    have last : ts.length = index + (Token.line (ts.drop index)).length := by
      simp only [List.length_nil] at parts
      omega
    exact congrArg Except.ok last
  | cons stop us => rfl

theorem nameAt_eq (here : ts.drop index = t :: rest) (what : Expected) :
    nameAt what ts index = .ok (definitionName what t (rest.drop 1)) := by
  rw [nameAt, tokenAt_of_drop here, getElem?_of_drop here 2]
  rcases rest with _ | ⟨word, _ | ⟨name, us⟩⟩ <;> rfl

/-- The directive that closes a macro is searched for up to the end of the list. -/
theorem closingFrom?_eq (ts : List Token) (start : Nat) :
    closingFrom? ts start = (bodyLength? (ts.drop start)).map (start + ·) := by
  rw [closingFrom?, ← List.length_drop]
  generalize here : ts.drop start = rest
  induction rest generalizing start with
  | nil => rfl
  | cons t rest ih =>
    rw [List.length_cons, List.range'_succ, bodyLength?]
    by_cases closes : directiveAt? (t :: rest) ∈ [some "endmacro", some "endm"]
    · rw [List.find?_cons_of_pos (by simpa [directiveAtIndex?_eq, here] using closes), if_pos closes]
      rfl
    · rw [List.find?_cons_of_neg (by simpa [directiveAtIndex?_eq, here] using closes), if_neg closes,
        ih _ (drop_succ_of_drop here),
        Option.map_map]
      congr 1
      funext n
      simp only [Function.comp_apply]
      omega

end Indices

/-! ## Rounds -/

/-- The scan behind a segment. -/
def Scan.behind (s : Scan) (segment : Segment) : Scan :=
  ⟨s.index + segment.tokens.length, s.kept ++ segment.kept, s.definitions.append (.ofSegments [segment])⟩

/-- The scan goes behind a segment, unless the name that it defines is taken. -/
def Scan.take (s : Scan) (segment : Segment) : Except Error Scan :=
  match segment.name? with
  | some name =>
    if name.raw ∈ s.definitions.names then .error ⟨.duplicateSymbol name.raw, name.pos⟩ else .ok (s.behind segment)
  | none => .ok (s.behind segment)

/-- The name of a definition is on its line, so the line is long enough for the slice behind the name. -/
theorem three_le_line {t : Token} {rest : List Token} {directive : String}
    (found : directiveAt? (t :: rest) = some directive)
    {what : Expected} {name : Token} (given : definitionName what t (rest.drop 1) = .ok name) :
    3 ≤ (Token.line (t :: rest)).length := by
  obtain ⟨dot, word, us, split, dotted, spelled, -⟩ := beginsDirective_iff.mpr found
  cases split
  obtain ⟨vs, rfl, named⟩ := definitionName_eq_ok.mp given
  rw [(line_definition dotted spelled named vs).1]
  simp

section Rounds

variable {ts rest : List Token} {s : Scan} {t : Token} (here : ts.drop s.index = t :: rest)
include here

theorem index_lt_of_drop : s.index < ts.length := by
  have length := congrArg List.length here
  rw [List.length_drop, List.length_cons] at length
  omega

theorem scanConstant_eq (define : directiveAt? (t :: rest) = some "define") :
    scanConstant ts s = .ok (readConstantDefinition t rest >>= s.take) := by
  have inside : s.index ≤ ts.length := Nat.le_of_lt (index_lt_of_drop here)
  have split : ts.drop s.index = Token.line (t :: rest) ++ Token.afterLine (t :: rest) := by
    rw [here, Token.line_append_afterLine]
  rw [scanConstant, lineEnd_eq inside, here, nameAt_eq here, readConstantDefinition]
  cases named : definitionName .constantName t (rest.drop 1) with
  | error e => rfl
  | ok name =>
    have value := sliceBetween_front split inside (three_le_line define named)
    have line := sliceBetween_whole split inside
    simp only [bind, Except.bind, pure, Except.pure, value, line, Scan.take, Segment.name?]
    split <;> rfl

theorem scanMacro_eq (header : directiveAt? (t :: rest) = some "macro") :
    scanMacro ts s = .ok (readMacroDefinition t rest >>= s.take) := by
  have inside := index_lt_of_drop here
  have split : ts.drop s.index = Token.line (t :: rest) ++ Token.afterLine (t :: rest) := by
    rw [here, Token.line_append_afterLine]
  rw [scanMacro, lineEnd_eq inside.le, here, nameAt_eq here, readMacroDefinition]
  cases named : definitionName .macroName t (rest.drop 1) with
  | error e => rfl
  | ok name =>
    have parameters := sliceBetween_front split inside.le (three_le_line header named)
    simp only [bind, Except.bind, pure, Except.pure, parameters]
    cases readParams [] (uncommented ((Token.line (t :: rest)).drop 3)) with
    | error e => rfl
    | ok params =>
      generalize Token.line (t :: rest) = line at split ⊢
      generalize Token.afterLine (t :: rest) = after at split ⊢
      obtain ⟨start, parted, behind⟩ := behind_separator split inside.le
      have kept := sliceBetween_whole parted inside.le
      dsimp only
      rw [start, closingFrom?_eq, behind]
      cases found : bodyLength? (after.drop 1) with
      | none => rfl
      | some n =>
        -- The body ends before the directive that closes it, which is inside the list.
        have short := (bodyLength?_append found []).2
        have length : ((after.drop 1).take n).length = n := by
          rw [List.length_take]
          omega
        have body := sliceBetween_whole (behind.trans (List.take_append_drop n _).symm) (by omega)
        rw [length] at body
        simp only [Option.map_some, body, kept, Scan.take, Segment.name?]
        split
        · rfl
        · simp only [Scan.behind, Segment.tokens, Segment.kept, List.length_append, length, ← Nat.add_assoc]
          rfl

/-- A round takes the segment at its index, and every index that it uses is inside the list. -/
theorem scanNext_eq : scanNext ts s = .ok (readSegment t rest >>= s.take) := by
  have directive : directiveAtIndex? ts s.index = directiveAt? (t :: rest) := by rw [directiveAtIndex?_eq, here]
  by_cases define : directiveAt? (t :: rest) = some "define"
  · rw [readSegment_define define, ← scanConstant_eq here define]
    simp [scanNext, directive, define]
  · by_cases header : directiveAt? (t :: rest) = some "macro"
    · rw [readSegment_macroHeader header, ← scanMacro_eq here header]
      simp [scanNext, directive, header]
    · rw [readSegment_plain define header, scanNext, directive]
      split
      · contradiction
      · contradiction
      · have undefining : s.definitions.append (.ofSegments [.plain t]) = s.definitions := Definitions.append_empty _
        rw [tokenAt_of_drop here]
        simp only [bind, Except.bind, pure, Except.pure, Scan.take, Segment.name?, Scan.behind, undefining]
        rfl

end Rounds

/-! ## The loop -/

/-- Only whether a name is taken matters for the segments, not the order of the names. -/
theorem segmentsFrom_congr {taken taken' : List String} (same : ∀ name, name ∈ taken ↔ name ∈ taken')
    (skip : Nat) (ts : List Token) :
    segmentsFrom taken skip ts = segmentsFrom taken' skip ts := by
  fun_induction segmentsFrom taken skip ts generalizing taken' with
  | case1 => simp [segmentsFrom]
  | case2 taken skip t ts ih => rw [segmentsFrom, ih same]
  | case3 taken t ts e read => simp [segmentsFrom, read]
  | case4 taken t ts segment read unnamed ih => simp [segmentsFrom, read, unnamed, ih same]
  | case5 taken t ts segment read name named duplicate =>
    simp [segmentsFrom, read, named, (same name.raw).mp duplicate]
  | case6 taken t ts segment read name named fresh ih =>
    have fresh' : name.raw ∉ taken' := fun again => fresh ((same name.raw).mpr again)
    have same' : ∀ other, other ∈ name.raw :: taken ↔ other ∈ name.raw :: taken' := by
      intro other
      rw [List.mem_cons, List.mem_cons, same]
    simp [segmentsFrom, read, named, fresh', ih same']

/-- What a scan comes to from a state on. -/
def Scan.due (ts : List Token) (s : Scan) : Except Error (List Token × Definitions) :=
  (segmentsFrom s.definitions.names 0 (ts.drop s.index)).result.map fun ss =>
    (s.kept ++ ss.flatMap Segment.kept, s.definitions.append (.ofSegments ss))

theorem Definitions.mem_names_append {defs more : Definitions} {name : String} :
    name ∈ (defs.append more).names ↔ name ∈ defs.names ∨ name ∈ more.names := by
  simp only [names, append, List.map_append, List.mem_append]
  tauto

/-- The names that are taken behind a segment are those before it and the one that it defines. -/
theorem Scan.mem_names_behind {s : Scan} {segment : Segment} {name : String} :
    name ∈ (s.behind segment).definitions.names ↔ name ∈ s.definitions.names ∨
    ∃ own ∈ segment.name?, own.raw = name := by
  rw [behind, Definitions.mem_names_append, (names_ofSegments [segment]).mem_iff]
  cases found : segment.name? <;> simp [definedNames, found, eq_comm]

theorem ofSegments_cons (segment : Segment) (ss : List Segment) :
    Definitions.ofSegments (segment :: ss) = (Definitions.ofSegments [segment]).append (.ofSegments ss) := by
  rw [← List.singleton_append]
  simp only [Definitions.ofSegments, Definitions.append, List.filterMap_append]

section Due

variable {ts rest : List Token} {s : Scan} {t : Token} {segment : Segment} (here : ts.drop s.index = t :: rest)
include here

/-- What a scan comes to behind a segment, with the segment in front of the others. -/
theorem Scan.due_behind (read : readSegment t rest = .ok segment) {taken : List String}
    (same : ∀ name, name ∈ taken ↔ name ∈ (s.behind segment).definitions.names) :
    ((segmentsFrom taken (segment.tokens.length - 1) rest).result.map (segment :: ·)).map (fun ss =>
      (s.kept ++ ss.flatMap Segment.kept, s.definitions.append (.ofSegments ss))) = (s.behind segment).due ts := by
  obtain ⟨more, later, tokens, rfl, -⟩ := split_of_readSegment read
  have behind : ts.drop (s.behind segment).index = later := by
    rw [Scan.behind, tokens, ← List.drop_drop, here, ← List.cons_append, List.drop_left]
  rw [due, behind, tokens, List.length_cons, Nat.add_sub_cancel, segmentsFrom_skip, List.drop_left,
    segmentsFrom_congr same, map_map]
  refine congrArg (fun f => Except.map f _) (funext fun ss => ?_)
  rw [List.flatMap_cons, ofSegments_cons]
  simp [Scan.behind, Definitions.append]

/-- A scan comes to what it comes to behind the segment at its index. -/
theorem Scan.due_eq : s.due ts = readSegment t rest >>= s.take >>= fun s' => s'.due ts := by
  rw [due, here, segmentsFrom]
  cases read : readSegment t rest with
  | error e => rfl
  | ok segment =>
    simp only [bind, Except.bind, take]
    cases named : segment.name? with
    | none =>
      have same : ∀ name, name ∈ s.definitions.names ↔ name ∈ (s.behind segment).definitions.names := by
        intro name
        rw [mem_names_behind]
        simp [named]
      dsimp only
      rw [Run.result_cons]
      exact due_behind here read same
    | some name =>
      by_cases duplicate : name.raw ∈ s.definitions.names
      · simp only [duplicate, if_true]
        rfl
      · have same : ∀ other, other ∈ name.raw :: s.definitions.names ↔
            other ∈ (s.behind segment).definitions.names := by
          intro other
          rw [mem_names_behind, List.mem_cons]
          simp [named, or_comm, eq_comm]
        simp only [duplicate, if_false]
        rw [Run.result_cons]
        exact due_behind here read same

end Due

section Loop

variable {ts : List Token} {s : Scan}

/-- At the end of the list, a round stops with what was kept and defined. -/
theorem scanRound_end (ended : ts.drop s.index = []) :
    scanRound ts s = .stop (.ok (.ok (s.kept, s.definitions))) := by
  rw [scanRound, if_neg (Nat.not_lt.mpr (List.drop_eq_nil_iff.mp ended))]

/-- At an index of the list, a round takes the segment there. -/
theorem scanRound_segment {t : Token} {rest : List Token} (here : ts.drop s.index = t :: rest) :
    scanRound ts s = match readSegment t rest >>= s.take with
      | .error e => .stop (.ok (.error e))
      | .ok s' => .again s' := by
  rw [scanRound, if_pos (index_lt_of_drop here), scanNext_eq here]
  cases readSegment t rest >>= s.take <;> rfl

/-- A scan that takes a segment is behind the index where it was. -/
theorem Scan.index_lt_of_take {t : Token} {rest : List Token} {s' : Scan}
    (taken : readSegment t rest >>= s.take = .ok s') :
    s.index < s'.index := by
  obtain ⟨segment, read, taken⟩ := bind_eq_ok.mp taken
  obtain ⟨more, later, tokens, -, -⟩ := split_of_readSegment read
  have behind : s' = s.behind segment := by
    unfold Scan.take at taken
    split at taken
    · split at taken
      · cases taken
      · exact (Except.ok.inj taken).symm
    · exact (Except.ok.inj taken).symm
  have length : s'.index = s.index + segment.tokens.length := by rw [behind, Scan.behind]
  rw [length, tokens, List.length_cons]
  omega

/-- A round that goes on is nearer to the end, and changes nothing in what the scan comes to. -/
theorem scanRound_again {s' : Scan} (next : scanRound ts s = .again s') :
    ts.length - s'.index < ts.length - s.index ∧ s'.due ts = s.due ts := by
  cases here : ts.drop s.index with
  | nil =>
    rw [scanRound_end here] at next
    cases next
  | cons t rest =>
    have inside := index_lt_of_drop here
    rw [scanRound_segment here] at next
    cases taken : readSegment t rest >>= s.take with
    | error e =>
      rw [taken] at next
      cases next
    | ok s'' =>
      rw [taken] at next
      cases next
      have further := Scan.index_lt_of_take taken
      rw [Scan.due_eq here, taken]
      exact ⟨by omega, rfl⟩

/-- A round that stops gives what the scan comes to: no index was outside of the list. -/
theorem scanRound_stop {result : Except SliceFault (Except Error (List Token × Definitions))}
    (last : scanRound ts s = .stop result) :
    result = .ok (s.due ts) := by
  cases here : ts.drop s.index with
  | nil =>
    rw [scanRound_end here] at last
    cases last
    have none : s.definitions.append (.ofSegments []) = s.definitions := Definitions.append_empty _
    rw [Scan.due, here]
    simp [segmentsFrom, Run.result, Run.done, Except.map, none]
  | cons t rest =>
    rw [scanRound_segment here] at last
    cases taken : readSegment t rest >>= s.take with
    | error e =>
      rw [taken] at last
      cases last
      rw [Scan.due_eq here, taken]
      rfl
    | ok s' =>
      rw [taken] at last
      cases last

/-- The scan ends with what is collected of the list. -/
theorem halts_scan (ts : List Token) : Halts (scanRound ts) ⟨0, [], ⟨[], []⟩⟩ (.ok (collect ts)) :=
  halts_of_measure Nat.lt_wfRel.wf (fun s : Scan => ts.length - s.index) (fun s => Except.ok (s.due ts))
    (fun _ _ next => ⟨(scanRound_again next).1, congrArg Except.ok (scanRound_again next).2⟩)
      (fun _ _ => scanRound_stop) _

end Loop

/-- Collecting takes exactly the bodies of macros out of a token list, and gives each definition its
    name and value. It succeeds on the lists whose definitions are complete and have distinct names,
    and what is missing of such a list are the bodies that were collected, in their order. On every
    list the scan by indices stops with what is collected, and no index or slice of it is outside of
    the list. -/
theorem collection_exact (ts : List Token) :
    preprocess ts = (collect ts >>= fun (kept, defs) => expand defs kept) ∧
    (∀ kept defs, collect ts = .ok (kept, defs) ↔ Collects ts kept defs ∧ defs.names.Nodup) ∧
    (∀ kept defs, collect ts = .ok (kept, defs) → CutOut (defs.macros.map fun m => m.2.body) ts kept) ∧
    Halts (scanRound ts) ⟨0, [], ⟨[], []⟩⟩ (.ok (collect ts)) := by
  refine ⟨?_, fun _ _ => collect_eq_ok, fun _ _ found => (collect_eq_ok.mp found).1.cutOut, halts_scan ts⟩
  rw [collect, map_bind]
  rfl

/-- A macro that is closed in the middle of a line, with what looks like a definition in its body, and a constant. -/
def scattered : List Token := tokenize bisc ".macro m a ; c\n%a .define x 1 .ENDM ; e\n.define K 2 ; z"

/-- What is defined there: the line of `x` is part of the body. -/
def scatteredDefinitions : Definitions :=
  ⟨[("K", (scattered.drop 19).take 1)], [("m", ⟨["a"], (scattered.drop 6).take 6⟩)]⟩

/-- The six tokens of the body are missing, and nothing else. -/
theorem collection_exact_scattered :
    collect scattered = .ok (scattered.take 6 ++ scattered.drop 12, scatteredDefinitions) ∧
    Collects scattered (scattered.take 6 ++ scattered.drop 12) scatteredDefinitions ∧ ["K", "m"].Nodup ∧
    CutOut [(scattered.drop 6).take 6] scattered (scattered.take 6 ++ scattered.drop 12) := by
  obtain ⟨-, precise, out, -⟩ := collection_exact scattered
  have collected : collect scattered = .ok (scattered.take 6 ++ scattered.drop 12, scatteredDefinitions) := by cbv
  obtain ⟨collects, distinct⟩ := (precise _ _).mp collected
  exact ⟨collected, collects, distinct, out _ _ collected⟩

end Bisc
