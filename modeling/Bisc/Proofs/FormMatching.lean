import Bisc.Proofs.OperandGrammar

/-!
Matching a form. The tokens of an operand are found from the front without a second try, although a
symbol is an immediate with and without the slice behind it. What stands between operands never
begins a slice, so the longer reading is the only one that can go on: a form takes exactly the lists
of operands of its signature, each of them in one way.
-/
namespace Bisc

section Grammar

variable {immediate immediate' : List Token → Except RangeFault Constant → Prop}
  {kinds : List OperandKind} {ts : List Token}
  {parts : List (List Token)} {values : List (Except RangeFault Operand)}

theorem IsOperand.mono (wider : ∀ ts value, immediate ts value → immediate' ts value) {kind : OperandKind}
    {value : Except RangeFault Operand} (operand : IsOperand immediate kind ts value) :
    IsOperand immediate' kind ts value := by
  cases operand with
  | register kind => exact .register kind
  | immediate shape => exact .immediate (wider _ _ shape)
  | memory register opened shape closed => exact .memory register opened (wider _ _ shape) closed

/-- Operands in a language are operands in every wider one. -/
theorem Listed.mono (wider : ∀ ts value, immediate ts value → immediate' ts value)
    (listed : Listed immediate kinds ts parts values) :
    Listed immediate' kinds ts parts values := by
  induction listed with
  | nil => exact .nil
  | last operand => exact .last (operand.mono wider)
  | cons operand parted _ ih => exact .cons (operand.mono wider) parted ih

theorem Listed.mem_of_part (listed : Listed immediate kinds ts parts values) {part : List Token}
    (own : part ∈ parts) :
    part ⊆ ts := by
  induction listed with
  | nil => cases own
  | last operand =>
    rw [List.mem_singleton] at own
    rw [own]
    exact List.Subset.refl _
  | @cons _ _ _ ts us comma _ _ _ operand _ _ ih =>
    rcases List.mem_cons.mp own with rfl | own
    · exact List.subset_append_left part (comma :: us)
    · intro t member
      exact List.mem_append_right _ (List.mem_cons_of_mem _ (ih own member))

end Grammar

/-! ## One operand -/

theorem immediateLength_le {ts : List Token} {n : Nat} (length : immediateLength? ts = some n) : n ≤ ts.length := by
  cases ts with
  | nil => cases length
  | cons t ts =>
    simp only [immediateLength?] at length
    split at length
    · cases length
      simp
    · split at length
      · rename_i sliced
        cases length
        have five := congrArg List.length sliced
        simp only [List.length_map, List.length_take, sliceKinds, List.length_cons, List.length_nil] at five ⊢
        omega
      · cases length
        simp
    · cases length

/-- What is found at the front of a list is an operand of the kind, and inside the list. -/
theorem isOperand_of_length {kind : OperandKind} {ts : List Token} {n : Nat} (length : kind.length? ts = some n) :
    n ≤ ts.length ∧ ∃ value, IsOperand IsImmediate kind (ts.take n) value := by
  cases kind with
  | register =>
    cases ts with
    | nil => cases length
    | cons t ts =>
      simp only [OperandKind.length?] at length
      split at length
      · rename_i kind
        cases length
        exact ⟨by simp, _, .register kind⟩
      · cases length
  | immediate =>
    obtain ⟨value, shape⟩ := isImmediate_of_length length
    exact ⟨immediateLength_le length, _, .immediate shape⟩
  | memory =>
    rcases ts with _ | ⟨base, _ | ⟨left, ts⟩⟩
    · cases length
    · cases length
    · simp only [OperandKind.length?] at length
      split at length
      · rename_i begun
        split at length
        · rename_i m inner
          split at length
          · rename_i closed
            cases length
            obtain ⟨value, shape⟩ := isImmediate_of_length inner
            rw [List.head?_drop] at closed
            obtain ⟨right, there, closed⟩ := Option.map_eq_some_iff.mp closed
            have inside : m < ts.length := (List.getElem?_eq_some_iff.mp there).1
            have front : (base :: left :: ts).take (m + 3) = base :: left :: (ts.take m ++ [right]) := by
              rw [List.take_succ_cons, List.take_succ_cons, List.take_add_one, there]
              rfl
            have bound : m + 3 ≤ (base :: left :: ts).length := by
              simp only [List.length_cons]
              omega
            rw [front]
            exact ⟨bound, _, .memory begun.1 begun.2 shape closed⟩
          · cases length
        · cases length
      · cases length

/-- An operand of a kind is found at the front of a list, unless a slice could go on with what follows. -/
theorem length_of_isOperand {kind : OperandKind} {ts : List Token} {value : Except RangeFault Operand}
    (operand : IsOperand IsImmediate kind ts value) {rest : List Token} (follows : Follows rest) :
    kind.length? (ts ++ rest) = some ts.length := by
  cases operand with
  | register kind => simp [OperandKind.length?, kind]
  | immediate shape => exact immediateLength_append shape follows
  | @memory base left right ts value register opened shape closed =>
    -- The bracket keeps the symbol before it from going on with a slice.
    have inner : immediateLength? (ts ++ right :: rest) = some ts.length :=
      immediateLength_append shape (follows_cons (by simp [closed]) rest)
    simp [OperandKind.length?, register, opened, inner, closed]

/-! ## All operands -/

/-- The tokens that a signature takes are operands of its kinds. -/
theorem listed_of_split {kinds : List OperandKind} {ts : List Token} {parts : List (List Token)}
    (split : splitOperands kinds ts = some parts) : ∃ values, Listed IsImmediate kinds ts parts values := by
  induction kinds generalizing ts parts with
  | nil =>
    cases ts with
    | nil =>
      cases split
      exact ⟨[], .nil⟩
    | cons t ts => cases split
  | cons kind kinds ih =>
    simp only [splitOperands] at split
    cases length : kind.length? ts with
    | none => simp [length] at split
    | some n =>
      simp only [length] at split
      obtain ⟨-, value, operand⟩ := isOperand_of_length length
      have whole : ts.take n ++ ts.drop n = ts := List.take_append_drop n ts
      cases after : ts.drop n with
      | nil =>
        rw [after, List.append_nil] at whole
        simp only [after] at split
        by_cases final : kinds.isEmpty
        · rw [if_pos final] at split
          cases split
          rw [List.isEmpty_iff] at final
          subst final
          rw [whole] at operand ⊢
          exact ⟨[value], .last operand⟩
        · rw [if_neg final] at split
          cases split
      | cons comma rest =>
        rw [after] at whole
        simp only [after] at split
        by_cases stuck : kinds.isEmpty ∨ comma.kind ≠ .comma
        · rw [if_pos stuck] at split
          cases split
        · rw [if_neg stuck] at split
          obtain ⟨more, others, rfl⟩ := Option.map_eq_some_iff.mp split
          obtain ⟨values, listed⟩ := ih others
          simp only [List.isEmpty_iff, not_or, not_not] at stuck
          obtain ⟨next, kinds, rfl⟩ := List.exists_cons_of_ne_nil stuck.1
          have all : Listed IsImmediate (kind :: next :: kinds) (ts.take n ++ comma :: rest)
              (ts.take n :: more) (value :: values) :=
            .cons operand stuck.2 listed
          rw [whole] at all
          exact ⟨value :: values, all⟩

theorem areOperands_of_listed {kinds : List OperandKind} (simple : OperandKind.memory ∉ kinds) {ts : List Token}
    {arguments : List (List Token)} {values : List (Except RangeFault Operand)}
    (listed : Listed IsImmediate kinds ts arguments values) : AreOperands kinds arguments := by
  have first {kind : OperandKind} {kinds : List OperandKind} {ts : List Token} {more : List (List Token)}
      {value : Except RangeFault Operand} (other : .memory ≠ kind) (operand : IsOperand IsImmediate kind ts value)
      (rest : AreOperands kinds more) : AreOperands (kind :: kinds) (ts :: more) := by
    cases operand with
    | register kind => exact .register kind rest
    | immediate shape => exact .immediate shape rest
    | memory => exact absurd rfl other
  induction listed with
  | nil => exact .nil
  | last operand => exact first (by simpa using simple) operand .nil
  | cons operand _ _ ih =>
    rw [List.mem_cons, not_or] at simple
    exact first simple.1 operand (ih simple.2)

/-- What a signature takes are operands of its kinds, made of the tokens given. -/
theorem areOperands_of_split {kinds : List OperandKind} (simple : OperandKind.memory ∉ kinds) {ts : List Token}
    {arguments : List (List Token)} (split : splitOperands kinds ts = some arguments) :
    AreOperands kinds arguments ∧ ∀ a ∈ arguments, a ⊆ ts := by
  obtain ⟨values, listed⟩ := listed_of_split split
  exact ⟨areOperands_of_listed simple listed, fun a own => listed.mem_of_part own⟩

/-- Operands of the kinds of a signature are found by it: a comma never begins a slice. -/
theorem split_of_listed {kinds : List OperandKind} {ts : List Token} {parts : List (List Token)}
    {values : List (Except RangeFault Operand)} (listed : Listed IsImmediate kinds ts parts values) :
    splitOperands kinds ts = some parts := by
  induction listed with
  | nil => rfl
  | last operand =>
    have length := length_of_isOperand operand follows_nil
    rw [List.append_nil] at length
    simp [splitOperands, length]
  | @cons kind next kinds ts us comma parts value values operand parted rest ih =>
    have length := length_of_isOperand operand (follows_cons (by simp [parted]) us : Follows (comma :: us))
    rw [splitOperands]
    simp [length, parted, ih]

theorem intercalate_raw (text : String) {ts : List Token} (inline : ∀ t ∈ ts, t.isSeparator = false) :
    " ".intercalate (text :: ts.map Token.raw) = text ++ Token.renderFrom false ts := by
  induction ts generalizing text with
  | nil => simp [Token.renderFrom]
  | cons t ts ih =>
    simp only [List.forall_mem_cons] at inline
    rw [List.map_cons, String.intercalate_cons_cons, ih _ inline.2]
    simp [Token.renderFrom, inline.1, String.append_assoc]

/-- The text of tokens of one line has their spellings with a space between neighbours. -/
theorem render_inline {ts : List Token} (inline : ∀ t ∈ ts, t.isSeparator = false) :
    Token.render ts = " ".intercalate (ts.map Token.raw) := by
  cases ts with
  | nil => rfl
  | cons t ts =>
    simp only [List.forall_mem_cons] at inline
    rw [List.map_cons, intercalate_raw t.raw inline.2]
    simp [Token.render, Token.renderFrom, inline.1]

/-! ## Bounds -/

/-- A slice of a list has a bound behind the end of the list. -/
structure SliceFault where
  bound : Nat
  length : Nat

/-- The tokens from a position on, which may be the end. -/
def sliceFrom (start : Nat) (ts : List Token) : Except SliceFault (List Token) :=
  if start ≤ ts.length then .ok (ts.drop start) else .error ⟨start, ts.length⟩

/-- The tokens before a position, which may be the end. -/
def sliceUpTo (stop : Nat) (ts : List Token) : Except SliceFault (List Token) :=
  if stop ≤ ts.length then .ok (ts.take stop) else .error ⟨stop, ts.length⟩

/-- The number of tokens of an operand, with the offset of a memory operand in a slice of its own. -/
def OperandKind.slicedLength (rest : List Token) : OperandKind → Except SliceFault (Option Nat)
  | .register => return rest[0]?.bind fun t => if t.kind = .register then some 1 else none
  | .immediate => return immediateLength? rest
  | .memory =>
    match rest[0]?, rest[1]? with
    | some base, some left =>
      if base.kind = .register ∧ left.kind = .leftBracket then do
        let offset ← sliceFrom 2 rest
        return (immediateLength? offset).bind fun n =>
          if rest[2 + n]?.map Token.kind = some .rightBracket then some (n + 3) else none
      else return none
    | _, _ => return none

/-- Where the operand of an index starts, given where the one before it ends. -/
def operandStart (arguments : List Token) (index pos : Nat) : Option Nat :=
  if index = 0 then some pos
  else arguments[pos]?.bind fun t => if t.kind = .comma then some (pos + 1) else none

/-- Matches a signature with a position that moves over the arguments; every slice checks its bound. -/
def matchFrom (arguments : List Token) : Nat → List OperandKind → Nat → List String →
    Except SliceFault (Option (List String))
  | _, [], pos, operands => return if pos = arguments.length then some operands else none
  | index, kind :: kinds, pos, operands =>
    match operandStart arguments index pos with
    | none => return none
    | some start => do
      let rest ← sliceFrom start arguments
      match ← kind.slicedLength rest with
      | none => return none
      | some n =>
        let operand ← sliceUpTo n rest
        matchFrom arguments (index + 1) kinds (start + n) (operands ++ [Token.render operand])

theorem sliceFrom_inside {start : Nat} {ts : List Token} (inside : start ≤ ts.length) :
    sliceFrom start ts = .ok (ts.drop start) := if_pos inside

theorem sliceUpTo_inside {stop : Nat} {ts : List Token} (inside : stop ≤ ts.length) :
    sliceUpTo stop ts = .ok (ts.take stop) := if_pos inside

/-- The slice of an offset is taken behind a bracket that is there. -/
theorem slicedLength_eq (kind : OperandKind) (rest : List Token) :
    kind.slicedLength rest = .ok (kind.length? rest) := by
  cases kind with
  | register =>
    cases rest with
    | nil => rfl
    | cons t ts => rfl
  | immediate => rfl
  | memory =>
    rcases rest with _ | ⟨base, _ | ⟨left, ts⟩⟩
    · rfl
    · rfl
    · have offset : sliceFrom 2 (base :: left :: ts) = .ok ts := sliceFrom_inside (by simp)
      by_cases begun : base.kind = .register ∧ left.kind = .leftBracket
      · have shifted (n : Nat) : (base :: left :: ts)[2 + n]? = (ts.drop n).head? := by
          rw [Nat.add_comm, List.head?_drop]
          rfl
        simp only [OperandKind.slicedLength, OperandKind.length?, List.getElem?_cons_zero,
          List.getElem?_cons_succ, if_pos begun,
          offset, shifted, bind, Except.bind, pure, Except.pure]
        cases immediateLength? ts <;> rfl
      · simp [OperandKind.slicedLength, OperandKind.length?, begun, pure, Except.pure]

/-- The operands from an index on, in what the operands before it leave. -/
def operandsFrom (index : Nat) (kinds : List OperandKind) (ts : List Token) : Option (List (List Token)) :=
  if index = 0 then splitOperands kinds ts
  else match kinds, ts with
    | [], [] => some []
    | [], _ :: _ => none
    | _ :: _, [] => none
    | kind :: kinds, comma :: rest => if comma.kind = .comma then splitOperands (kind :: kinds) rest else none

theorem split_cons (kind : OperandKind) (kinds : List OperandKind) (index : Nat) (ts : List Token) :
    splitOperands (kind :: kinds) ts =
      (kind.length? ts).bind fun n => (operandsFrom (index + 1) kinds (ts.drop n)).map (ts.take n :: ·) := by
  rw [splitOperands]
  cases kind.length? ts with
  | none => rfl
  | some n =>
    simp only [Option.bind_some]
    cases ts.drop n with
    | nil => cases kinds <;> rfl
    | cons comma rest =>
      cases kinds with
      | nil => rfl
      | cons next kinds =>
        by_cases parted : comma.kind = .comma
        · simp [operandsFrom, parted]
        · simp [operandsFrom, parted]

theorem operandsFrom_nil (index : Nat) (ts : List Token) :
    operandsFrom index [] ts = if ts = [] then some [] else none := by
  unfold operandsFrom
  cases ts <;> simp [splitOperands]

theorem operandsFrom_cons {arguments : List Token} {pos : Nat} (inside : pos ≤ arguments.length)
    (index : Nat) (kind : OperandKind)
    (kinds : List OperandKind) :
    (∀ start ∈ operandStart arguments index pos, start ≤ arguments.length) ∧
    operandsFrom index (kind :: kinds) (arguments.drop pos) =
      (operandStart arguments index pos).bind fun start => splitOperands (kind :: kinds) (arguments.drop start) := by
  by_cases first : index = 0
  · simp [operandsFrom, operandStart, first, inside]
  · cases after : arguments.drop pos with
    | nil =>
      have there : arguments[pos]? = none := by rw [← List.head?_drop, after]; rfl
      simp [operandsFrom, operandStart, first, there]
    | cons comma rest =>
      have there : arguments[pos]? = some comma := by rw [← List.head?_drop, after]; rfl
      have later : arguments.drop (pos + 1) = rest := by rw [← List.drop_drop, after]; rfl
      have more : pos < arguments.length := (List.getElem?_eq_some_iff.mp there).1
      by_cases parted : comma.kind = .comma
      · simp only [operandsFrom, operandStart, first, there, parted, if_true, if_false, Option.bind_some, later]
        exact ⟨fun start same => by cases same; omega, trivial⟩
      · simp [operandsFrom, operandStart, first, there, parted]

/-- From a position inside the arguments no slice fails, and what is matched are the operands from there on. -/
theorem matchFrom_eq (arguments : List Token) (index : Nat) (kinds : List OperandKind) {pos : Nat}
    (inside : pos ≤ arguments.length)
    (operands : List String) : matchFrom arguments index kinds pos operands =
      .ok ((operandsFrom index kinds (arguments.drop pos)).map fun parts => operands ++ parts.map Token.render) := by
  induction kinds generalizing index pos operands with
  | nil =>
    have ended : pos = arguments.length ↔ arguments.drop pos = [] := by
      rw [List.drop_eq_nil_iff]
      omega
    rw [matchFrom, operandsFrom_nil]
    by_cases last : pos = arguments.length
    · rw [if_pos last, if_pos (ended.mp last)]
      simp [pure, Except.pure]
    · rw [if_neg last, if_neg fun none => last (ended.mpr none)]
      rfl
  | cons kind kinds ih =>
    -- The position stays inside: an operand starts at it or behind a comma, and ends where its slice does.
    obtain ⟨bounded, same⟩ := operandsFrom_cons inside index kind kinds
    rw [same, matchFrom]
    cases begun : operandStart arguments index pos with
    | none => rfl
    | some start =>
      have inside := bounded start begun
      simp only [sliceFrom_inside inside, slicedLength_eq, Option.bind_some,
        split_cons kind kinds index, bind, Except.bind]
      cases length : kind.length? (arguments.drop start) with
      | none => rfl
      | some n =>
        obtain ⟨short, -⟩ := isOperand_of_length length
        have next : start + n ≤ arguments.length := by
          rw [List.length_drop] at short
          omega
        simp only [sliceUpTo_inside short, ih (index + 1) next, Option.bind_some, List.drop_drop, Option.map_map]
        congr 2
        funext parts
        simp

/-! ## Forms -/

theorem inline_of_listed {kinds : List OperandKind} {ts : List Token} {parts : List (List Token)}
    {values : List (Except RangeFault Operand)} (listed : Listed IsImmediate kinds ts parts values)
    {part : List Token}
    (own : part ∈ parts) : ∀ t ∈ part, t.isSeparator = false := by
  intro t member
  have plain := unmarked_of_listed (listed.mono fun _ _ => IsConstant.plain) t (listed.mem_of_part own member)
  by_contra separator
  rw [isMark_iff.mpr (.inr (by simpa using separator))] at plain
  cases plain

/-- A form takes exactly the lists of operands of its signature, whatever the signature is: the
    texts that it gives are those of the operands, there are never two ways to see operands in one
    list, and the position that moves over the arguments never takes a slice beyond their end. -/
theorem form_by_grammar (form : PseudoForm) (arguments : List Token) :
    (∀ texts, form.operands? arguments = some texts ↔
      ∃ parts values, Listed IsImmediate form.signature arguments parts values ∧
      texts = parts.map fun part => " ".intercalate (part.map Token.raw)) ∧
    (∀ parts parts' values values', Listed IsImmediate form.signature arguments parts values →
      Listed IsImmediate form.signature arguments parts' values' → parts = parts') ∧
    matchFrom arguments 0 form.signature 0 [] = .ok (form.operands? arguments) := by
  have texts_of {parts : List (List Token)} {values : List (Except RangeFault Operand)}
      (listed : Listed IsImmediate form.signature arguments parts values) :
      parts.map Token.render = parts.map fun part => " ".intercalate (part.map Token.raw) := by
    apply List.map_congr_left
    intro part own
    exact render_inline (inline_of_listed listed own)
  refine ⟨fun texts => ⟨?_, ?_⟩, ?_, ?_⟩
  · intro matched
    obtain ⟨parts, split, rfl⟩ := Option.map_eq_some_iff.mp matched
    obtain ⟨values, listed⟩ := listed_of_split split
    exact ⟨parts, values, listed, texts_of listed⟩
  · rintro ⟨parts, values, listed, rfl⟩
    rw [← texts_of listed]
    exact Option.map_eq_some_iff.mpr ⟨parts, split_of_listed listed, rfl⟩
  · intro parts parts' values values' listed listed'
    exact Option.some.inj ((split_of_listed listed).symm.trans (split_of_listed listed'))
  · rw [matchFrom_eq arguments 0 form.signature (Nat.zero_le _) []]
    simp [operandsFrom, PseudoForm.operands?]

/-- A memory operand whose offset is a slice, and a symbol: the slice is as long as it can be. -/
private def slicedOperands : List Token :=
  [⟨.register, "sp", some 14, ⟨1, 4⟩, 0⟩, ⟨.leftBracket, "[", none, ⟨1, 6⟩, 0⟩,
  ⟨.identifier, "x", none, ⟨1, 7⟩, 0⟩, ⟨.leftParen, "(", none, ⟨1, 8⟩, 0⟩, ⟨.immediate, "0", some 0, ⟨1, 9⟩, 0⟩,
  ⟨.colon, ":", none, ⟨1, 10⟩, 0⟩, ⟨.immediate, "9", some 9, ⟨1, 11⟩, 0⟩, ⟨.rightParen, ")", none, ⟨1, 12⟩, 0⟩,
  ⟨.rightBracket, "]", none, ⟨1, 13⟩, 0⟩, ⟨.comma, ",", none, ⟨1, 14⟩, 0⟩, ⟨.identifier, "y", none, ⟨1, 16⟩, 0⟩]

/-- The two operands are the only ones, and their texts are given. -/
theorem form_by_grammar_slicedOperands :
    (⟨[.memory, .immediate], []⟩ : PseudoForm).operands? slicedOperands = some ["sp [ x ( 0 : 9 ) ]", "y"] ∧
    ∀ parts values, Listed IsImmediate [.memory, .immediate] slicedOperands parts values →
      parts = [slicedOperands.take 9, slicedOperands.drop 10] := by
  obtain ⟨takes, once, -⟩ := form_by_grammar ⟨[.memory, .immediate], []⟩ slicedOperands
  have slice : IsImmediate ((slicedOperands.take 8).drop 2) (.error (.slice "x" 0 9)) :=
    .slice rfl rfl rfl rfl rfl rfl
  have listed : Listed IsImmediate [.memory, .immediate] slicedOperands [slicedOperands.take 9,
    slicedOperands.drop 10] _ :=
    .cons (.memory rfl rfl slice rfl) rfl (.last (.immediate (.symbol rfl)))
  constructor
  · exact (takes _).mpr ⟨_, _, listed, by decide⟩
  · intro parts values other
    exact once _ _ _ _ other listed

end Bisc
