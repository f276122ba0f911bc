import Bisc.Constant
import Bisc.Proofs.Numerals
import Bisc.Proofs.Origin
import Bisc.Proofs.Placeless
import Bisc.Proofs.PseudoForms

/-!
Numbers and names as they are written. A number in hexadecimal or decimal digits is read as its
value, and the name that a listing gives to an opcode, a register or a symbol is read as what it
names.
-/
namespace Bisc

/-! ## Digits -/

section Digits

variable {base : Nat} (large : 1 < base) {form : Char → Char}
include large

/-- Digits are what the characters for the numbers below the base are. -/
theorem toDigits_all {isDigit : Char → Bool} (digit : ∀ d < base, isDigit (form d.digitChar)) (n : Nat) :
    ∀ c ∈ (Nat.toDigits base n).map form, isDigit c := by
  induction n using Nat.strong_induction_on with
  | _ n ih =>
  rw [Nat.toDigits_eq_if large]
  by_cases small : n < base
  · rw [if_pos small]
    intro c member
    cases List.mem_singleton.mp member
    exact digit n small
  · rw [if_neg small, List.map_append]
    refine List.forall_mem_append.mpr ?_
    constructor
    · exact ih (n / base) (Nat.div_lt_self (by omega) large)
    · intro c member
      cases List.mem_singleton.mp member
      exact digit (n % base) (Nat.mod_lt _ (by omega))

/-- Digits are read as the number that they were made of. -/
theorem magnitude_toDigits (value : ∀ d < base, Text.digitValue (form d.digitChar) = d) (n : Nat) :
    ((Nat.toDigits base n).map form).foldl (fun m c => m * base + Text.digitValue c) 0 = n := by
  induction n using Nat.strong_induction_on with
  | _ n ih =>
  rw [Nat.toDigits_eq_if large]
  by_cases small : n < base
  · rw [if_pos small]
    simp [value n small]
  · have high := ih (n / base) (Nat.div_lt_self (by omega) large)
    have low := value (n % base) (Nat.mod_lt _ (by omega))
    rw [if_neg small, List.map_append, List.foldl_append, high]
    simp only [List.map_cons, List.map_nil, List.foldl_cons, List.foldl_nil, low]
    exact Nat.div_add_mod' n base

end Digits

/-! ## Numbers -/

theorem Text.Numeral.word?_of_magnitude {n : Text.Numeral} {v : UInt32} (unsigned : n.negative = false)
    (magnitude : n.magnitude = v.toNat) : n.word? = some v := by
  have small := v.toNat_lt
  have value : n.value = v.toNat := by
    rw [Text.Numeral.value, unsigned, magnitude]
    rfl
  have inside : -0x80000000 ≤ (v.toNat : Int) ∧ (v.toNat : Int) < 0x100000000 := by omega
  have whole : ((v.toNat : Int) % 0x100000000).toNat = v.toNat := by omega
  rw [Text.Numeral.word?, value, if_pos inside, whole, UInt32.ofNat_toNat]

/-- A text that is one numeral is one lexeme: the word that it stands for, or invalid if it stands for none. -/
theorem Lexeme.scan_numeral (isa : InstructionSet) {c : Char} {cs : List Char}
    (first : c = '-' ∨ c.isDigit) {n : Text.Numeral}
    (scanned : Text.Numeral.scan? (c :: cs) = some n) (whole : n.text = c :: cs) :
    Text.isBlank c = false ∧ scan isa c cs = ⟨if n.word?.isSome then .immediate else .invalid,
      cs.length, n.word?⟩ := by
  have range : c.toNat = 45 ∨ 48 ≤ c.toNat ∧ c.toNat ≤ 57 := by
    rcases first with rfl | digit
    · exact .inl rfl
    · simp only [Char.isDigit, Bool.and_eq_true, decide_eq_true_eq, ge_iff_le, UInt32.le_iff_toNat_le] at digit
      exact .inr digit
  have inked : Text.isBlank c = false := by
    simp only [Text.isBlank, Bool.or_eq_false_iff, Bool.and_eq_false_iff,
      decide_eq_false_iff_not, beq_eq_false_iff_ne]
    omega
  have lexeme : scan isa c cs = numberOrWord isa c cs := by
    rw [scan.eq_12] <;> (rintro rfl; revert range; decide)
  have word : Text.number? n.text = n.word? := (Text.Numeral.wellFormed_of_scan? scanned).number?
  refine ⟨inked, ?_⟩
  rw [lexeme, numberOrWord, scanned]
  dsimp only
  rw [number, word, whole, List.drop_length]
  cases n.word? <;> rfl

/-- A text that is one numeral with the value of a word is the literal of that word. -/
theorem Token.literal_spelled {isa : InstructionSet} {c : Char} {cs : List Char}
    (digit : c.isDigit) {n : Text.Numeral}
    (scanned : Text.Numeral.scan? (c :: cs) = some n) (whole : n.text = c :: cs) {v : UInt32}
    (word : n.word? = some v) :
    (Token.literal (String.ofList (c :: cs)) v).spelled isa := by
  obtain ⟨inked, lexeme⟩ := Lexeme.scan_numeral isa (.inr digit) scanned whole
  refine Token.spelled_iff.mpr ⟨c, cs, String.toList_ofList, inked, ?_⟩
  rw [lexeme, word]
  rfl

/-- A number as a listing writes it. -/
theorem Token.hexadecimal_spelled (isa : InstructionSet) (v : UInt32) :
    (Token.literal (Constant.number v).text v).spelled isa := by
  let digits := (Nat.toDigits 16 v.toNat).map Char.toUpper
  have all : ∀ c ∈ digits, Text.isHexDigit c := toDigits_all (by decide) (by decide) v.toNat
  have filled : digits ≠ [] := by simp [digits, Nat.toDigits_ne_nil]
  have taken : digits.takeWhile Text.isHexDigit = digits := List.takeWhile_eq_self_iff.mpr all
  have scanned : Text.Numeral.scan? ('0' :: 'x' :: digits) = some ⟨false, ['0', 'x'], 16, digits⟩ := by
    simp [Text.Numeral.scan?, Text.Numeral.unsigned?, Text.Numeral.marked?, taken, filled]
  have magnitude := magnitude_toDigits (by decide : 1 < 16)
    (by decide : ∀ d < 16, Text.digitValue d.digitChar.toUpper = d) v.toNat
  have text : (Constant.number v).text = String.ofList ('0' :: 'x' :: digits) := by
    change "0x" ++ String.ofList digits = _
    rw [← String.toList_inj]
    simp
  rw [text]
  exact Token.literal_spelled rfl scanned rfl (Text.Numeral.word?_of_magnitude rfl magnitude)

/-- A count as a listing writes it. -/
theorem Token.decimal_spelled (isa : InstructionSet) (v : UInt32) :
    (Token.literal (toString v.toNat) v).spelled isa := by
  have all : ∀ c ∈ Nat.toDigits 10 v.toNat, c.isDigit := fun c => Nat.isDigit_of_mem_toDigits (by decide) (by decide)
  have magnitude := magnitude_toDigits (by decide : 1 < 10)
    (by decide : ∀ d < 10, Text.digitValue (id d.digitChar) = d) v.toNat
  rw [List.map_id] at magnitude
  rw [Nat.toString_eq_ofList_toDigits]
  cases whole : Nat.toDigits 10 v.toNat with
  | nil => exact absurd whole Nat.toDigits_ne_nil
  | cons c cs =>
    rw [whole] at all magnitude
    have digit : c.isDigit := all c List.mem_cons_self
    have taken : (c :: cs).takeWhile Char.isDigit = c :: cs := List.takeWhile_eq_self_iff.mpr all
    have unsigned : c ≠ '-' := by
      rintro rfl
      cases digit
    have found : Text.Numeral.decimal? false (c :: cs) = some ⟨false, [], 10, c :: cs⟩ := by
      rw [Text.Numeral.decimal?, taken, if_pos (List.cons_ne_nil c cs)]
    obtain ⟨-, -, -, again⟩ := Text.Numeral.decimal?_again found
    have scanned : Text.Numeral.scan? (c :: cs) = some ⟨false, [], 10, c :: cs⟩ := by
      rw [Text.Numeral.scan?.eq_2 _ (by simp [unsigned])]
      simpa using again [] stops_nil
    exact Token.literal_spelled digit scanned rfl (Text.Numeral.word?_of_magnitude rfl magnitude)

/-! ## Names -/

/-- A symbol. -/
def Token.symbol (name : String) : Token := .fixed .identifier name none

theorem Token.symbol_spelled {name : String} (named : Named (Token.WellSpelled bisc) name) :
    (Token.symbol name).spelled bisc := by
  obtain ⟨t, spelled, kind, rfl⟩ := named
  have own : t.spelled bisc := spelled (by rw [kind]; rfl)
  have classified := (Token.classified own (by rw [Token.isWord, kind]; rfl)).2
  have value : t.value = none := by
    rw [kind] at classified
    rcases Lexeme.classify_cases bisc t.raw.toList with pseudo | ⟨op, real⟩ | ⟨index, -, register⟩ | symbol
    all_goals simp_all
  obtain ⟨c, cs, raw, inked, scanned⟩ := Token.spelled_iff.mp own
  exact Token.spelled_iff.mpr ⟨c, cs, raw, inked, by rw [scanned, kind, value]; rfl⟩

/-- The register with an index, by the name that listings give it. -/
def Token.numbered (index : UInt8) : Token := .register (bisc.registerName index) index

/-- A register of a source has an index in the table. -/
theorem index_of_indexed {index : UInt8} (indexed : Indexed (Token.WellSpelled bisc) index) :
    ∃ name, (name, index) ∈ registerTable := by
  obtain ⟨t, spelled, kind, rfl⟩ := indexed
  have own : t.spelled bisc := spelled (by rw [kind]; rfl)
  have classified := (Token.classified own (by rw [Token.isWord, kind]; rfl)).2
  rw [kind] at classified
  rcases Lexeme.classify_cases bisc t.raw.toList with pseudo | ⟨op, real⟩ | ⟨index, found, register⟩ | symbol
  · simp [pseudo] at classified
  · simp [real] at classified
  · have value : some index.toUInt32 = t.value := by simpa [register] using classified
    have number : t.number.toUInt8 = index := by
      rw [Token.number, ← value]
      simp
    rw [number]
    exact mem_of_lookup found
  · simp [symbol] at classified

theorem Token.numbered_spelled {index : UInt8} (indexed : Indexed (Token.WellSpelled bisc) index) :
    (Token.numbered index).spelled bisc ∧ (Token.numbered index).number.toUInt8 = index := by
  have table : ∀ entry ∈ registerTable,
      (Token.numbered entry.2).spelled bisc ∧ (Token.numbered entry.2).number.toUInt8 = entry.2 := by decide +kernel
  obtain ⟨name, listed⟩ := index_of_indexed indexed
  exact table (name, index) listed

/-- The mnemonic of an opcode, which may be that of pseudo-instructions too. -/
def Opcode.token (op : Opcode) : Token :=
  if bisc.forms op.mnemonic = [] then .real op.mnemonic op.code else .pseudo op.mnemonic

/-- The mnemonic that listings give an opcode is read as that opcode. -/
structure Opcode.Readable (op : Opcode) : Prop where
  printed : bisc.mnemonic op.code = op.token.raw
  known : bisc.opcode? op.token.name = some op
  kind : op.token.kind = .opcode ∨ op.token.kind = .pseudoOp
  spelled : op.token.spelled bisc

theorem Opcode.readable {op : Opcode} (listed : op ∈ opcodeTable) : op.Readable := by
  have table : ∀ op ∈ opcodeTable, bisc.mnemonic op.code = op.token.raw ∧ bisc.opcode? op.token.name = some op ∧
      (op.token.kind = .opcode ∨ op.token.kind = .pseudoOp) ∧ op.token.spelled bisc := by decide +kernel
  obtain ⟨printed, known, kind, spelled⟩ := table op listed
  exact ⟨printed, known, kind, spelled⟩

end Bisc
