import Bisc.Proofs.Coverage
import Bisc.Proofs.Numerals
import Bisc.Proofs.PrintedText

/-!
Letter case and tokens. Only letters have a lower case of their own, and nothing but the body of a
character literal is read differently for it: a text in lower case begins with a lexeme of the same
kind, length and value as the text itself. So the tokens of two texts that differ in the case of
letters inside words differ in the case of those words and in nothing else.
-/
namespace Bisc

/-! ## Characters -/

/-- A letter that is not in lower case, by its place in the alphabet. -/
def capital (n : Fin 26) : Char := Char.ofNat (65 + n)

/-- Characters other than capitals are their own lower case. -/
theorem toLower_eq_or (c : Char) : c.toLower = c ∨ ∃ n, c = capital n := by
  by_cases upper : c.val ≥ 'A'.val ∧ c.val ≤ 'Z'.val
  · have low : 65 ≤ c.toNat := upper.1
    have high : c.toNat ≤ 90 := upper.2
    refine .inr ⟨⟨c.toNat - 65, by omega⟩, ?_⟩
    rw [capital, Nat.add_sub_cancel' low, Char.ofNat_toNat]
  · exact .inl (dif_neg upper)

/-- What capitals and their lower cases have alike, all characters and theirs have. -/
theorem toLower_congr {α : Type} {f : Char → α} (alike : ∀ n, f (capital n).toLower = f (capital n)) (c : Char) :
    f c.toLower = f c := by
  rcases toLower_eq_or c with same | ⟨n, rfl⟩
  · rw [same]
  · exact alike n

@[simp] theorem toLower_toLower (c : Char) : c.toLower.toLower = c.toLower := toLower_congr (by decide) c
theorem isWordChar_toLower (c : Char) : isWordChar c.toLower = isWordChar c := toLower_congr (by decide) c
theorem isWordStart_toLower (c : Char) : isWordStart c.toLower = isWordStart c := toLower_congr (by decide) c
theorem isBlank_toLower (c : Char) : Text.isBlank c.toLower = Text.isBlank c := toLower_congr (by decide) c
theorem isDelimiter_toLower (c : Char) : isDelimiter c.toLower = isDelimiter c := toLower_congr (by decide) c
theorem utf8Size_toLower (c : Char) : c.toLower.utf8Size = c.utf8Size := toLower_congr (by decide) c

/-- A character that is no letter is its own lower case. -/
theorem toLower_of_isAlpha {c : Char} (other : c.isAlpha = false) : c.toLower = c := by
  rcases toLower_eq_or c with same | ⟨n, rfl⟩
  · exact same
  · have letters : ∀ n, (capital n).isAlpha := by decide
    simp [letters n] at other

/-- A character that is no letter is the lower case of no other. -/
theorem eq_of_toLower {c c' : Char} (same : c'.toLower = c.toLower) (other : c.isAlpha = false) : c' = c := by
  have alpha (d : Char) : d.toLower.isAlpha = d.isAlpha := toLower_congr (by decide) d
  have other' : c'.isAlpha = false := by rw [← alpha, same, alpha, other]
  rw [← toLower_of_isAlpha other', same, toLower_of_isAlpha other]

theorem toLower_eq_iff {c d : Char} (other : d.isAlpha = false) : c.toLower = d ↔ c = d := by
  have fixed := toLower_of_isAlpha other
  constructor
  · intro same
    exact eq_of_toLower (same.trans fixed.symm) other
  · rintro rfl
    exact fixed

theorem utf8Length_toLower (cs : List Char) : Text.utf8Length (cs.map Char.toLower) = Text.utf8Length cs := by
  induction cs with
  | nil => rfl
  | cons c cs ih => rw [List.map_cons, Text.utf8Length_cons, Text.utf8Length_cons, utf8Size_toLower, ih]

theorem takeWhile_toLower {p : Char → Bool} (alike : ∀ c, p c.toLower = p c) (cs : List Char) :
    (cs.map Char.toLower).takeWhile p = (cs.takeWhile p).map Char.toLower := by
  rw [List.takeWhile_map]
  exact congrArg (fun q => (cs.takeWhile q).map Char.toLower) (funext alike)

/-! ## Numerals -/

namespace Text.Numeral

/-- The numeral with its letters in lower case. -/
def lowered (n : Numeral) : Numeral := { n with mark := n.mark.map Char.toLower, digits := n.digits.map Char.toLower }

variable {negative : Bool} {cs : List Char} {n : Numeral}

@[simp] theorem length_text_lowered (n : Numeral) : n.lowered.text.length = n.text.length := by
  cases sign : n.negative <;> simp [lowered, text, sign]

theorem marked?_toLower {letters : List Char} (listed : ∀ c : Char, c.toLower ∈ letters ↔ c ∈ letters) (base : Nat)
    {isDigit : Char → Bool} (alike : ∀ c, isDigit c.toLower = isDigit c) (cs : List Char) :
    marked? negative letters base isDigit (cs.map Char.toLower) =
    (marked? negative letters base isDigit cs).map lowered := by
  match cs with
  | [] => rfl
  | [_] => rfl
  | zero :: letter :: cs =>
    have begins : zero.toLower = '0' ↔ zero = '0' := toLower_eq_iff (by decide)
    simp only [List.map_cons, marked?, takeWhile_toLower alike, begins, listed, ne_eq, List.map_eq_nil_iff]
    split
    · rename_i found
      obtain ⟨rfl, -⟩ := found
      rfl
    · rfl

theorem decimal?_toLower (cs : List Char) :
    decimal? negative (cs.map Char.toLower) = (decimal? negative cs).map lowered := by
  have alike (c : Char) : c.toLower.isDigit = c.isDigit := toLower_congr (by decide) c
  simp only [decimal?, takeWhile_toLower alike, ne_eq, List.map_eq_nil_iff]
  split <;> rfl

theorem unsigned?_toLower (cs : List Char) :
    unsigned? negative (cs.map Char.toLower) = (unsigned? negative cs).map lowered := by
  have hex (c : Char) : c.toLower ∈ ['x', 'X'] ↔ c ∈ ['x', 'X'] := by
    have same := toLower_congr (f := fun c => decide (c ∈ ['x', 'X'])) (by decide) c
    simpa only [decide_eq_decide] using same
  have binary (c : Char) : c.toLower ∈ ['b', 'B'] ↔ c ∈ ['b', 'B'] := by
    have same := toLower_congr (f := fun c => decide (c ∈ ['b', 'B'])) (by decide) c
    simpa only [decide_eq_decide] using same
  rw [unsigned?, unsigned?, marked?_toLower hex 16 (toLower_congr (by decide)),
    marked?_toLower binary 2 (toLower_congr (by decide)),
    decimal?_toLower]
  cases marked? negative ['x', 'X'] 16 isHexDigit cs with
  | some n => rfl
  | none => cases marked? negative ['b', 'B'] 2 isBinaryDigit cs <;> rfl

/-- A numeral is read in lower case as it is in its own. -/
theorem scan?_toLower (cs : List Char) : scan? (cs.map Char.toLower) = (scan? cs).map lowered := by
  cases cs with
  | nil => exact unsigned?_toLower []
  | cons c cs =>
    by_cases sign : c = '-'
    · subst sign
      exact unsigned?_toLower cs
    · have sign' : c.toLower ≠ '-' := mt (toLower_eq_iff (by decide)).mp sign
      have unsigned {d : Char} (sign : d ≠ '-') (ds : List Char) : scan? (d :: ds) = unsigned? false (d :: ds) := by
        rw [scan?]
        simpa using sign
      rw [List.map_cons, unsigned sign', unsigned sign]
      exact unsigned?_toLower (c :: cs)

/-- Digits have the same value in either case, and so have numerals. -/
theorem word?_lowered (hex : ∀ c ∈ n.digits, isHexDigit c) : n.lowered.word? = n.word? := by
  have value (c : Char) (digit : isHexDigit c) : digitValue c.toLower = digitValue c := by
    have same := toLower_congr (f := fun c => if isHexDigit c then digitValue c else 0) (by decide) c
    have digit' : isHexDigit c.toLower := by
      rwa [show isHexDigit c.toLower = isHexDigit c from toLower_congr (by decide) c]
    simpa only [digit, digit', if_true] using same
  have fold (digits : List Char) (hex : ∀ c ∈ digits, isHexDigit c) (m : Nat) :
      (digits.map Char.toLower).foldl (fun m c => m * n.base + digitValue c) m =
        digits.foldl (fun m c => m * n.base + digitValue c) m := by
    induction digits generalizing m with
    | nil => rfl
    | cons c digits ih =>
      obtain ⟨here, later⟩ := List.forall_mem_cons.mp hex
      rw [List.map_cons, List.foldl_cons, List.foldl_cons, value c here, ih later]
  have magnitude : n.lowered.magnitude = n.magnitude := fold n.digits hex 0
  rw [word?, word?, Numeral.value, Numeral.value, magnitude]
  rfl

theorem number?_lowered (found : scan? cs = some n) : Text.number? n.lowered.text = Text.number? n.text := by
  have shape := wellFormed_of_scan? found
  have shape' : n.lowered.WellFormed :=
    @wellFormed_of_scan? _ (cs.map Char.toLower) (by rw [scan?_toLower, found, Option.map_some])
  rw [shape'.number?, shape.number?, word?_lowered fun c member => (shape.digits c member).1]

end Text.Numeral

/-! ## Lexemes -/

theorem closingQuote?_toLower (cs : List Char) : closingQuote? (cs.map Char.toLower) = closingQuote? cs := by
  induction cs using closingQuote?.induct with
  | case1 => rfl
  | case2 cs => rfl
  | case3 => rfl
  | case4 cs => rfl
  | case5 c cs line ih =>
    have line' : c.toLower ≠ '\n' := mt (toLower_eq_iff (by decide)).mp line
    have whole : ('\\' :: c :: cs).map Char.toLower = '\\' :: c.toLower :: cs.map Char.toLower := rfl
    rw [whole, closingQuote?, closingQuote?, if_neg line, if_neg line', ih]
  | case6 c cs quote single escape ih =>
    have plain : c ≠ '\\' := by
      rintro rfl
      cases cs with
      | nil => exact single rfl rfl
      | cons d ds => exact escape d ds rfl rfl
    have plain' : c.toLower ≠ '\\' := mt (toLower_eq_iff (by decide)).mp plain
    have quote' : c.toLower ≠ '"' := mt (toLower_eq_iff (by decide)).mp quote
    rw [List.map_cons, closingQuote?.eq_5 _ _ quote single escape,
      closingQuote?.eq_5 _ _ quote' (fun same => absurd same plain') (fun _ _ same => absurd same plain'), ih]

namespace Lexeme

variable {isa : InstructionSet}

theorem classify_toLower (word : List Char) : classify isa (word.map Char.toLower) = classify isa word := by
  have same : lowercase (String.ofList (word.map Char.toLower)) = lowercase (String.ofList word) := by
    simp [lowercase, Function.comp_def]
  rw [classify, classify, same]

theorem invalidRun_toLower (cs : List Char) : invalidRun (cs.map Char.toLower) = invalidRun cs := by
  have alike (c : Char) : (!(Text.isBlank c.toLower || isDelimiter c.toLower)) =
      !(Text.isBlank c || isDelimiter c) := by
    rw [isBlank_toLower, isDelimiter_toLower]
  rw [invalidRun, invalidRun, @takeWhile_toLower (fun c => !(Text.isBlank c || isDelimiter c)) alike, List.length_map]

theorem numberOrWord_toLower (c : Char) (cs : List Char) :
    numberOrWord isa c.toLower (cs.map Char.toLower) = numberOrWord isa c cs := by
  have scanned := Text.Numeral.scan?_toLower (c :: cs)
  rw [List.map_cons] at scanned
  rw [numberOrWord, numberOrWord, scanned]
  cases found : Text.Numeral.scan? (c :: cs) with
  | none =>
    have word := @classify_toLower isa (c :: cs.takeWhile isWordChar)
    rw [List.map_cons] at word
    simp only [Option.map_none, isWordStart_toLower, takeWhile_toLower isWordChar_toLower, word,
      List.length_map, invalidRun_toLower]
  | some n =>
    have behind : ((c.toLower :: cs.map Char.toLower).drop n.text.length).head?.map isWordChar =
        ((c :: cs).drop n.text.length).head?.map isWordChar := by
      rw [← List.map_cons, ← List.map_drop, List.head?_map, Option.map_map]
      exact congrArg (fun f => (((c :: cs).drop n.text.length).head?).map f) (funext isWordChar_toLower)
    have word := Text.Numeral.number?_lowered found
    simp only [Option.map_some, number, Text.Numeral.length_text_lowered, behind, word, invalidRun_toLower]

theorem stringLiteral_toLower (cs : List Char) : stringLiteral (cs.map Char.toLower) = stringLiteral cs := by
  rw [stringLiteral, stringLiteral, closingQuote?_toLower, List.length_map]

/-- In lower case a text begins with the same lexeme, unless that is a character literal. -/
theorem scan_toLower {c : Char} (plain : c ≠ '\x27') (cs : List Char) :
    scan isa c.toLower (cs.map Char.toLower) = scan isa c cs := by
  rcases toLower_eq_or c with same | ⟨n, rfl⟩
  · have word := @numberOrWord_toLower isa c cs
    rw [same] at word ⊢
    unfold scan
    split <;> simp_all [stringLiteral_toLower]
  · have capitals (ds : List Char) : scan isa (capital n) ds = numberOrWord isa (capital n) ds := by
      fin_cases n <;> rfl
    have lowers (ds : List Char) : scan isa (capital n).toLower ds = numberOrWord isa (capital n).toLower ds := by
      fin_cases n <;> rfl
    rw [capitals, lowers, numberOrWord_toLower]

section Literal

variable {cs cs' : List Char} (same : cs'.map Char.toLower = cs.map Char.toLower)
include same

theorem characterBody?_recased (found : (characterBody? cs).isSome) : (characterBody? cs').isSome := by
  have closed {d : Char} (same : d.toLower = '\x27'.toLower) : d = '\x27' := eq_of_toLower same (by decide)
  unfold characterBody? at found
  split at found
  · split at found
    · cases found
    · rename_i c rest line
      obtain ⟨e, _, rfl, escape, rest⟩ := List.map_eq_cons_iff.mp same
      obtain ⟨c', _, rfl, inner, rest⟩ := List.map_eq_cons_iff.mp rest
      obtain ⟨q, rest', rfl, quote, -⟩ := List.map_eq_cons_iff.mp rest
      have line' : c' ≠ '\n' := by
        rintro rfl
        exact line (eq_of_toLower inner.symm (by decide))
      cases eq_of_toLower escape (by decide)
      cases closed quote
      simp [characterBody?, line']
  · split at found
    · cases found
    · rename_i c rest _ plain
      obtain ⟨c', _, rfl, inner, rest⟩ := List.map_eq_cons_iff.mp same
      obtain ⟨q, rest', rfl, quote, -⟩ := List.map_eq_cons_iff.mp rest
      cases closed quote
      have plain' : ¬(c' = '\x27' ∨ c' = '\\') := by
        rintro (rfl | rfl)
        · exact plain (.inl (eq_of_toLower inner.symm (by decide)))
        · exact plain (.inr (eq_of_toLower inner.symm (by decide)))
      rw [characterBody?.eq_2 _ _ fun d same _ => absurd (.inr same) plain', if_neg plain']
      rfl
  · cases found

/-- A character literal begins a text whatever the case of what follows it. -/
theorem characterLiteral_recased
    (spelled : cs'.take (characterLiteral cs).more = cs.take (characterLiteral cs).more) :
    characterLiteral cs' = characterLiteral cs := by
  cases found : characterBody? cs with
  | none =>
    have none : characterBody? cs' = none := by
      rw [← Option.not_isSome_iff_eq_none]
      intro some
      have found' := characterBody?_recased same.symm some
      rw [found] at found'
      cases found'
    have run := invalidRun_toLower cs'
    rw [same, invalidRun_toLower] at run
    rw [characterLiteral, characterLiteral, found, none, run]
  | some body =>
    obtain ⟨⟨tail, whole⟩, again⟩ := characterBody?_again found
    have length : (characterLiteral cs).more = (body ++ ['\x27']).length := by
      rw [characterLiteral, found]
      dsimp only
      split <;> simp
    rw [length, ← whole, List.take_left] at spelled
    have whole' : cs' = body ++ '\x27' :: cs'.drop (body ++ ['\x27']).length := by
      have cut := List.take_append_drop (body ++ ['\x27']).length cs'
      rw [spelled, List.append_assoc, List.singleton_append] at cut
      exact cut.symm
    have found' : characterBody? cs' = some body := by
      rw [whole']
      exact again _
    rw [characterLiteral, characterLiteral, found, found']

end Literal

/-- Two texts that differ in the case of letters only begin with the same lexeme, where the case of
    the characters of literals is the same. -/
theorem scan_recased {c c' : Char} {cs cs' : List Char}
    (same : (c' :: cs').map Char.toLower = (c :: cs).map Char.toLower)
    (spelled : (scan isa c cs).kind.isWord = false → cs'.take (scan isa c cs).more = cs.take (scan isa c cs).more) :
    scan isa c' cs' = scan isa c cs := by
  rw [List.map_cons, List.map_cons, List.cons.injEq] at same
  obtain ⟨first, rest⟩ := same
  by_cases literal : c = '\x27'
  · subst literal
    cases eq_of_toLower first (by decide)
    refine characterLiteral_recased rest (spelled ?_)
    cases word : (scan isa '\x27' cs).kind.isWord with
    | false => rfl
    | true => exact absurd (scan_word word).1 (by decide)
  · have literal' : c' ≠ '\x27' := by
      rintro rfl
      exact literal (eq_of_toLower first.symm (by decide))
    rw [← scan_toLower literal, ← scan_toLower literal', first, rest]

end Lexeme

/-! ## Texts -/

/-- The place behind a character, which is in the next line if that is a line break. Carriage
    returns have no place. -/
def Position.past (p : Position) (c : Char) : Position :=
  if c = '\n' then ⟨p.line + 1, 1⟩ else if c = '\r' then p else ⟨p.line, p.column + c.utf8Size⟩

/-- Two texts that begin at a place and differ in the case of letters only, and of those at free places. -/
inductive CaseVariant (free : Position → Prop) : Position → List Char → List Char → Prop
  | nil {p : Position} : CaseVariant free p [] []
  | cons {p : Position} {c c' : Char} {cs cs' : List Char} (letter : c' = c ∨ free p ∧ c'.toLower = c.toLower)
      (rest : CaseVariant free (p.past c) cs cs') : CaseVariant free p (c :: cs) (c' :: cs')

theorem foldl_past {text : List Char} (oneLine : ∀ c ∈ text, c ≠ '\n' ∧ c ≠ '\r') (line column : Nat) :
    text.foldl Position.past ⟨line, column⟩ = ⟨line, column + Text.utf8Length text⟩ := by
  induction text generalizing column with
  | nil => rfl
  | cons c cs ih =>
    obtain ⟨⟨feed, ret⟩, rest⟩ := List.forall_mem_cons.mp oneLine
    rw [List.foldl_cons, Position.past, if_neg feed, if_neg ret, ih rest, Text.utf8Length_cons, Nat.add_assoc]

namespace CaseVariant

variable {free : Position → Prop} {p : Position} {text text' : List Char}

instance decidable [DecidablePred free] : ∀ (p : Position) (text text' : List Char),
    Decidable (CaseVariant free p text text')
  | _, [], [] => isTrue .nil
  | _, [], _ :: _ => isFalse nofun
  | _, _ :: _, [] => isFalse nofun
  | p, c :: cs, c' :: cs' =>
    match inferInstanceAs (Decidable (c' = c ∨ free p ∧ c'.toLower = c.toLower)), decidable (p.past c) cs cs' with
    | isTrue letter, isTrue rest => isTrue (.cons letter rest)
    | isFalse other, _ => isFalse fun | .cons letter _ => other letter
    | _, isFalse other => isFalse fun | .cons _ rest => other rest

theorem toLower (variant : CaseVariant free p text text') : text'.map Char.toLower = text.map Char.toLower := by
  induction variant with
  | nil => rfl
  | cons letter _ ih =>
    have same := letter.elim (congrArg Char.toLower) And.right
    rw [List.map_cons, List.map_cons, same, ih]

theorem length_eq (variant : CaseVariant free p text text') : text'.length = text.length := by
  simpa using congrArg List.length variant.toLower

theorem utf8Length_eq (variant : CaseVariant free p text text') : Text.utf8Length text' = Text.utf8Length text := by
  rw [← utf8Length_toLower, variant.toLower, utf8Length_toLower]

theorem append_inv {front rest : List Char} (variant : CaseVariant free p (front ++ rest) text') : ∃ front' rest',
    text' = front' ++ rest' ∧ CaseVariant free p front front' ∧
    CaseVariant free (front.foldl Position.past p) rest rest' := by
  induction front generalizing p text' with
  | nil => exact ⟨[], text', rfl, .nil, variant⟩
  | cons c front ih =>
    cases variant with
    | @cons _ _ c' _ _ letter variant =>
      obtain ⟨front', rest', rfl, first, second⟩ := ih variant
      exact ⟨c' :: front', rest', rfl, .cons letter first, second⟩

/-- What is no letter is the same. -/
theorem cons_inv {c : Char} {cs : List Char} (variant : CaseVariant free p (c :: cs) text')
    (other : c.isAlpha = false) :
    ∃ cs', text' = c :: cs' ∧ CaseVariant free (p.past c) cs cs' := by
  cases variant with
  | cons letter rest =>
    cases letter.elim id fun recased => eq_of_toLower recased.2 other
    exact ⟨_, rfl, rest⟩

/-- What is no letter is in both texts or in none. -/
theorem mem_of_mem (variant : CaseVariant free p text text') {c : Char} (other : c.isAlpha = false)
    (member : c ∈ text') : c ∈ text := by
  have lower : c.toLower ∈ text'.map Char.toLower := List.mem_map_of_mem member
  rw [variant.toLower] at lower
  obtain ⟨d, own, same⟩ := List.mem_map.mp lower
  rwa [← eq_of_toLower same other]

/-- Without a free place the texts are the same. -/
theorem eq_or_free {line column : Nat} (variant : CaseVariant free ⟨line, column⟩ text text')
    (oneLine : ∀ c ∈ text, c ≠ '\n' ∧ c ≠ '\r') :
    text' = text ∨ ∃ k, column ≤ k ∧ k < column + Text.utf8Length text ∧ free ⟨line, k⟩ := by
  induction text generalizing column text' with
  | nil =>
    cases variant
    exact .inl rfl
  | cons c cs ih =>
    cases variant with
    | @cons _ _ c' _ cs' letter variant =>
      obtain ⟨⟨feed, ret⟩, rest⟩ := List.forall_mem_cons.mp oneLine
      rw [Position.past, if_neg feed, if_neg ret] at variant
      have size := c.utf8Size_pos
      rw [Text.utf8Length_cons]
      rcases letter with rfl | ⟨here, -⟩
      · rcases ih variant rest with rfl | ⟨k, low, high, there⟩
        · exact .inl rfl
        · dsimp only at low high
          exact .inr ⟨k, by omega, by omega, there⟩
      · exact .inr ⟨column, le_rfl, by omega, here⟩

/-- Carriage returns do not count. -/
theorem filter (variant : CaseVariant free p text text') :
    CaseVariant free p (text.filter (· ≠ '\r')) (text'.filter (· ≠ '\r')) := by
  induction variant with
  | nil => exact .nil
  | @cons p c c' cs cs' letter _ ih =>
    by_cases ret : c = '\r'
    · subst ret
      cases letter.elim id fun recased => eq_of_toLower recased.2 (by decide)
      exact ih
    · have ret' : c' ≠ '\r' := by
        rintro rfl
        exact ret (letter.elim Eq.symm fun recased => eq_of_toLower recased.2.symm (by decide))
      rw [List.filter_cons_of_pos (by simpa using ret), List.filter_cons_of_pos (by simpa using ret')]
      exact .cons letter ih

end CaseVariant

/-! ## Tokens -/

namespace Token

instance (t : Token) (column : Nat) : Decidable (t.Covers column) := inferInstanceAs (Decidable (_ ∧ _))

/-- The token has the byte at a place. -/
def At (t : Token) (p : Position) : Prop := t.pos.line = p.line ∧ t.Covers p.column

instance (t : Token) (p : Position) : Decidable (t.At p) := inferInstanceAs (Decidable (_ ∧ _))

/-- No byte is in both tokens. -/
def Apart (t u : Token) : Prop := ∀ p, t.At p → ¬u.At p

instance : Std.Symm Apart := ⟨fun _ _ apart p second first => apart p first second⟩

/-- The tokens differ in the case of letters only, and if it is not free not at all. -/
structure Recased (free : Prop) (t t' : Token) : Prop where
  kind : t'.kind = t.kind
  value : t'.value = t.value
  pos : t'.pos = t.pos
  depth : t'.depth = t.depth
  name : t'.name = t.name
  raw : ¬free → t'.raw = t.raw

theorem Recased.refl (free : Prop) (t : Token) : t.Recased free t := ⟨rfl, rfl, rfl, rfl, rfl, fun _ => rfl⟩

theorem Recased.mono {free free' : Prop} {t t' : Token} (recased : t.Recased free t')
    (weaker : free → free') : t.Recased free' t' :=
  { recased with raw := fun kept => recased.raw (mt weaker kept) }

end Token

section Tokens

variable {isa : InstructionSet} {free : Position → Prop} {text text' : List Char}

theorem tokensFrom_append {line column : Nat} {c : Char} {mid rest : List Char} (inked : Text.isBlank c = false)
    (length : (Lexeme.scan isa c (mid ++ rest)).more = mid.length) :
    tokensFrom isa line column 0 (c :: (mid ++ rest)) =
      ⟨(Lexeme.scan isa c (mid ++ rest)).kind, String.ofList (c :: mid),
        (Lexeme.scan isa c (mid ++ rest)).value, ⟨line, column⟩, 0⟩ ::
      tokensFrom isa line (column + Text.utf8Length (c :: mid)) 0 rest := by
  rw [tokensFrom_lexeme inked, length, List.take_left, List.drop_left]

/-- Words may be respelled in the case of their letters, and nothing else changes the tokens of a line. -/
theorem recased_tokensFrom {line column : Nat} (variant : CaseVariant free ⟨line, column⟩ text text')
    (oneLine : ∀ c ∈ text, c ≠ '\n' ∧ c ≠ '\r')
    (words : ∀ t ∈ tokensFrom isa line column 0 text, ∀ p, t.At p → free p → t.isWord) :
    List.Forall₂ (fun t => t.Recased (∃ p, t.At p ∧ free p)) (tokensFrom isa line column 0 text)
      (tokensFrom isa line column 0 text') := by
  induction size : text.length using Nat.strong_induction_on generalizing column text text' with
  | _ n ih =>
    cases text with
    | nil =>
      cases variant
      exact .nil
    | cons c cs =>
      cases blank : Text.isBlank c with
      | true =>
        obtain ⟨⟨feed, ret⟩, oneLine⟩ := List.forall_mem_cons.mp oneLine
        cases variant with
        | @cons _ _ c' _ cs' letter rest =>
          have same := letter.elim (congrArg Char.toLower) And.right
          have blank' : Text.isBlank c' := by rw [← isBlank_toLower, same, isBlank_toLower, blank]
          have bytes : c'.utf8Size = c.utf8Size := by rw [← utf8Size_toLower, same, utf8Size_toLower]
          rw [Position.past, if_neg feed, if_neg ret] at rest
          rw [tokensFrom, if_pos blank] at words ⊢
          rw [tokensFrom, if_pos blank', bytes]
          rw [List.length_cons] at size
          exact ih _ (by omega) rest oneLine words rfl
      | false =>
        -- The first token takes `c` and `mid`, whatever their case.
        obtain ⟨mid, rest, rfl, length⟩ : ∃ mid rest, cs = mid ++ rest ∧ (Lexeme.scan isa c cs).more = mid.length :=
          ⟨_, _, (List.take_append_drop _ _).symm, (List.length_take_of_le (Lexeme.scan_more_le isa c cs)).symm⟩
        have same := variant.toLower
        obtain ⟨front', rest', rfl, first, second⟩ := @CaseVariant.append_inv free _ text' (c :: mid) rest variant
        rw [← List.cons_append, List.forall_mem_append] at oneLine
        have changed : front' = c :: mid ∨ ∃ p, Token.At ⟨(Lexeme.scan isa c (mid ++ rest)).kind,
          String.ofList (c :: mid),
            (Lexeme.scan isa c (mid ++ rest)).value, ⟨line, column⟩, 0⟩ p ∧ free p := by
          refine (first.eq_or_free oneLine.1).imp_right ?_
          rintro ⟨k, low, high, freed⟩
          exact ⟨⟨line, k⟩, ⟨rfl, low, by rwa [Token.behind, String.toList_ofList]⟩, freed⟩
        have spelled := first.toLower
        have bytes := first.utf8Length_eq
        rw [foldl_past oneLine.1] at second
        cases first with
        | @cons _ _ c' _ mid' letter inner =>
          have blank' : Text.isBlank c' = false := by
            rw [← isBlank_toLower, (List.cons.inj spelled).1, isBlank_toLower, blank]
          rw [tokensFrom_append blank length] at words ⊢
          obtain ⟨here, later⟩ := List.forall_mem_cons.mp words
          -- Only words have free bytes, so the body of a character literal is the same.
          have scanned : Lexeme.scan isa c' (mid' ++ rest') = Lexeme.scan isa c (mid ++ rest) := by
            refine Lexeme.scan_recased same fun other => ?_
            rw [length, List.take_left, List.take_left' inner.length_eq]
            rcases changed with unchanged | ⟨p, inside, freed⟩
            · exact (List.cons.inj unchanged).2
            · have word := here p inside freed
              rw [Token.isWord, other] at word
              cases word
          rw [List.cons_append, tokensFrom_append blank' (by rw [scanned, length, inner.length_eq]), scanned, bytes]
          refine .cons ⟨rfl, rfl, rfl, rfl, ?_, fun kept => ?_⟩ (ih _ ?_ second oneLine.2 later rfl)
          · simp only [Token.name, lowercase, String.toList_ofList, spelled]
          · exact congrArg String.ofList (changed.resolve_right kept)
          · simp only [List.length_cons, List.length_append] at size
            omega

/-- The tokens of a source may be respelled with its words. -/
theorem recased_tokenizeLines {line : Nat} (variant : CaseVariant free ⟨line, 1⟩ text text') (clean : '\r' ∉ text)
    (words : ∀ t ∈ tokenizeLines isa line (textLines text), ∀ p, t.At p → free p → t.isWord) :
    List.Forall₂ (fun t => t.Recased (∃ p, t.At p ∧ free p)) (tokenizeLines isa line (textLines text))
      (tokenizeLines isa line (textLines text')) := by
  induction size : text.length using Nat.strong_induction_on generalizing line text text' with
  | _ n ih =>
    by_cases more : '\n' ∈ text
    · obtain ⟨first, rest, rfl, inside⟩ := List.eq_append_cons_of_mem more
      obtain ⟨first', behind, rfl, here, there⟩ := variant.append_inv
      obtain ⟨rest', rfl, later⟩ := there.cons_inv (by decide)
      rw [List.mem_append, List.mem_cons, not_or, not_or] at clean
      have oneLine : ∀ c ∈ first, c ≠ '\n' ∧ c ≠ '\r' := fun c member =>
        ⟨ne_of_mem_of_not_mem member inside, ne_of_mem_of_not_mem member clean.1⟩
      rw [foldl_past oneLine] at later
      rw [textLines_break fun c member => (oneLine c member).1, tokenizeLines_textLines] at words ⊢
      obtain ⟨front, back⟩ := List.forall_mem_append.mp words
      rw [textLines_break fun c member => ne_of_mem_of_not_mem member (mt (here.mem_of_mem (by decide)) inside),
        tokenizeLines_textLines, here.utf8Length_eq]
      refine List.rel_append (recased_tokensFrom here oneLine front) (.cons (.refl _ _) ?_)
      refine ih _ ?_ later clean.2.2 (List.forall_mem_cons.mp back).2 rfl
      rw [List.length_append, List.length_cons] at size
      omega
    · have oneLine : ∀ c ∈ text, c ≠ '\n' ∧ c ≠ '\r' := fun c member =>
        ⟨ne_of_mem_of_not_mem member more, ne_of_mem_of_not_mem member clean⟩
      rw [textLines_inline fun c member => (oneLine c member).1] at words ⊢
      rw [textLines_inline fun c member => ne_of_mem_of_not_mem member (mt (variant.mem_of_mem (by decide)) more)]
      exact recased_tokensFrom variant oneLine words

/-! ## Words in any case -/

theorem Tiles.behind_le {line column : Nat} {ts : List Token} (tiles : Tiles line column text ts)
    {t : Token} (member : t ∈ ts) :
    t.behind ≤ column + Text.utf8Length text := by
  obtain ⟨before, after, rfl, pos⟩ := tiles.placed t member
  rw [Token.behind, pos, Text.utf8Length_append, Text.utf8Length_append]
  dsimp only
  omega

/-- No byte is in two tokens. -/
theorem apart_tokenizeLines (line : Nat) (texts : List (List Char)) :
    (tokenizeLines isa line texts).Pairwise Token.Apart := by
  have apart (line : Nat) (text : List Char) : (tokenizeLine isa text line).Pairwise Token.Apart := by
    refine (tiles_tokensFrom isa line 1 text).apart.imp fun {t u} order p first second => ?_
    have before := first.2.2
    have behind := second.2.1
    omega
  have placed {line : Nat} {text : List Char} {t : Token} (member : t ∈ tokenizeLine isa text line) :
      t.pos.line = line ∧ t.behind ≤ 1 + Text.utf8Length text := by
    have tiles := tiles_tokensFrom isa line 1 text
    obtain ⟨before, after, -, pos⟩ := tiles.placed t member
    exact ⟨by rw [pos], tiles.behind_le member⟩
  fun_induction tokenizeLines isa line texts with
  | case1 => exact .nil
  | case2 line text => exact apart line text
  | case3 line text texts more ih =>
    have later {u : Token} (member : u ∈ tokenizeLines isa (line + 1) texts) : line < u.pos.line := by
      obtain ⟨line', text', after, -, inside | rfl⟩ := mem_tokenizeLines member
      · rw [(placed inside).1]
        exact after
      · exact after
    refine List.pairwise_append.mpr ⟨apart line text,
      List.pairwise_cons.mpr ⟨fun u member p first second => ?_, ih⟩, ?_⟩
    · have here := first.1
      have there := second.1
      have order := later member
      dsimp only [Token.separator] at here
      omega
    · intro t own u member p first second
      obtain ⟨here, inside⟩ := placed own
      rcases List.mem_cons.mp member with rfl | member
      · have before := first.2.2
        have behind := second.2.1
        dsimp only [Token.separator] at behind
        omega
      · have same := first.1
        have there := second.1
        have order := later member
        omega

end Tokens

/-- The word may be spelled in any case: it is a mnemonic or a register, or `named` says that it
    names a directive or a half. -/
def Token.caseless (named : Bool) (t : Token) : Bool := t.isWord && (t.kind != .identifier || named)

/-- The place is in a word that may be spelled in any case; `named` says that the tokens come
    immediately after the dot of a directive. -/
def caselessAt (named : Bool) : List Token → Position → Bool
  | [], _ => false
  | t :: ts, p => t.caseless named && decide (t.At p) || caselessAt (t.kind = .directive) ts p

/-- The tokens differ in the case of words that may be spelled in any. -/
inductive Recased : Bool → List Token → List Token → Prop
  | nil {named : Bool} : Recased named [] []
  | cons {named : Bool} {t t' : Token} {ts ts' : List Token} (same : t.Recased (t.caseless named) t')
      (rest : Recased (t.kind = .directive) ts ts') : Recased named (t :: ts) (t' :: ts')

theorem exists_of_caselessAt {named : Bool} {ts : List Token} {p : Position} (caseless : caselessAt named ts p) :
    ∃ t ∈ ts, t.At p ∧ t.isWord := by
  induction ts generalizing named with
  | nil => cases caseless
  | cons t ts ih =>
    simp only [caselessAt, Bool.or_eq_true, Bool.and_eq_true, decide_eq_true_eq] at caseless
    rcases caseless with ⟨own, here⟩ | later
    · simp only [Token.caseless, Bool.and_eq_true] at own
      exact ⟨t, List.mem_cons_self, here, own.1⟩
    · obtain ⟨u, member, there, word⟩ := ih later
      exact ⟨u, List.mem_cons_of_mem _ member, there, word⟩

theorem recased_of_apart {free : Position → Prop} {ts ts' : List Token} (apart : ts.Pairwise Token.Apart)
    (recased : List.Forall₂ (fun t => t.Recased (∃ p, t.At p ∧ free p)) ts ts') {named : Bool}
    (words : ∀ t ∈ ts, ∀ p, t.At p → free p → caselessAt named ts p) : Recased named ts ts' := by
  induction recased generalizing named with
  | nil => exact .nil
  | @cons t t' ts ts' same _ ih =>
    obtain ⟨first, apart⟩ := List.pairwise_cons.mp apart
    obtain ⟨here, later⟩ := List.forall_mem_cons.mp words
    refine .cons (same.mono ?_) (ih apart fun u member p inside freed => ?_)
    · rintro ⟨p, inside, freed⟩
      have caseless := here p inside freed
      simp only [caselessAt, Bool.or_eq_true, Bool.and_eq_true] at caseless
      rcases caseless with own | other
      · exact own.1
      · obtain ⟨u, member, there, -⟩ := exists_of_caselessAt other
        exact absurd there (first u member p inside)
    · have caseless := later u member p inside freed
      simp only [caselessAt, Bool.or_eq_true, Bool.and_eq_true, decide_eq_true_eq] at caseless
      rcases caseless with own | other
      · exact absurd inside (first u member p own.2)
      · exact other

/-- Sources that differ in the case of such words have tokens that do. -/
theorem recased_tokenize {isa : InstructionSet} {s s' : String}
    (variant : CaseVariant (caselessAt false (tokenize isa s) ·) ⟨1, 1⟩ s.toList s'.toList) :
    Recased false (tokenize isa s) (tokenize isa s') := by
  have apart := @apart_tokenizeLines isa 1 (textLines (s.toList.filter (· ≠ '\r')))
  have clean : '\r' ∉ s.toList.filter (· ≠ '\r') := by simp
  refine recased_of_apart apart (recased_tokenizeLines variant.filter clean fun t member p inside freed => ?_)
    fun t _ p _ freed => freed
  obtain ⟨u, own, there, word⟩ := exists_of_caselessAt freed
  have same : t = u := by
    by_contra other
    exact apart.forall member own other p inside there
  rwa [same]

end Bisc
