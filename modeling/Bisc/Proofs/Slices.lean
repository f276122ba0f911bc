import Bisc.Proofs.Spelling
import Bisc.Statement
import Mathlib

/-!
Pieces of texts by bytes. A cut by bytes succeeds exactly where an initial part of the text ends. The
body of a string literal is a piece of its text, and there is one exactly if the text begins and
ends with characters of one byte each.
-/
namespace Bisc

namespace Text

@[simp] theorem utf8Length_nil : utf8Length [] = 0 := rfl
@[simp] theorem utf8Length_cons (c : Char) (cs : List Char) : utf8Length (c :: cs) = c.utf8Size + utf8Length cs := rfl
@[simp] theorem utf8Length_append (front rest : List Char) :
    utf8Length (front ++ rest) = utf8Length front + utf8Length rest := by
  induction front with
  | nil => simp
  | cons c front ih => simp [ih, Nat.add_assoc]

/-- A text is cut where an initial part of it ends, and nowhere else. -/
theorem cut?_eq_some {n : Nat} {cs front rest : List Char} :
    cut? n cs = some (front, rest) ↔ cs = front ++ rest ∧ utf8Length front = n := by
  induction cs generalizing n front rest with
  | nil => cases n <;> cases front <;> simp [cut?, eq_comm]
  | cons c cs ih =>
    have size := c.utf8Size_pos
    cases n with
    | zero =>
      cases front with
      | nil => simp [cut?]
      | cons d front => simp [cut?, d.utf8Size_pos.ne']
    | succ n =>
      cases front with
      | nil => simp [cut?]
      | cons d front =>
        by_cases inside : c.utf8Size ≤ n + 1
        · simp only [cut?, inside, if_true, Option.map_eq_some_iff, Prod.exists, Prod.mk.injEq, List.cons.injEq, ih,
            List.cons_append, utf8Length_cons]
          constructor
          · rintro ⟨front, rest, ⟨rfl, length⟩, ⟨rfl, rfl⟩, rfl⟩
            exact ⟨⟨rfl, rfl⟩, by omega⟩
          · rintro ⟨⟨rfl, rfl⟩, length⟩
            exact ⟨front, rest, ⟨rfl, by omega⟩, ⟨rfl, rfl⟩, rfl⟩
        · simp only [cut?, inside, if_false, reduceCtorEq, List.cons_append, List.cons.injEq,
            utf8Length_cons, false_iff]
          rintro ⟨⟨rfl, -⟩, length⟩
          omega

theorem cut?_append (front rest : List Char) : cut? (utf8Length front) (front ++ rest) = some (front, rest) :=
  cut?_eq_some.mpr ⟨rfl, rfl⟩
@[simp] theorem sliceTo?_append (front rest : List Char) :
    sliceTo? (utf8Length front) (front ++ rest) = some front := by
  rw [sliceTo?, cut?_append, Option.map_some]
@[simp] theorem sliceFrom?_append (front rest : List Char) :
    sliceFrom? (utf8Length front) (front ++ rest) = some rest := by
  rw [sliceFrom?, cut?_append, Option.map_some]

theorem sliceTo?_take (n : Nat) (c : Char) (cs : List Char) :
    sliceTo? (utf8Length (c :: cs.take n)) (c :: cs) = some (c :: cs.take n) := by
  have whole := sliceTo?_append (c :: cs.take n) (cs.drop n)
  rwa [List.cons_append, List.take_append_drop] at whole

theorem sliceFrom?_eq_some {n : Nat} {cs rest : List Char} :
    sliceFrom? n cs = some rest ↔ ∃ front, cs = front ++ rest ∧ utf8Length front = n := by
  simp only [sliceFrom?, Option.map_eq_some_iff, Prod.exists, cut?_eq_some]
  grind

theorem sliceTo?_eq_some {n : Nat} {cs front : List Char} :
    sliceTo? n cs = some front ↔ ∃ rest, cs = front ++ rest ∧ utf8Length front = n := by
  simp only [sliceTo?, Option.map_eq_some_iff, Prod.exists, cut?_eq_some]
  grind

theorem utf8Length_eq_one {cs : List Char} : utf8Length cs = 1 ↔ ∃ c, cs = [c] ∧ c.utf8Size = 1 := by
  constructor
  · intro single
    match cs with
    | [] => cases single
    | [c] => exact ⟨c, rfl, by simpa using single⟩
    | c :: d :: ds =>
      have first := c.utf8Size_pos
      have second := d.utf8Size_pos
      simp only [utf8Length_cons] at single
      omega
  · rintro ⟨c, rfl, single⟩
    simpa using single

/-! ## Bodies of literals -/

/-- What can stand between quotes: characters other than quotes and backslashes, and backslashes
    with the character after each. -/
inductive IsBody : List Char → Prop
  | nil : IsBody []
  | plain {c : Char} {cs : List Char} (quote : c ≠ '"') (backslash : c ≠ '\\') (rest : IsBody cs) : IsBody (c :: cs)
  | escape (c : Char) {cs : List Char} (rest : IsBody cs) : IsBody ('\\' :: c :: cs)

end Text

/-- The lexer closes a literal behind a body. -/
theorem isBody_of_closingQuote? {cs : List Char} {n : Nat} (closed : closingQuote? cs = some n) :
    ∃ body after, cs = body ++ '"' :: after ∧ n = body.length + 1 ∧ Text.IsBody body := by
  induction cs using closingQuote?.induct generalizing n with
  | case1 => simp [closingQuote?] at closed
  | case2 cs =>
    simp only [closingQuote?, Option.some.injEq] at closed
    exact ⟨[], cs, rfl, closed.symm, .nil⟩
  | case3 => simp [closingQuote?] at closed
  | case4 cs => simp [closingQuote?] at closed
  | case5 c cs line ih =>
    simp only [closingQuote?, line, if_false] at closed
    obtain ⟨m, inner, rfl⟩ := Option.map_eq_some_iff.mp closed
    obtain ⟨body, after, rfl, rfl, shape⟩ := ih inner
    exact ⟨'\\' :: c :: body, after, rfl, rfl, .escape c shape⟩
  | case6 c cs quote single escape ih =>
    rw [closingQuote?.eq_5 _ _ quote single escape] at closed
    have backslash : c ≠ '\\' := by
      rintro rfl
      cases cs with
      | nil => exact single rfl rfl
      | cons d ds => exact escape d ds rfl rfl
    obtain ⟨m, inner, rfl⟩ := Option.map_eq_some_iff.mp closed
    obtain ⟨body, after, rfl, rfl, shape⟩ := ih inner
    exact ⟨c :: body, after, rfl, rfl, .plain quote backslash shape⟩

/-- The body of a literal stands between two characters of one byte. -/
theorem Token.literalBody?_eq_some {t : Token} {body : List Char} :
    t.literalBody? = some body ↔
      ∃ first last, t.raw.toList = first :: (body ++ [last]) ∧ first.utf8Size = 1 ∧ last.utf8Size = 1 := by
  unfold literalBody? Text.slice?
  rw [Option.bind_eq_some_iff]
  simp only [Text.sliceTo?_eq_some, Text.sliceFrom?_eq_some]
  constructor
  · rintro ⟨front, ⟨rest, split, length⟩, opening, rfl, one⟩
    obtain ⟨first, rfl, narrow⟩ := Text.utf8Length_eq_one.mp one
    have whole := congrArg Text.utf8Length split
    rw [Text.utf8Length_append] at whole
    rw [Text.utf8Length_append, one] at length
    have closing : Text.utf8Length rest = 1 := by
      rw [Text.utf8Length_append, one] at whole
      omega
    obtain ⟨last, rfl, narrow'⟩ := Text.utf8Length_eq_one.mp closing
    exact ⟨first, last, by simpa using split, narrow, narrow'⟩
  · rintro ⟨first, last, text, narrow, narrow'⟩
    have length : Text.utf8Length t.raw.toList - 1 = Text.utf8Length (first :: body) := by
      rw [text]
      simp [narrow']
    exact ⟨first :: body, ⟨[last], by simp [text], length.symm⟩, [first], rfl, by simp [narrow]⟩

/-- The body of a quoted text is what stands between the quotes. -/
theorem Token.literalBody?_quoted {t : Token} {body : List Char} (quoted : t.raw.toList = '"' :: (body ++ ['"'])) :
    t.literalBody? = some body :=
  literalBody?_eq_some.mpr ⟨'"', '"', quoted, rfl, rfl⟩

/-- A literal that is spelled as the lexer reads it has a body. -/
theorem Token.literalBody?_of_spelled {isa : InstructionSet} {t : Token} (spelled : t.spelled isa)
    (literal : t.kind = .stringLiteral) : ∃ body, t.literalBody? = some body ∧ Text.IsBody body := by
  obtain ⟨c, cs, raw, -, scanned⟩ := Token.spelled_iff.mp spelled
  obtain ⟨rfl, closed⟩ := @Lexeme.scan_stringLiteral isa c cs (by rw [scanned, literal])
  rw [scanned] at closed
  obtain ⟨body, after, rfl, length, shape⟩ := isBody_of_closingQuote? closed
  have last : after = [] := by
    simp only [List.length_append, List.length_cons] at length
    exact List.eq_nil_of_length_eq_zero (by omega)
  subst last
  exact ⟨body, literalBody?_quoted raw, shape⟩

end Bisc
