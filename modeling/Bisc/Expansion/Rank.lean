/-!
A measure for work that replaces an item by items of the next depth. The rank of a list of depths
counts the items of every depth below a bound, then all of them, and ranks are compared from the
smallest depth on. Losing items lowers the rank, and so does trading one item for any number of
deeper ones.
-/
namespace Bisc

/-- A count for each of `n` depths, then a length. -/
def Rank : Nat → Type
  | 0 => Nat
  | n + 1 => Nat × Rank n

namespace Rank

/-- The lexicographic order of ranks. -/
def Lt : (n : Nat) → Rank n → Rank n → Prop
  | 0 => fun a b : Nat => a < b
  | n + 1 => Prod.Lex (fun a b : Nat => a < b) (Lt n)

/-- Ranks do not descend for ever. -/
theorem lt_wf : (n : Nat) → WellFounded (Lt n)
  | 0 => Nat.lt_wfRel.wf
  | n + 1 => (Prod.lex ⟨_, Nat.lt_wfRel.wf⟩ ⟨_, lt_wf n⟩).wf

instance (n : Nat) : WellFoundedRelation (Rank n) := ⟨Lt n, lt_wf n⟩

/-- The rank of a list of depths, from a depth on. -/
def ofDepths (depths : List Nat) (first : Nat) : (n : Nat) → Rank n
  | 0 => depths.length
  | n + 1 => (depths.count first, ofDepths depths (first + 1) n)

/-- Fewer items, and no more of any depth. -/
theorem lt_of_length {ds es : List Nat} (counts : ∀ k, ds.count k ≤ es.count k)
    (length : ds.length < es.length) (first n : Nat) :
    Lt n (ofDepths ds first n) (ofDepths es first n) := by
  induction n generalizing first with
  | zero => exact length
  | succ n ih =>
    rcases Nat.lt_or_eq_of_le (counts first) with less | same
    · exact .left _ _ less
    · simp only [ofDepths, same]
      exact .right _ (ih (first + 1))

/-- Fewer items of some depth below the bound, and no more of any smaller depth. -/
theorem lt_of_count {ds es : List Nat} {d : Nat} (below : ∀ k, k < d → ds.count k ≤ es.count k)
    (fewer : ds.count d < es.count d) (first n : Nat) (lower : first ≤ d) (upper : d < first + n) :
    Lt n (ofDepths ds first n) (ofDepths es first n) := by
  induction n generalizing first with
  | zero => omega
  | succ n ih =>
    rcases Nat.lt_or_eq_of_le lower with less | same
    · rcases Nat.lt_or_eq_of_le (below first less) with c | c
      · exact .left _ _ c
      · simp only [ofDepths, c]
        exact .right _ (ih (first + 1) less (by omega))
    · subst same
      exact .left _ _ fewer

end Rank
end Bisc
