/-!
Loops. A round of a loop goes on with another state or stops with a result. Where every round that
goes on lowers a measure and keeps the result that is due, the loop stops with that result.
-/
namespace Bisc

variable {σ ρ β : Type}

/-- What one round of a loop comes to. -/
inductive Round (σ ρ : Type)
  | again (state : σ)
  | stop (result : ρ)

/-- The result of a loop that stops within a number of rounds. -/
def loopFor (round : σ → Round σ ρ) : Nat → σ → Option ρ
  | 0, _ => none
  | n + 1, s =>
    match round s with
    | .again s' => loopFor round n s'
    | .stop result => some result

/-- The loop stops with a result, after some number of rounds. -/
def Halts (round : σ → Round σ ρ) (s : σ) (result : ρ) : Prop := ∃ n, loopFor round n s = some result

variable {round : σ → Round σ ρ}

theorem halts_again {s s' : σ} {result : ρ} (next : round s = .again s') :
    Halts round s result ↔ Halts round s' result := by
  constructor
  · rintro ⟨n, ended⟩
    cases n with
    | zero => cases ended
    | succ n => exact ⟨n, by simpa only [loopFor, next] using ended⟩
  · rintro ⟨n, ended⟩
    exact ⟨n + 1, by simpa only [loopFor, next] using ended⟩

theorem halts_stop {s : σ} {given result : ρ} (last : round s = .stop given) :
    Halts round s result ↔ given = result := by
  constructor
  · rintro ⟨n, ended⟩
    cases n with
    | zero => cases ended
    | succ n => simpa only [loopFor, last, Option.some.injEq] using ended
  · rintro rfl
    exact ⟨1, by simp only [loopFor, last]⟩

/-- A loop has one result at most. -/
theorem Halts.unique {s : σ} {result result' : ρ} (halts : Halts round s result) (halts' : Halts round s result') :
    result = result' := by
  obtain ⟨n, ended⟩ := halts
  induction n generalizing s with
  | zero => cases ended
  | succ n ih =>
    cases next : round s with
    | again s' => exact ih ((halts_again next).mp halts') (by simpa only [loopFor, next] using ended)
    | stop given =>
      have same : given = result := by simpa only [loopFor, next, Option.some.injEq] using ended
      rw [← same]
      exact (halts_stop next).mp halts'

/-- The rule of loops: a measure that goes down, and a result that stays the same until it is given. -/
theorem halts_of_measure {less : β → β → Prop} (descends : WellFounded less) (measure : σ → β) (due : σ → ρ)
    (again : ∀ s s', round s = .again s' → less (measure s') (measure s) ∧ due s' = due s)
    (stop : ∀ s result, round s = .stop result → result = due s) (s : σ) : Halts round s (due s) := by
  induction start : measure s using descends.induction generalizing s with
  | _ m ih =>
    cases next : round s with
    | again s' =>
      obtain ⟨lower, same⟩ := again s s' next
      rw [halts_again next, ← same]
      exact ih _ (start ▸ lower) s' rfl
    | stop result => exact (halts_stop next).mpr (stop s result next)

end Bisc
