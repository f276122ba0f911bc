import Bisc.Error

/-!
Checks that run one after the other. The first fault among them is the error of the whole, and
without a fault every check gives its value.
-/
namespace Bisc

variable {α β γ : Type}

/-- The result of a check with its fault, if it has one, and the value it gives otherwise. -/
def outcome (fault : Option Error) (value : α) : Except Error α :=
  match fault with
  | some e => .error e
  | none => .ok value

@[simp] theorem outcome_some (e : Error) (value : α) : outcome (some e) value = .error e := rfl
@[simp] theorem outcome_none (value : α) : outcome none value = .ok value := rfl

theorem outcome_map (fault : Option Error) (value : α) (f : α → β) :
    (outcome fault value).map f = outcome fault (f value) := by
  cases fault <;> rfl
theorem outcome_bind_pure (fault : Option Error) (value : α) (f : α → β) :
    (outcome fault value >>= fun a => pure (f a)) = outcome fault (f value) := by
  cases fault <;> rfl
theorem outcome_eq_ok {fault : Option Error} {value result : α} (accepted : outcome fault value = .ok result) :
    fault = none ∧ value = result := by
  cases fault with
  | none => exact ⟨rfl, by simpa using accepted⟩
  | some e => simp at accepted

/-- A list of checks has the first fault of its members. -/
theorem mapM_outcome {f : α → Except Error β} {fault : α → Option Error} {value : α → β} {xs : List α}
    (each : ∀ x ∈ xs, f x = outcome (fault x) (value x)) :
    xs.mapM f = outcome (xs.findSome? fault) (xs.map value) := by
  induction xs with
  | nil => rfl
  | cons x xs ih =>
    have tail := ih fun y member => each y (List.mem_cons_of_mem _ member)
    rw [List.mapM_cons, each x List.mem_cons_self, tail, List.findSome?_cons]
    cases fault x with
    | some e => rfl
    | none => cases xs.findSome? fault <;> rfl

theorem map_bind (x : Except Error α) (f : α → β) (g : β → Except Error γ) :
    x.map f >>= g = x >>= fun a => g (f a) := by
  cases x <;> rfl
theorem bind_map (x : Except Error α) (f : α → Except Error β) (g : β → γ) :
    (x >>= f).map g = x >>= fun a => (f a).map g := by
  cases x <;> rfl
theorem map_map (x : Except Error α) (f : α → β) (g : β → γ) : (x.map f).map g = x.map fun a => g (f a) := by
  cases x <;> rfl

theorem bind_eq_ok {x : Except Error α} {f : α → Except Error β} {b : β} :
    x >>= f = .ok b ↔ ∃ a, x = .ok a ∧ f a = .ok b := by
  cases x <;> simp [bind, Except.bind]
theorem map_eq_ok {x : Except Error α} {f : α → β} {b : β} : x.map f = .ok b ↔ ∃ a, x = .ok a ∧ f a = b := by
  cases x <;> simp [Except.map]
theorem map_eq_error {ε : Type} {x : Except ε α} {f : α → β} {e : ε} : x.map f = .error e ↔ x = .error e := by
  cases x <;> simp [Except.map]
theorem bind_eq_error {x : Except Error α} {f : α → Except Error β} {e : Error} :
    x >>= f = .error e ↔ x = .error e ∨ ∃ a, x = .ok a ∧ f a = .error e := by
  cases x <;> simp [bind, Except.bind]

/-- A list of checks gives values exactly if each check gives its own. -/
theorem mapM_eq_ok_iff {f : α → Except Error β} {xs : List α} {ys : List β} :
    xs.mapM f = .ok ys ↔ xs.map f = ys.map .ok := by
  induction xs generalizing ys with
  | nil => cases ys <;> simp [pure, Except.pure]
  | cons x xs ih =>
    rw [List.mapM_cons, bind_eq_ok]
    constructor
    · rintro ⟨y, first, rest⟩
      obtain ⟨zs, all, same⟩ := bind_eq_ok.mp rest
      cases same
      rw [List.map_cons, first, ih.mp all, List.map_cons]
    · intro all
      cases ys with
      | nil => simp at all
      | cons y ys =>
        simp only [List.map_cons, List.cons.injEq] at all
        exact ⟨y, all.1, bind_eq_ok.mpr ⟨ys, ih.mpr all.2, rfl⟩⟩

theorem mapM_eq_error {f : α → Except Error β} {xs : List α} {e : Error} (refused : xs.mapM f = .error e) :
    ∃ x ∈ xs, f x = .error e := by
  induction xs with
  | nil => simp [pure, Except.pure] at refused
  | cons x xs ih =>
    rw [List.mapM_cons] at refused
    rcases bind_eq_error.mp refused with first | ⟨y, -, rest⟩
    · exact ⟨x, List.mem_cons_self, first⟩
    · rcases bind_eq_error.mp rest with rest | ⟨ys, -, impossible⟩
      · obtain ⟨x', member, here⟩ := ih rest
        exact ⟨x', List.mem_cons_of_mem _ member, here⟩
      · cases impossible

end Bisc
