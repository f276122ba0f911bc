import Bisc.Error

/-!
Runs: what a reader gave before it came to the end or to its first error. A run keeps what came
before an error, so that it can still be reported.
-/
namespace Bisc

/-- The results of a reader, in order, and the error that stopped it, if one did. -/
structure Run (α : Type) where
  out : List α
  failure : Option Error
deriving DecidableEq

namespace Run

variable {α : Type}

/-- The run that gave nothing and went to the end. -/
def done : Run α := ⟨[], none⟩
/-- The run that an error stopped at once. -/
def fail (e : Error) : Run α := ⟨[], some e⟩
/-- The run that gave one more result first. -/
def cons (a : α) (r : Run α) : Run α := { r with out := a :: r.out }
/-- One run after another: an error in the first keeps the second from starting. -/
def append (r s : Run α) : Run α :=
  match r.failure with
  | some _ => r
  | none => ⟨r.out ++ s.out, s.failure⟩

instance : Append (Run α) := ⟨append⟩

/-- What `f` makes of the members of a list, up to the first error. -/
def each {β : Type} (f : β → Except Error α) : List β → Run α
  | [] => done
  | b :: bs =>
    match f b with
    | .error e => fail e
    | .ok a => cons a (each f bs)

/-- The results of a run that went to the end, or the error that stopped it. -/
def result (r : Run α) : Except Error (List α) :=
  match r.failure with
  | some e => .error e
  | none => .ok r.out

end Run
end Bisc
