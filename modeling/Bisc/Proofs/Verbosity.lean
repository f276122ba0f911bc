import Bisc.CommandLine.Options

/-!
More log. One more `-v` at the front of the arguments asks for the same run with more log of it.
-/
namespace Bisc.CommandLine

namespace Given

/-- More log was asked for. -/
def louder (g : Given) : Given := { g with verbosity := g.verbosity + 1 }

theorem flags_louder (g : Given) (cs : List Char) : g.louder.flags cs = (g.flags cs).map fun r =>
  (r.1.louder, r.2) := by
  induction g, cs using flags.induct with
  | case1 g => rfl
  | case2 g cs ih => exact ih
  | case3 g cs ih => exact ih
  | case4 g cs ih => exact ih
  | case5 g cs last =>
    rw [flags, flags, if_pos last, if_pos last]
    rfl
  | case6 g cs more =>
    rw [flags, flags, if_neg more, if_neg more]
    rfl
  | case7 g cs => rfl
  | case8 g cs => rfl
  | case9 cs g =>
    rw [flags, flags]
    · rfl
    all_goals assumption

theorem positional_louder (g : Given) (argument : String) :
    g.louder.positional argument = (g.positional argument).map louder := by
  unfold positional
  cases found : g.input with
  | none => simp [louder, found, Except.map]
  | some input => simp [louder, found, Except.map]

theorem foldlM_louder (g : Given) (as : List String) :
    as.foldlM positional g.louder = (as.foldlM positional g).map louder := by
  induction as generalizing g with
  | nil => rfl
  | cons a as ih =>
    rw [List.foldlM_cons, List.foldlM_cons, positional_louder]
    cases g.positional a with
    | error r => rfl
    | ok g' => exact ih g'

/-- An argument that is no flag. -/
theorem arguments_word {g : Given} {awaiting : Bool} {a : String} {as : List String}
    (long : ∀ cs, a.toList ≠ '-' :: '-' :: cs)
    (short : ∀ c cs, a.toList ≠ '-' :: c :: cs) : g.arguments awaiting (a :: as) =
      if awaiting then { g with output := some a }.arguments false as
      else g.positional a >>= fun g => g.arguments false as := by
  rw [arguments]
  split
  · rename_i cs dashes
    exact absurd dashes (long cs)
  · rename_i c cs _ dash
    exact absurd dash (short c cs)
  · rfl

theorem arguments_louder (g : Given) (awaiting : Bool) (as : List String) :
    g.louder.arguments awaiting as = (g.arguments awaiting as).map louder := by
  induction g, awaiting, as using arguments.induct with
  | case1 g awaiting => rfl
  | case2 g awaiting a as cs dashes last =>
    simp only [arguments, dashes, last, if_true]
    exact foldlM_louder g as
  | case3 g awaiting a as cs dashes long =>
    simp only [arguments, dashes, long]
    rfl
  | case4 g awaiting a as c cs short dash ih =>
    simp only [arguments, dash, flags_louder]
    cases g.flags (c :: cs) with
    | error r => rfl
    | ok taken => exact ih taken.1 taken.2
  | case5 g a as long short ih =>
    rw [arguments_word long short, arguments_word long short]
    exact ih
  | case6 g awaiting a as settled long short ih =>
    rw [arguments_word long short, arguments_word long short, if_neg settled, if_neg settled, positional_louder]
    cases g.positional a with
    | error r => rfl
    | ok taken => exact ih taken

/-! What is refused is no run. -/

section Refused

variable {α β : Type}

/-- The result is no error that asks for a run. -/
def NoRun (result : Except Request α) : Prop := ∀ o, result ≠ .error (.assemble o)

theorem NoRun.bind {first : Except Request α} {next : α → Except Request β} (own : NoRun first)
    (later : ∀ a, NoRun (next a)) :
    NoRun (first >>= next) := by
  cases first with
  | error r =>
    intro o same
    cases same
    exact own o rfl
  | ok a => exact later a

theorem noRun_ok (a : α) : NoRun (.ok a) := by
  intro o same
  cases same

theorem noRun_misuse : NoRun (.error .misuse : Except Request α) := by
  intro o same
  cases same

theorem noRun_information : NoRun (.error .information : Except Request α) := by
  intro o same
  cases same

theorem noRun_longFlag (argument : List Char) : NoRun (.error (longFlag argument) : Except Request α) := by
  unfold longFlag
  dsimp only
  split
  · exact noRun_information
  · exact noRun_misuse

end Refused

theorem noRun_flags (g : Given) (cs : List Char) : NoRun (g.flags cs) := by
  induction g, cs using flags.induct with
  | case1 g => exact noRun_ok _
  | case2 g cs ih => exact ih
  | case3 g cs ih => exact ih
  | case4 g cs ih => exact ih
  | case5 g cs last =>
    rw [flags, if_pos last]
    exact noRun_ok _
  | case6 g cs more =>
    rw [flags, if_neg more]
    exact noRun_ok _
  | case7 g cs => exact noRun_information
  | case8 g cs => exact noRun_information
  | case9 cs g =>
    rw [flags]
    · exact noRun_misuse
    all_goals assumption

theorem noRun_positional (g : Given) (argument : String) : NoRun (g.positional argument) := by
  unfold positional
  split
  · exact noRun_misuse
  · exact noRun_ok _

theorem noRun_foldlM (g : Given) (as : List String) : NoRun (as.foldlM positional g) := by
  induction as generalizing g with
  | nil => exact noRun_ok g
  | cons a as ih =>
    rw [List.foldlM_cons]
    exact (noRun_positional g a).bind ih

theorem noRun_arguments (g : Given) (awaiting : Bool) (as : List String) : NoRun (g.arguments awaiting as) := by
  induction g, awaiting, as using arguments.induct with
  | case1 g awaiting => exact noRun_ok g
  | case2 g awaiting a as cs dashes last =>
    simp only [arguments, dashes, last, if_true]
    exact noRun_foldlM g as
  | case3 g awaiting a as cs dashes long =>
    simp only [arguments, dashes, if_neg long]
    exact noRun_longFlag _
  | case4 g awaiting a as c cs short dash ih =>
    simp only [arguments, dash]
    exact (noRun_flags g (c :: cs)).bind fun taken => ih taken.1 taken.2
  | case5 g a as long short ih =>
    rw [arguments_word long short]
    exact ih
  | case6 g awaiting a as settled long short ih =>
    rw [arguments_word long short, if_neg settled]
    exact (noRun_positional g a).bind ih

end Given

theorem ofArguments_louder {as : List String} {o : Options} (accepted : Request.ofArguments as = .assemble o) :
    Request.ofArguments ("-v" :: as) = .assemble { o with verbosity := o.verbosity + 1 } := by
  have one : Given.arguments {} false ("-v" :: as) = Given.arguments (Given.louder {}) false as := rfl
  rw [Request.ofArguments] at accepted ⊢
  rw [one, Given.arguments_louder]
  cases taken : Given.arguments {} false as with
  | error r =>
    rw [taken] at accepted
    obtain rfl : r = .assemble o := accepted
    exact absurd taken (Given.noRun_arguments _ _ _ o)
  | ok g =>
    rw [taken] at accepted
    change g.request = .assemble o at accepted
    change g.louder.request = _
    unfold Given.request at accepted ⊢
    cases given : g.input with
    | none =>
      rw [given] at accepted
      cases accepted
    | some input =>
      rw [given] at accepted
      have given' : g.louder.input = some input := given
      rw [given']
      dsimp only at accepted ⊢
      split at accepted
      · rename_i once
        cases accepted
        exact if_pos once
      · cases accepted

end Bisc.CommandLine
