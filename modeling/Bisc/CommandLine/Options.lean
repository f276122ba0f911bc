/-!
The arguments of the command line. Flags may be joined (`-dvo file`), `--` ends them, and the value
of `-o` may follow it directly, after `=` or as the next argument.
-/
namespace Bisc.CommandLine

/-- What a run is asked to do: `verbosity` counts how often more log was asked for. -/
structure Options where
  input : String
  output : Option String
  preprocessOnly : Bool
  listing : Bool
  verbosity : Nat
deriving DecidableEq

/-- What the arguments amount to: a run, a text about the program, or nothing that makes sense. -/
inductive Request
  | assemble (options : Options)
  | information
  | misuse
deriving DecidableEq

/-- What was given so far; flags are counted. -/
structure Given where
  input : Option String := none
  output : Option String := none
  outputs : Nat := 0
  preprocess : Nat := 0
  listing : Nat := 0
  verbosity : Nat := 0
deriving DecidableEq

namespace Given

/-- Takes the letters of joined flags. The result tells whether a value is still to come. -/
def flags (g : Given) : List Char → Except Request (Given × Bool)
  | [] => .ok (g, false)
  | 'v' :: cs => flags { g with verbosity := g.verbosity + 1 } cs
  | 'd' :: cs => flags { g with listing := g.listing + 1 } cs
  | 'e' :: cs => flags { g with preprocess := g.preprocess + 1 } cs
  | 'o' :: cs =>
    let g := { g with outputs := g.outputs + 1 }
    if cs.isEmpty then .ok (g, true)
    else .ok ({ g with output := some (String.ofList (cs.dropWhile (· = '='))) }, false)
  | 'h' :: _ | 'V' :: _ => .error .information
  | _ => .error .misuse

/-- Takes an argument that is no flag. -/
def positional (g : Given) (argument : String) : Except Request Given :=
  if g.input.isSome then .error .misuse else .ok { g with input := some argument }

/-- What an argument with two dashes asks for. -/
def longFlag (argument : List Char) : Request :=
  let name := (argument.dropWhile (· = '-')).takeWhile (· ≠ '=')
  if name ∈ ["help".toList, "version".toList] then .information else .misuse

/-- Takes the arguments in order; `awaiting` tells whether the next may be the value of `-o`. -/
def arguments (g : Given) (awaiting : Bool) : List String → Except Request Given
  | [] => .ok g
  | a :: as =>
    match a.toList with
    | '-' :: '-' :: cs =>
      if cs.isEmpty then as.foldlM positional g else .error (longFlag a.toList)
    | '-' :: c :: cs => do
      let (g, awaiting) ← g.flags (c :: cs)
      arguments g awaiting as
    | _ =>
      if awaiting then arguments { g with output := some a } false as
      else do arguments (← g.positional a) false as

/-- The request, if there is an input, no flag but the one for more log was repeated, and `-o` has
    a value. -/
def request (g : Given) : Request :=
  match g.input with
  | none => .misuse
  | some input =>
    if g.outputs ≤ 1 ∧ g.preprocess ≤ 1 ∧ g.listing ≤ 1 ∧ (g.outputs = 0 ∨ g.output.isSome) then
      .assemble ⟨input, g.output, g.preprocess = 1, g.listing = 1, g.verbosity⟩
    else .misuse

end Given

/-- The request that arguments make. -/
def Request.ofArguments (as : List String) : Request :=
  match Given.arguments {} false as with
  | .ok g => g.request
  | .error r => r

/-- The last component of a path, and what comes before it. -/
def splitPath (path : List Char) : List Char × List Char :=
  let name := (path.reverse.takeWhile (· ≠ '/')).reverse
  (path.take (path.length - name.length), name)

/-- A path is its last component, behind nothing or behind a slash. -/
theorem splitPath_spec (path : List Char) : ∃ folder name, splitPath path = (folder, name) ∧
    path = folder ++ name ∧ (folder = [] ∨ ∃ above, folder = above ++ ['/']) ∧ '/' ∉ name := by
  let name := path.reverse.takeWhile (· ≠ '/')
  let folder := path.reverse.dropWhile (· ≠ '/')
  have parts : path = folder.reverse ++ name.reverse := by
    rw [← List.reverse_append, List.takeWhile_append_dropWhile, List.reverse_reverse]
  refine ⟨folder.reverse, name.reverse, ?_, parts, ?_, ?_⟩
  · have length : path.length - name.reverse.length = folder.reverse.length := by
      rw [parts, List.length_append, Nat.add_sub_cancel]
    have taken : path.take folder.reverse.length = folder.reverse := by
      rw [parts]
      exact List.take_left
    change (path.take (path.length - name.reverse.length), name.reverse) = _
    rw [length, taken]
  · cases found : folder with
    | nil => exact .inl rfl
    | cons c above =>
      have stopped := List.head?_dropWhile_not (· ≠ '/') path.reverse
      rw [show path.reverse.dropWhile (· ≠ '/') = c :: above from found] at stopped
      obtain rfl : c = '/' := by simpa using stopped
      exact .inr ⟨above.reverse, List.reverse_cons⟩
  · intro member
    have inside := List.all_eq_true.mp List.all_takeWhile _ (List.mem_reverse.mp member)
    simp at inside

/-- A file name without its extension. A dot at the front starts no extension. -/
def stem (name : List Char) : List Char :=
  let before := (name.reverse.dropWhile (· ≠ '.')).drop 1
  if before.isEmpty then name else before.reverse

/-- Where the object file goes: where asked, else beside the input with the extension `bin`. -/
def Options.outputPath (o : Options) : String :=
  match o.output with
  | some path => path
  | none =>
    let (folder, name) := splitPath o.input.toList
    String.ofList (folder ++ stem name ++ ".bin".toList)

end Bisc.CommandLine
