import Bisc.CommandLine.Session
import Bisc.Proofs.Outcome
import Bisc.Proofs.Verbosity
import Mathlib

/-!
What a run of the program leaves behind. A run that fails before its file is made prints and changes
nothing, one that prints the expanded source changes nothing, and any other changes one file at
most, which holds the object file if the exit code says so. How much of a run is logged makes no
difference to it.
-/
namespace Bisc.CommandLine

variable {State File : Type}

/-- The run failed, and printed and changed nothing. -/
def Outcome.Failed (out : Outcome State) (files : State) : Prop :=
  out.exit = 1 ∧ out.stdout = "" ∧ out.directory = files

/-- The runs differ in nothing but what they logged. -/
def Outcome.SameButLog (out out' : Outcome State) : Prop :=
  out.exit = out'.exit ∧ out.stdout = out'.stdout ∧ out.directory = out'.directory

/-- The run changed no file but the one at the path, and succeeded exactly if all of the bytes were
    written; then they are what the file holds. -/
structure Outcome.Writes (out : Outcome State) (fs : FileSystem State File) (files : State) (path : String)
    (bytes : List UInt8) : Prop where
  exit : out.exit = 0 ∨ out.exit = 1
  success : out.exit = 0 ↔ ∃ created, fs.create files path = .ok created ∧ (fs.writeAll created path bytes).2 = none
  own : out.exit = 0 → ∀ f, fs.file? files path = some f → fs.content? out.directory f = some bytes
  others : ∀ f, fs.file? files path ≠ some f → fs.content? out.directory f = fs.content? files f

/-- The result is the path with another extension, which is what its last component has behind the
    last dot; a dot at the front of a name is part of the name. -/
def WithExtension (extension path result : List Char) : Prop :=
  ∃ folder stem old, path = folder ++ stem ++ old ∧ result = folder ++ stem ++ '.' :: extension ∧
    (folder = [] ∨ ∃ above, folder = above ++ ['/']) ∧ '/' ∉ stem ++ old ∧ IsFileName (stem ++ old) ∧ stem ≠ [] ∧
    (old = [] ∧ '.' ∉ stem.tail ∨ ∃ suffix, old = '.' :: suffix ∧ '.' ∉ suffix)

/-- The path that a run writes to: the one asked for, or that of the input with the extension `bin`. -/
def Options.WritesTo (o : Options) (path : String) : Prop :=
  o.output = some path ∨ o.output = none ∧ WithExtension "bin".toList o.input.toList path.toList

/-! ## The path of the output -/

theorem stem_spec {name : List Char} (some : name ≠ []) : ∃ old, name = stem name ++ old ∧ stem name ≠ [] ∧
    (old = [] ∧ '.' ∉ (stem name).tail ∨ ∃ suffix, old = '.' :: suffix ∧ '.' ∉ suffix) := by
  let suffix := name.reverse.takeWhile (· ≠ '.')
  have undotted : '.' ∉ suffix.reverse := by
    intro member
    have inside := List.all_eq_true.mp List.all_takeWhile _ (List.mem_reverse.mp member)
    simp at inside
  have parts : name.reverse = suffix ++ name.reverse.dropWhile (· ≠ '.') := List.takeWhile_append_dropWhile.symm
  cases behind : name.reverse.dropWhile (· ≠ '.') with
  | nil =>
    have whole : stem name = name := by
      rw [stem, behind]
      rfl
    rw [whole]
    refine ⟨[], (List.append_nil name).symm, some, .inl ⟨rfl, fun member => undotted ?_⟩⟩
    rw [behind, List.append_nil] at parts
    rw [← parts, List.reverse_reverse]
    exact List.mem_of_mem_tail member
  | cons dot before =>
    obtain rfl : dot = '.' := by
      have stopped := List.head?_dropWhile_not (· ≠ '.') name.reverse
      rw [behind] at stopped
      simpa using stopped
    have split : name = before.reverse ++ '.' :: suffix.reverse := by
      rw [behind] at parts
      rw [← List.reverse_reverse name, parts]
      simp
    cases before with
    | nil =>
      have whole : stem name = name := by
        rw [stem, behind]
        rfl
      rw [whole]
      refine ⟨[], (List.append_nil name).symm, some, .inl ⟨rfl, ?_⟩⟩
      rw [split]
      exact undotted
    | cons c before =>
      have cut : stem name = (c :: before).reverse := by
        rw [stem, behind]
        rfl
      rw [cut]
      exact ⟨'.' :: suffix.reverse, split, by simp, .inr ⟨suffix.reverse, rfl, undotted⟩⟩

theorem writesTo_outputPath {o : Options} (named : IsFileName (splitPath o.input.toList).2) :
    o.WritesTo o.outputPath := by
  unfold Options.WritesTo Options.outputPath
  cases o.output with
  | some path => exact .inl rfl
  | none =>
    obtain ⟨folder, name, split, parts, behind, inside⟩ := splitPath_spec o.input.toList
    rw [split] at named ⊢
    have some : name ≠ [] := fun none => named (by simp [none])
    obtain ⟨old, whole, kept, extension⟩ := stem_spec some
    refine .inr ⟨rfl, folder, stem name, old, ?_, ?_, behind, whole ▸ inside, whole ▸ named, kept, extension⟩
    · rw [parts, List.append_assoc, ← whole]
    · rw [String.toList_ofList]
      rfl

theorem named_of_readText {fs : FileSystem State File} {files : State} {path text : String}
    (read : fs.readText files path = .ok text) : IsFileName (splitPath path.toList).2 := by
  unfold FileSystem.readText at read
  cases bytes : fs.read files path with
  | error fault =>
    rw [bytes] at read
    cases read
  | ok _ => exact fs.read_named bytes

/-! ## The end of a run -/

/-- A run with a file to write changes no other, and fails unless the whole file is written. -/
theorem writes_finish (fs : FileSystem State File) {s : Session} {out : Output}
    (output : s.output = some out) (o : Options)
    (files : State) : (fs.finish s o files).Writes fs files out.path out.object.encode := by
  unfold FileSystem.finish
  rw [output]
  dsimp only
  cases made : fs.create files out.path with
  | error fault =>
    exact {
      exit := .inr rfl
      success := by simp [Session.outcome, Session.uncreated, made]
      own := by simp [Session.outcome, Session.uncreated]
      others := fun _ _ => rfl }
  | ok created =>
    dsimp only
    cases done : fs.writeAll created out.path out.object.encode with
    | mk files' fault =>
      have others (f : File) (other : fs.file? files out.path ≠ some f) :
          fs.content? files' f = fs.content? files f := by
        have elsewhere : fs.content? (fs.writeAll created out.path out.object.encode).1 f = fs.content? created f :=
          fs.writeAll_other (by rwa [fs.create_file? made])
        rw [done] at elsewhere
        exact elsewhere.trans (fs.create_other made other)
      cases fault with
      | some fault =>
        exact {
          exit := .inr rfl
          success := by simp [Session.outcome, Session.unwritten, made, done]
          own := by simp [Session.outcome, Session.unwritten]
          others := others }
      | none =>
        exact {
          exit := .inl rfl
          success := ⟨fun _ => ⟨created, made, congrArg Prod.snd done⟩, fun _ => rfl⟩
          own := fun _ f own => fs.writeAll_own (fs.create_own made own) done (by rwa [fs.create_file? made])
          others := others }

theorem sameButLog_finish (fs : FileSystem State File) {s s' : Session} (exit : s.exit = s'.exit)
    (stdout : s.stdout = s'.stdout)
    (output : s.output = s'.output) (o o' : Options) (files : State) :
    (fs.finish s o files).SameButLog (fs.finish s' o' files) := by
  unfold FileSystem.finish
  rw [← output]
  cases s.output with
  | none => exact ⟨exit, stdout, rfl⟩
  | some out =>
    dsimp only
    cases fs.create files out.path with
    | error fault => exact ⟨rfl, stdout, rfl⟩
    | ok created =>
      dsimp only
      cases fs.writeAll created out.path out.object.encode with
      | mk files' fault => cases fault <;> exact ⟨rfl, stdout, rfl⟩

/-! ## Verbosity -/

/-- What is shown of a run has no part in it. -/
theorem start_verbosity (o : Options) (verbosity : Nat) (text : Except ReadFault String) :
    (Session.start { o with verbosity } text).exit = (Session.start o text).exit ∧
      (Session.start { o with verbosity } text).stdout = (Session.start o text).stdout ∧
      (Session.start { o with verbosity } text).output = (Session.start o text).output := by
  cases text with
  | error fault => exact ⟨rfl, rfl, rfl⟩
  | ok source =>
    cases expanding : o.preprocessOnly with
    | true =>
      simp only [Session.start, expanding, if_true, Session.preprocessing]
      cases preprocessText source <;> exact ⟨rfl, rfl, rfl⟩
    | false =>
      simp only [Session.start, expanding, Bool.false_eq_true, if_false, Session.assembling]
      cases build source <;> exact ⟨rfl, rfl, rfl⟩

theorem sameButLog_run (fs : FileSystem State File) {arguments arguments' : List String}
    {o : Options} {verbosity : Nat}
    (accepted : Request.ofArguments arguments = .assemble o)
    (accepted' : Request.ofArguments arguments' = .assemble { o with verbosity }) (files : State) :
    (fs.run arguments' files).SameButLog (fs.run arguments files) := by
  obtain ⟨exit, stdout, output⟩ := start_verbosity o verbosity (fs.readText files o.input)
  rw [FileSystem.run, FileSystem.run, accepted, accepted']
  exact sameButLog_finish fs exit stdout output _ _ files

/-! ## Runs -/

/-- All or nothing: arguments for a run leave nothing behind but what was asked for. -/
theorem all_or_nothing (fs : FileSystem State File) {arguments : List String} {o : Options}
    (accepted : Request.ofArguments arguments = .assemble o) (files : State) :
    (∀ fault, fs.readText files o.input = .error fault → (fs.run arguments files).Failed files) ∧
    (∀ source, fs.readText files o.input = .ok source → o.preprocessOnly = true →
      (∀ e, preprocessText source = .error e → (fs.run arguments files).Failed files) ∧
      ∀ text, preprocessText source = .ok text →
        (fs.run arguments files).exit = 0 ∧ (fs.run arguments files).stdout = text ∧
          (fs.run arguments files).directory = files) ∧
    (∀ source, fs.readText files o.input = .ok source → o.preprocessOnly = false →
      (∀ e, build source = .error e → (fs.run arguments files).Failed files) ∧
      ∀ bytes, assemble source = .ok bytes → ∃ path, o.WritesTo path ∧
        (fs.run arguments files).Writes fs files path bytes) ∧
    (fs.run ("-v" :: arguments) files).SameButLog (fs.run arguments files) ∧
    ∀ arguments' verbosity, Request.ofArguments arguments' = .assemble { o with verbosity } →
      (fs.run arguments' files).SameButLog (fs.run arguments files) := by
  have run : fs.run arguments files = fs.finish (Session.start o (fs.readText files o.input)) o files := by
    rw [FileSystem.run, accepted]
    rfl
  refine ⟨fun fault unread => ?_, fun source text expanding => ?_, fun source text assembling => ?_,
    sameButLog_run fs accepted (ofArguments_louder accepted) files,
    fun arguments' verbosity accepted' => sameButLog_run fs accepted accepted' files⟩
  · rw [run, unread]
    exact ⟨rfl, rfl, rfl⟩
  · rw [run, text]
    simp only [Session.start, expanding, if_true, Session.preprocessing]
    constructor
    · intro e rejected
      rw [rejected]
      exact ⟨rfl, rfl, rfl⟩
    · intro expanded accepted
      rw [accepted]
      exact ⟨rfl, rfl, rfl⟩
  · rw [run]
    constructor
    · intro e rejected
      simp only [text, Session.start, assembling, Bool.false_eq_true, if_false, Session.assembling, rejected]
      exact ⟨rfl, rfl, rfl⟩
    · intro bytes assembled
      obtain ⟨b, built, same⟩ := bind_eq_ok.mp assembled
      cases same
      refine ⟨o.outputPath, writesTo_outputPath (named_of_readText text), ?_⟩
      have output : (Session.start o (fs.readText files o.input)).output = some ⟨o.outputPath, b.object⟩ := by
        simp only [text, Session.start, assembling, Bool.false_eq_true, if_false, Session.assembling, built]
      exact writes_finish fs output o files

private def oldFiles : Directory := ⟨[("in.s", "halt\n".toUTF8.toList), ("out.bin", [7]), ("notes", [1, 2])]⟩

/-- A program of one instruction is assembled in place of an older file. -/
theorem all_or_nothing_halt : ∃ bytes, assemble "halt\n" = .ok bytes ∧
    ((Directory.fileSystem none).run ["-v", "-o", "out.bin", "in.s"] oldFiles).exit = 0 ∧
    ((Directory.fileSystem none).run ["-v", "-o", "out.bin", "in.s"] oldFiles).directory.get? "out.bin" = some bytes ∧
    ((Directory.fileSystem none).run ["-v", "-o", "out.bin", "in.s"] oldFiles).directory.get? "notes" =
    some [1, 2] := by
  have accepted : Request.ofArguments ["-v", "-o", "out.bin", "in.s"] = .assemble ⟨"in.s", some "out.bin",
    false, false, 1⟩ := rfl
  have text : (Directory.fileSystem none).readText oldFiles "in.s" = .ok "halt\n" := by cbv
  obtain ⟨bytes, assembled⟩ : ∃ bytes, assemble "halt\n" = .ok bytes := ⟨_, by cbv⟩
  obtain ⟨-, -, assembles, -⟩ := all_or_nothing (Directory.fileSystem none) accepted oldFiles
  obtain ⟨path, asked, writes⟩ := (assembles _ text rfl).2 _ assembled
  obtain rfl : "out.bin" = path := by
    rcases asked with asked | ⟨unasked, -⟩
    · exact Option.some.inj asked
    · cases unasked
  have success := writes.success.mpr ⟨_, rfl, rfl⟩
  exact ⟨bytes, assembled, success, writes.own success _ (by decide +kernel), writes.others _ (by decide +kernel)⟩

end Bisc.CommandLine
