import Bisc.CommandLine.FileSystem

/-!
The directory as a file system. What is written to it goes to the one file of the name that the path
ends with, or out of the directory, and only as much as the medium takes.
-/
namespace Bisc.CommandLine

/-- How many bytes a medium takes before it fails, and how it fails then. -/
structure Medium where
  room : Nat
  fault : FileFault
deriving DecidableEq

namespace Medium

/-- The bytes that are written before a medium fails; no medium at all never fails. -/
def taken (medium : Option Medium) (bytes : List UInt8) : List UInt8 :=
  match medium with
  | none => bytes
  | some m => bytes.take m.room

/-- The fault, if there is no room for the bytes. -/
def fault? (medium : Option Medium) (bytes : List UInt8) : Option FileFault :=
  match medium with
  | none => none
  | some m => if bytes.length ≤ m.room then none else some m.fault

theorem taken_eq {medium : Option Medium} {bytes : List UInt8}
    (room : fault? medium bytes = none) : taken medium bytes = bytes := by
  cases medium with
  | none => rfl
  | some m =>
    rw [fault?] at room
    split at room
    · rename_i fits
      exact List.take_of_length_le fits
    · cases room

end Medium

/-! ## Directories -/

namespace Directory

variable {d d' : Directory} {path name : String}

theorem get?_put_self (bytes : List UInt8) : (d.put name bytes).get? name = some bytes := by
  have absent : (d.files.filter fun file => file.1 ≠ name).lookup name = none := by
    refine List.lookup_eq_none_iff.mpr fun file listed => ?_
    have differs : file.1 ≠ name := of_decide_eq_true (List.mem_filter.mp listed).2
    exact bne_iff_ne.mpr differs.symm
  rw [get?, put, List.lookup_append, absent, List.lookup_cons_self, Option.none_or]

theorem get?_put_of_ne {other : String} (ne : other ≠ name) (bytes : List UInt8) :
    (d.put name bytes).get? other = d.get? other := by
  have apart : (other == name) = false := beq_false_of_ne ne
  have kept (files : List (String × List UInt8)) :
      (files.filter fun file => file.1 ≠ name).lookup other = files.lookup other := by
    induction files with
    | nil => rfl
    | cons file files ih =>
      by_cases replaced : file.1 = name
      · rw [List.filter_cons_of_neg (by simpa using replaced), ih, List.lookup_cons, replaced, apart]
      · rw [List.filter_cons_of_pos (by simpa using replaced), List.lookup_cons, List.lookup_cons, ih]
  rw [get?, put, List.lookup_append, kept, List.lookup_cons, apart, List.lookup_nil, Option.or_none]
  rfl

theorem step_eq_here {place : Place} : d.step place name = .ok .here ↔ place = .here ∧ name = "." := by
  unfold step
  constructor
  · intro stepped
    split at stepped
    · cases stepped
    · split at stepped
      · cases stepped
        exact ⟨rfl, ‹_›⟩
      · split at stepped
        · cases place <;> cases stepped
        · split at stepped
          · cases stepped
          · split at stepped
            · rename_i found
              cases stepped
              cases place <;> simp [ entry?] at found
            · cases stepped
  · rintro ⟨rfl, rfl⟩
    rfl

/-- Only `.` leads to the directory, and only from there. -/
theorem walk_eq_here {place : Place} {path : List String} :
    d.walk place path = .ok .here ↔ place = .here ∧ ∀ name ∈ path, name = "." := by
  induction path generalizing place with
  | nil =>
    simp [walk, pure, Except.pure]
  | cons name path ih =>
    have walked : d.walk place (name :: path) = d.step place name >>= fun next => d.walk next path :=
      List.foldlM_cons
    rw [walked, List.forall_mem_cons]
    constructor
    · intro reached
      cases stepped : d.step place name with
      | error fault =>
        rw [stepped] at reached
        cases reached
      | ok next =>
        rw [stepped] at reached
        obtain ⟨rfl, dots⟩ := ih.mp reached
        obtain ⟨here, dot⟩ := step_eq_here.mp stepped
        exact ⟨here, dot, dots⟩
    · rintro ⟨here, dot, dots⟩
      rw [step_eq_here.mpr ⟨here, dot⟩]
      exact ih.mpr ⟨rfl, dots⟩

/-- Where a path leads in a directory does not depend on its files. -/
theorem name?_congr (d d' : Directory) (path : String) : d.name? path = d'.name? path := by
  unfold name?
  cases (names path).getLast? with
  | none => rfl
  | some name =>
    by_cases here : d.walk (origin path) (names path).dropLast = .ok .here
    · rw [here, walk_eq_here.mpr (walk_eq_here.mp here)]
    · have elsewhere : d'.walk (origin path) (names path).dropLast ≠ .ok .here :=
        fun here' => here (walk_eq_here.mpr (walk_eq_here.mp here'))
      split
      · contradiction
      · split
        · contradiction
        · rfl

theorem writeAt_eq_ok {place : Place} {bytes : List UInt8}
    (written : d.writeAt place name bytes = .ok d') :
    d' = if place = .here then d.put name bytes else d := by
  unfold writeAt at written
  cases stepped : d.step place name with
  | ok found =>
    rw [stepped] at written
    cases found with
    | file _ => exact (Except.ok.inj written).symm
    | _ => cases written
  | error fault =>
    simp only [stepped] at written
    split at written
    · exact (Except.ok.inj written).symm
    · cases written

/-- What is written goes to one file or leaves no trace. -/
theorem write_eq_ok {bytes : List UInt8} (written : d.write path bytes = .ok d') :
    d' = match d.name? path with
      | some name => d.put name bytes
      | none => d := by
  unfold write at written
  cases checked : checkPath path with
  | error fault =>
    rw [checked] at written
    cases written
  | ok =>
    rw [checked] at written
    cases last : (names path).getLast? with
    | none =>
      rw [last] at written
      cases written
    | some name =>
      rw [last] at written
      cases walked : d.walk (origin path) (names path).dropLast with
      | error fault =>
        simp only [walked] at written
        cases written
      | ok place =>
        simp only [walked] at written
        change (if place.isDirectory && isSlashed path then Except.error .isADirectory
          else d.writeAt place name bytes) = .ok d' at written
        split at written
        · cases written
        · rw [writeAt_eq_ok written, name?, last, walked]
          cases place <;> rfl

/-- The last name that a path goes through is its last component. -/
theorem names_eq {folder name : List Char} (split : splitPath path.toList = (folder, name))
    (named : name ≠ []) : ∃ before, names path = before ++ [String.ofList name] := by
  obtain ⟨folder', name', split', parts, behind, inside⟩ := splitPath_spec path.toList
  obtain ⟨rfl, rfl⟩ := Prod.mk.inj (split'.symm.trans split)
  have last : ∃ before, path.toList.splitOn '/' = before ++ [name'] := by
    rw [parts]
    rcases behind with rfl | ⟨above, rfl⟩
    · exact ⟨[], List.splitOn_eq_singleton inside⟩
    · refine ⟨above.splitOn '/', ?_⟩
      rw [List.append_assoc, List.singleton_append, List.splitOn_append_cons_self,
        List.splitOn_eq_singleton inside]
  obtain ⟨before, components⟩ := last
  have some : String.ofList name' ≠ "" := by
    intro none
    exact named (by simpa using congrArg String.toList none)
  refine ⟨(before.map String.ofList).filter (· ≠ ""), ?_⟩
  rw [names, components, List.map_append, List.filter_append]
  simp [some]

/-- The names `.` and `..` lead to directories. -/
theorem isDirectory_of_step {place next : Place} (dots : name = "." ∨ name = "..")
    (stepped : d.step place name = .ok next) : next.isDirectory := by
  unfold step at stepped
  split at stepped
  · cases stepped
  · rename_i directory
    rcases dots with rfl | rfl
    · cases stepped
      simpa using directory
    · cases stepped
      cases place <;> rfl

theorem isDirectory_of_walk {place reached : Place} {before : List String}
    (dots : name = "." ∨ name = "..") (walked : d.walk place (before ++ [name]) = .ok reached) :
    reached.isDirectory := by
  rw [walk, List.foldlM_append] at walked
  cases behind : before.foldlM d.step place with
  | error fault =>
    rw [behind] at walked
    cases walked
  | ok next =>
    rw [behind] at walked
    change d.walk next [name] = .ok reached at walked
    cases stepped : d.step next name with
    | error fault => simp [walk, stepped, bind, Except.bind] at walked
    | ok found =>
      obtain rfl : found = reached := by
        simpa [walk, stepped, bind, Except.bind, pure, Except.pure] using walked
      exact isDirectory_of_step dots stepped

/-- A file is not read by a name that only directories have. -/
theorem read_named {bytes : List UInt8} (read : d.read path = .ok bytes) :
    IsFileName (splitPath path.toList).2 := by
  obtain ⟨folder, name, split, parts, behind, -⟩ := splitPath_spec path.toList
  rw [split]
  unfold Directory.read at read
  cases checked : checkPath path with
  | error fault =>
    rw [checked] at read
    cases read
  | ok =>
    rw [checked] at read
    cases walked : d.walk (origin path) (names path) with
    | error fault =>
      simp only [walked] at read
      cases read
    | ok place =>
      simp only [walked] at read
      cases place with
      | file held =>
        have dots (bad : String) (bads : bad = "." ∨ bad = "..") : name ≠ bad.toList := by
          rintro rfl
          obtain ⟨before, components⟩ := names_eq split (by rcases bads with rfl | rfl <;> decide)
          rw [components, String.ofList_toList] at walked
          cases isDirectory_of_walk bads walked
        have some : name ≠ [] := by
          rintro rfl
          rw [List.append_nil] at parts
          rcases behind with rfl | ⟨above, rfl⟩
          · obtain rfl : path = "" := by simpa using parts
            cases checked
          · have slashed : isSlashed path := by simp [isSlashed, parts]
            simp only [slashed, if_true] at read
            cases read
        simp only [IsFileName, List.mem_cons, List.not_mem_nil, or_false, not_or]
        exact ⟨some, dots "." (.inl rfl), dots ".." (.inr rfl)⟩
      | _ => cases read

/-- The directory as a file system on a medium. -/
def fileSystem (medium : Option Medium) : FileSystem Directory String where
  file? := name?
  content? := get?
  read := read
  create d path := d.write path []
  writeAll d path bytes :=
    match d.write path (Medium.taken medium bytes) with
    | .ok d' => (d', Medium.fault? medium bytes)
    | .error fault => (d, some fault)
  read_named := read_named
  create_file? _ := name?_congr _ _ _
  create_own created own := by
    rw [write_eq_ok created, own]
    exact get?_put_self []
  create_other created other := by
    rw [write_eq_ok created]
    split
    · rename_i name own
      exact get?_put_of_ne (by rintro rfl; exact other own) []
    · rfl
  writeAll_own {d d' path bytes name} _ written own := by
    split at written
    · rename_i d'' all
      obtain ⟨rfl, room⟩ := Prod.mk.inj written
      rw [Medium.taken_eq room] at all
      rw [write_eq_ok all, own]
      exact get?_put_self bytes
    · cases written
  writeAll_other other := by
    split
    · rename_i d' written
      rw [write_eq_ok written]
      split
      · rename_i name own
        exact get?_put_of_ne (by rintro rfl; exact other own) _
      · rfl
    · rfl

end Directory
end Bisc.CommandLine
