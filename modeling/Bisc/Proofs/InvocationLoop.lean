import Bisc.Proofs.InertComments
import Bisc.Proofs.QueueReaders

/-!
Invocations on the queue. The tokens of an argument are popped off the queue up to a comma or to the
end of the line, and what ends the argument goes back in front. A comma is popped before every other
parameter, and the rest of the line with its separator at last. The body is then walked by index, two
tokens at a step where a parameter gives way. On every queue this comes to what the first line of the
queue invokes, with the same errors, and it leaves what is behind that line.
-/
namespace Bisc

open Token (uncommented)

/-! ## The loops -/

/-- Pops an argument off the queue, without comments. What ends it goes back. -/
def popArgument (argument : List Token) : List Token → List Token × List Token
  | [] => (argument, [])
  | t :: queue =>
    match t.kind with
    | .lineSeparator | .comma => (argument, t :: queue)
    | .comment => popArgument argument queue
    | _ => popArgument (argument ++ [t]) queue

/-- Pops the comma between two arguments. -/
def popComma (name : Token) : List Token → Except Error (List Token)
  | [] => .error ⟨.unexpected (.token .comma) .endOfFile, name.pos⟩
  | t :: queue => if t.kind = .comma then .ok queue else .error (t.unexpected (.token .comma))

/-- Pops an argument for every parameter from the index on, and binds it in front of those that are
    bound, so that it hides one of the same name. -/
def popArguments (name : Token) (arity : Nat) : Nat → List String → List (String × List Token) → List Token →
    Except Error (List (String × List Token) × List Token)
  | _, [], bound, queue => .ok (bound, queue)
  | i, p :: ps, bound, queue =>
    let (argument, queue) := popArgument [] queue
    if argument.isEmpty then
      .error ⟨.unexpected (.argument p name.raw) ((queue.head?.map Token.found).getD .endOfFile), name.pos⟩
    else do
      let queue ← if i + 1 < arity then popComma name queue else pure queue
      popArguments name arity (i + 1) ps ((p, argument) :: bound) queue

/-- Pops the rest of a line, which has comments only, and its separator. -/
def popEnd (name : Token) (arity : Nat) : List Token → Except Error (List Token)
  | [] => .ok []
  | t :: queue =>
    match t.kind with
    | .comment => popEnd name arity queue
    | .lineSeparator => .ok queue
    | _ => .error (t.unexpected (.endOfArguments arity name.raw))

/-- Walks a body from an index on and puts out its tokens, with an argument for `%` and a bound name. -/
def walkBody (bound : List (String × List Token)) (body : List Token) (i : Nat) (out : List Token) : List Token :=
  if inside : i < body.length then
    let t := body[i]
    match if t.kind = .macroOp then body[i + 1]?.bind fun p => bound.lookup p.raw else none with
    | some argument => walkBody bound body (i + 2) (out ++ argument)
    | none => walkBody bound body (i + 1) (out ++ [t])
  else out
termination_by body.length - i

/-- What a macro invoked by `name` stands for, and what is left of the queue behind `name`. -/
def expandMacro (m : Macro) (name : Token) (queue : List Token) : Except Error (List Token × List Token) := do
  let (bound, queue) ← popArguments name m.params.length 0 m.params [] queue
  let queue ← popEnd name m.params.length queue
  return (walkBody bound m.body 0 [], queue)

/-! ## Arguments -/

private theorem comment_or_other :
    (fun t : Token => !(!t.isComment) || decide (t.kind ≠ .comma)) = fun t => decide (t.kind ≠ .comma) := by
  funext t
  by_cases comment : t.kind = .comment
  · simp [Token.isComment, comment]
  · simp [Token.isComment, comment]

theorem takeComma_uncommented (ts : List Token) : ((uncommented ts).takeWhile fun t => t.kind ≠ .comma) =
    uncommented (ts.takeWhile fun t => t.kind ≠ .comma) := by
  rw [uncommented, List.takeWhile_filter, comment_or_other]
  rfl

theorem dropComma_uncommented (ts : List Token) : ((uncommented ts).dropWhile fun t => t.kind ≠ .comma) =
    uncommented (ts.dropWhile fun t => t.kind ≠ .comma) := by
  rw [uncommented, List.dropWhile_filter, comment_or_other]
  rfl

section Line

variable {ending behind : List Token} (ends : EndsLine ending behind) {line : List Token}
  (inline : ∀ t ∈ line, t.isSeparator = false)
include ends inline

/-- An argument ends at the first comma of its line. -/
theorem popArgument_eq (argument : List Token) :
    popArgument argument (line ++ (ending ++ behind)) =
      (argument ++ uncommented (line.takeWhile fun t => t.kind ≠ .comma),
        (line.dropWhile fun t => t.kind ≠ .comma) ++ (ending ++ behind)) := by
  induction line generalizing argument with
  | nil =>
    cases ends with
    | separator stops => simp [popArgument, Token.isSeparator_iff.mp stops]
    | last => simp [popArgument]
  | cons t ts ih =>
    obtain ⟨own, inline⟩ := List.forall_mem_cons.mp inline
    rw [List.cons_append, popArgument]
    split
    · rename_i kind
      simp [Token.isSeparator, kind] at own
    · rename_i kind
      simp [kind]
    · rename_i kind
      simp [ih inline, kind, uncommented, Token.isComment]
    · rename_i other comment
      have kept : t.isComment = false := by simpa [Token.isComment] using comment
      have plain : t.kind ≠ .comma := other
      simp [ih inline, plain, Token.uncommented_cons kept]

/-- The rest of a line has no token but comments, or the first other one is an error. -/
theorem popEnd_eq (name : Token) (arity : Nat) (stop : Option Token) :
    popEnd name arity (line ++ (ending ++ behind)) =
      (readArguments name arity stop [] (uncommented line)).map fun _ => behind := by
  induction line with
  | nil =>
    cases ends with
    | separator stops => simp [popEnd, Token.isSeparator_iff.mp stops, readArguments, Except.map]
    | last => rfl
  | cons t ts ih =>
    obtain ⟨own, inline⟩ := List.forall_mem_cons.mp inline
    rw [List.cons_append, popEnd]
    split
    · rename_i kind
      rw [ih inline, Token.uncommented_comment (by simp [Token.isComment, kind])]
    · rename_i kind
      simp [Token.isSeparator, kind] at own
    · rename_i comment _
      have kept : t.isComment = false := by simpa [Token.isComment] using comment
      rw [Token.uncommented_cons kept]
      rfl

/-- The loops over the queue read the arguments of its first line and leave what is behind it. -/
theorem popArguments_eq (name : Token) {arity i : Nat} {params : List String} (count : i + params.length = arity)
    (bound : List (String × List Token)) :
    (popArguments name arity i params bound (line ++ (ending ++ behind)) >>= fun (bound, queue) =>
        (popEnd name arity queue).map (bound, ·)) =
      (readArguments name arity (ending ++ behind).head? params (uncommented line)).map fun arguments =>
        (arguments.reverse ++ bound, behind) := by
  induction params generalizing i bound line with
  | nil =>
    change (popEnd name arity (line ++ (ending ++ behind))).map (bound, ·) = _
    rw [popEnd_eq ends inline name arity (ending ++ behind).head?]
    cases uncommented line <;> rfl
  | cons p ps ih =>
    have rest : ∀ t ∈ line.dropWhile fun t => t.kind ≠ .comma, t.isSeparator = false := fun t member =>
      inline t ((List.dropWhile_sublist _).subset member)
    have cut := List.head?_dropWhile_not (fun t : Token => decide (t.kind ≠ .comma)) line
    simp only [popArguments, readArguments, popArgument_eq ends inline, List.nil_append, takeComma_uncommented,
      dropComma_uncommented]
    generalize uncommented (line.takeWhile fun t => t.kind ≠ .comma) = argument
    generalize (line.dropWhile fun t => t.kind ≠ .comma) = remaining at rest cut ⊢
    by_cases missing : argument.isEmpty
    · -- The error names what is met instead: a comma of the line, or what ends it.
      rw [if_pos missing, if_pos missing]
      cases remaining with
      | nil => cases ends <;> rfl
      | cons comma more =>
        have kept : comma.isComment = false := by simp_all [Token.isComment]
        rw [Token.uncommented_cons kept]
        rfl
    rw [if_neg missing, if_neg missing]
    have next : i + 1 + ps.length = arity := by rw [← count, List.length_cons]; omega
    have later := fun {us : List Token} inside => @ih us inside (i + 1) next ((p, argument) :: bound)
    have grown (read : Except Error (List (String × List Token))) :
        (read.map fun arguments => (arguments.reverse ++ (p, argument) :: bound, behind)) =
          (read.map ((p, argument) :: ·)).map fun arguments => (arguments.reverse ++ bound, behind) := by
      cases read <;> simp [Except.map]
    cases ps with
    | nil =>
      -- Behind the last argument the line has to end.
      rw [if_neg (by simp at next; omega), if_pos List.isEmpty_nil, ← grown]
      exact later rest
    | cons q qs =>
      rw [if_pos (by simp at next; omega), if_neg (by simp)]
      cases remaining with
      | nil => cases ends with
        | @separator stop stops _ =>
          have other : stop.kind ≠ .comma := fun comma => by simp [Token.isSeparator, comma] at stops
          rw [popComma.eq_def]
          simp [other, bind, Except.bind, Except.map]
        | last => rfl
      | cons comma more =>
        have parts : comma.kind = .comma := by simpa using cut
        have kept : comma.isComment = false := by simp [Token.isComment, parts]
        have inside := fun t member => rest t (List.mem_cons_of_mem _ member)
        rw [Token.uncommented_cons kept, List.cons_append, popComma, if_pos parts, ← grown]
        exact later inside

end Line

/-! ## Bodies -/

/-- From an index on, the walk puts out what is substituted in the rest of the body. -/
theorem walkBody_eq (bound : List (String × List Token)) (body : List Token) (i : Nat) (out : List Token) :
    walkBody bound body i out = out ++ substitute bound (body.drop i) := by
  fun_induction walkBody bound body i out with
  | case1 i out inside t argument found ih =>
    have here : body.drop i = t :: body.drop (i + 1) := List.drop_eq_getElem_cons inside
    have next : body[i + 1]? = (body.drop (i + 1)).head? := List.head?_drop.symm
    have later : body.drop (i + 2) = (body.drop (i + 1)).tail := List.tail_drop.symm
    rw [next] at found
    rw [ih, List.append_assoc, here, later]
    cases rest : body.drop (i + 1) with
    | nil => simp [rest] at found
    | cons p ts =>
      have replaced : (if t.kind = .macroOp then bound.lookup p.raw else none) = some argument := by
        rw [rest] at found
        exact found
      rw [substitute, replaced]
      rfl
  | case2 i out inside t absent ih =>
    have here : body.drop i = t :: body.drop (i + 1) := List.drop_eq_getElem_cons inside
    have next : body[i + 1]? = (body.drop (i + 1)).head? := List.head?_drop.symm
    rw [next] at absent
    rw [ih, List.append_assoc, here]
    cases rest : body.drop (i + 1) with
    | nil => rfl
    | cons p ts =>
      have kept : (if t.kind = .macroOp then bound.lookup p.raw else none) = none := by
        rw [rest] at absent
        exact absent
      rw [substitute, kept]
      rfl
  | case3 i out outside =>
    rw [List.drop_eq_nil_of_le (by omega)]
    exact (List.append_nil out).symm

/-! ## Invocations -/

/-- On every queue the loops give what the first line invokes, the rest of the queue and errors included. -/
theorem expandMacro_eq (m : Macro) (name : Token) (queue : List Token) :
    expandMacro m name queue = invokeMacro m name queue := by
  have whole : Token.line queue ++ ((Token.afterLine queue).take 1 ++ Token.behindLine queue) = queue := by
    rw [Token.behindLine, List.take_append_drop, Token.line_append_afterLine]
  have read := popArguments_eq (endsLine_firstLine queue) (Token.inline_of_line queue) name
    (Nat.zero_add m.params.length) []
  rw [whole, Token.behindLine, List.take_append_drop] at read
  have filled : expandMacro m name queue =
      (popArguments name m.params.length 0 m.params [] queue >>= fun (bound, queue) =>
        (popEnd name m.params.length queue).map (bound, ·)).map fun (bound, queue) =>
          (walkBody bound m.body 0 [], queue) := by
    unfold expandMacro
    cases popArguments name m.params.length 0 m.params [] queue with
    | error e => rfl
    | ok popped =>
      change (popEnd name m.params.length popped.2 >>= _) = ((popEnd name m.params.length popped.2).map _).map _
      cases popEnd name m.params.length popped.2 <;> rfl
  rw [filled, read, invokeMacro]
  cases readArguments name m.params.length (Token.afterLine queue).head? m.params (uncommented (Token.line queue)) with
  | error e => rfl
  | ok arguments => simp [Except.map, bind, Except.bind, pure, Except.pure, walkBody_eq]

end Bisc
