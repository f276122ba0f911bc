import Bisc.Definition
import Bisc.Expansion.Rank

/-!
Expansion of constants and macros. An invocation, `%` and a name, is replaced by what the name
stands for, and what it is replaced by is expanded in turn. The products carry the place of the
invocation and one more level of depth, and an invocation that is nested too deeply is an error, so
that every expansion ends.
-/
namespace Bisc

/-- The depth at which nothing is expanded any more. -/
def maxDepth : Nat := 64

/-- The arguments of an invocation, one non-empty group of tokens for each parameter and commas
    between them; `stop` is the separator that ends the line, and `name` the token invoked. -/
def readArguments (name : Token) (arity : Nat) (stop : Option Token) :
    List String → List Token → Except Error (List (String × List Token))
  | [], [] => .ok []
  | [], t :: _ => .error (t.unexpected (.endOfArguments arity name.raw))
  | p :: ps, ts =>
    let argument := ts.takeWhile fun t => t.kind ≠ .comma
    let rest := ts.dropWhile fun t => t.kind ≠ .comma
    if argument.isEmpty then
      let found := match rest.head? <|> stop with
        | some t => t.found
        | none => .endOfFile
      .error ⟨.unexpected (.argument p name.raw) found, name.pos⟩
    else if ps.isEmpty then (readArguments name arity stop ps rest).map ((p, argument) :: ·)
    else match rest, stop with
      | _ :: more, _ => (readArguments name arity stop ps more).map ((p, argument) :: ·)
      | [], some t => .error (t.unexpected (.token .comma))
      | [], none => .error ⟨.unexpected (.token .comma) .endOfFile, name.pos⟩

/-- A macro body with every parameter, `%` and its name, replaced by its argument. -/
def substitute (arguments : List (String × List Token)) : List Token → List Token
  | t :: p :: ts =>
    match if t.kind = .macroOp then arguments.lookup p.raw else none with
    | some argument => argument ++ substitute arguments ts
    | none => t :: substitute arguments (p :: ts)
  | ts => ts

/-- What a macro invoked by `name` stands for, and what follows the line of the invocation. If two
    parameters have one name, the argument of the later one is meant. -/
def invokeMacro (m : Macro) (name : Token) (ts : List Token) :
    Except Error (List Token × List Token) := do
  let after := Token.afterLine ts
  let arguments ← readArguments name m.params.length after.head? m.params
    (Token.uncommented (Token.line ts))
  return (substitute arguments.reverse m.body, after.drop 1)

/-- What the invocation by the operator `op` stands for, and what follows it in `ts`. -/
def invoke (defs : Definitions) (op : Token) :
    List Token → Except Error (List Token × List Token)
  | [] => .error ⟨.unexpected .definedName .endOfFile, op.pos⟩
  | name :: ts =>
    if !name.isWord then .error (name.unexpected .definedName)
    else if op.depth ≥ maxDepth then .error ⟨.expansionDepth name.raw, op.pos⟩
    else match defs.constants.lookup name.raw with
      | some value => .ok (value, ts)
      | none => match defs.macros.lookup name.raw with
        | some m => invokeMacro m name ts
        | none => .error ⟨.unresolvedSymbol name.raw, name.pos⟩

/-- What is behind the first line is an end of the list. -/
theorem Token.drop_afterLine_suffix (ts : List Token) : (Token.afterLine ts).drop 1 <:+ ts :=
  (List.drop_suffix _ _).trans (List.dropWhile_suffix _)

/-- An invocation is not too deep, and leaves an end of the list. -/
theorem invoke_spec {defs : Definitions} {op : Token} {ts produced after : List Token}
    (h : invoke defs op ts = .ok (produced, after)) : op.depth < maxDepth ∧ after <:+ ts := by
  unfold invoke at h
  split at h
  · cases h
  · rename_i name ts
    split at h
    · cases h
    · split at h
      · cases h
      · rename_i shallow
        refine ⟨by omega, ?_⟩
        split at h
        · cases h
          exact List.suffix_cons _ _
        · split at h
          · rename_i m _
            simp only [invokeMacro, bind, Except.bind] at h
            split at h
            · cases h
            · cases h
              exact (Token.drop_afterLine_suffix ts).trans (List.suffix_cons _ _)
          · cases h

/-- The rank of a token list, which every step of the expansion lowers. -/
def expansionRank (ts : List Token) : Rank maxDepth := .ofDepths (ts.map Token.depth) 0 maxDepth

/-- Dropping tokens lowers the rank. -/
theorem rank_lt_of_sublist {ts us : List Token} (sub : ts.Sublist us)
    (length : ts.length < us.length) : Rank.Lt maxDepth (expansionRank ts) (expansionRank us) :=
  Rank.lt_of_length (fun k => (sub.map Token.depth).count_le k) (by simpa using length) 0 maxDepth

/-- Going on behind a token lowers the rank. -/
theorem rank_lt_of_suffix {t : Token} {ts us : List Token} (behind : us <:+ ts) :
    Rank.Lt maxDepth (expansionRank us) (expansionRank (t :: ts)) :=
  rank_lt_of_sublist (behind.sublist.trans (List.sublist_cons_self _ _))
    (Nat.lt_succ_of_le behind.length_le)

/-- Trading a token for tokens of the next depth lowers the rank, however many they are. -/
theorem rank_lt_of_deeper {t : Token} {ts produced after : List Token} (shallow : t.depth < maxDepth)
    (deeper : ∀ u ∈ produced, u.depth = t.depth + 1) (suffix : after <:+ ts) :
    Rank.Lt maxDepth (expansionRank (produced ++ after)) (expansionRank (t :: ts)) := by
  have depths : produced.map Token.depth = List.replicate produced.length (t.depth + 1) := by
    simpa [List.eq_replicate_iff] using deeper
  have rest := fun k => (suffix.sublist.map Token.depth).count_le k
  refine Rank.lt_of_count (d := t.depth) (fun k less => ?_) ?_ 0 maxDepth (by omega) (by omega)
  · simp only [List.map_append, depths, List.count_append, List.count_replicate, List.map_cons,
      List.count_cons]
    have := rest k
    rw [if_neg (by simp; omega)]
    omega
  · simp only [List.map_append, depths, List.count_append, List.count_replicate, List.map_cons,
      List.count_cons]
    have := rest t.depth
    simp
    omega

/-- Expanding an invocation lowers the rank. -/
theorem rank_lt_of_invoke {defs : Definitions} {op : Token} {ts produced after : List Token}
    (h : invoke defs op ts = .ok (produced, after)) :
    Rank.Lt maxDepth
      (expansionRank (produced.map (Token.retag op.pos (op.depth + 1)) ++ after))
      (expansionRank (op :: ts)) := by
  obtain ⟨shallow, suffix⟩ := invoke_spec h
  exact rank_lt_of_deeper shallow (by simp [Token.retag]) suffix

/-- The token list with every invocation expanded; the line of a constant's definition stays as it
    is. -/
def expand (defs : Definitions) (ts : List Token) : Except Error (List Token) :=
  match ts with
  | [] => .ok []
  | t :: rest =>
    if directiveAt? (t :: rest) = some "define" then
      let after := Token.afterLine rest
      (expand defs (after.drop 1)).map (t :: Token.line rest ++ after.take 1 ++ ·)
    else if t.kind ≠ .macroOp then (expand defs rest).map (t :: ·)
    else match _h : invoke defs t rest with
      | .error e => .error e
      | .ok (produced, after) =>
        expand defs (produced.map (Token.retag t.pos (t.depth + 1)) ++ after)
termination_by expansionRank ts
decreasing_by
  · exact rank_lt_of_suffix (Token.drop_afterLine_suffix rest)
  · exact rank_lt_of_suffix List.suffix_rfl
  · exact rank_lt_of_invoke _h

/-- The token list with its definitions collected and its invocations expanded. -/
def preprocess (ts : List Token) : Except Error (List Token) := do
  let ss ← (segments ts).result
  expand (.ofSegments ss) (ss.flatMap Segment.kept)

end Bisc
