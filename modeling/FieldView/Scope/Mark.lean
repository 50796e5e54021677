import FieldView.Scope.Position

/-!
# What an expression and a target do to names

Reading a run of tokens leaves marks: this name is bound here, that one is read. Names after a dot
are attributes and leave none, and neither do the names of keyword arguments. A lambda is a scope of
its own and is passed over. So is a comprehension, except that its first iterable is evaluated
outside it.
-/

set_option autoImplicit false

namespace FieldView.Scope

/-- One occurrence of a name that matters to its scope. -/
inductive Mark
  | binds (name : String)
  | reads (name : String)
  | imports (name : String)
  | declaresGlobal (name : String)
  | declaresNonlocal (name : String)
deriving DecidableEq, Repr

/-- The mark of a name in an expression, by the tokens after it. -/
def nameMarks (name : String) : List Token → List Mark
  | [] => [.reads name]
  | t :: _ =>
    match t.kind with
    | .punct .walrus => [.binds name]
    | .punct .eq => []
    | _ => [.reads name]

/-- What ends the iterable of a comprehension clause. -/
def endsIterable (k : Kind) : Bool :=
  k == .keyword .forKw || k == .keyword .ifKw || k == .keyword .asyncKw

/-- The first iterable of the comprehension whose clauses follow the `for` before the run. -/
def firstIterable (clauses : List Token) : List Token :=
  let iterable := clauses.drop (topAt (· == .keyword .inKw) clauses + 1)
  iterable.take (topAt endsIterable iterable)

theorem length_firstIterable_le (clauses : List Token) :
    (firstIterable clauses).length ≤ clauses.length := by
  simp only [firstIterable, List.length_take, List.length_drop]
  omega

/-- The marks of an expression. `afterDot` says whether a dot stands before the run. -/
def exprMarks (afterDot : Bool) (ts : List Token) : List Mark :=
  match ts with
  | [] => []
  | t :: ts =>
    match t.kind with
    | .ident name => (if afterDot then [] else nameMarks name ts) ++ exprMarks false ts
    | .keyword .lambdaKw => exprMarks false (ts.drop (lambdaEnd ts))
    | .opening _ =>
      let close := closingAt ts
      let inner := ts.take close
      let forAt := topAt (· == .keyword .forKw) inner
      if forAt < inner.length then
        exprMarks false (firstIterable (inner.drop (forAt + 1))) ++
          exprMarks false (ts.drop (close + 1))
      else exprMarks false ts
    | k => exprMarks (k == .punct .dot) ts
termination_by ts.length
decreasing_by
  · simp
  · simp only [List.length_drop, List.length_cons]; omega
  · refine Nat.lt_of_le_of_lt (length_firstIterable_le _) ?_
    simp only [List.length_drop, List.length_take, List.length_cons]
    omega
  · simp only [List.length_drop, List.length_cons]; omega
  · simp
  · simp

/-- Whether a run ends with a dot. -/
def endsWithDot (ts : List Token) : Bool := ts.getLast?.any (·.kind == .punct .dot)

/-- The marks of an assignment target. A name with a trailer is read and not bound. -/
def targetMarks (afterDot : Bool) (ts : List Token) : List Mark :=
  match ts with
  | [] => []
  | t :: ts =>
    match t.kind with
    | .ident name =>
      if afterDot then targetMarks false ts
      else if ts.head?.any (beginsTrailer ·.kind) then
        let trailer := ts.take (trailerEnd ts)
        .reads name :: exprMarks false trailer ++
          targetMarks (endsWithDot trailer) (ts.drop (trailerEnd ts))
      else .binds name :: targetMarks false ts
    | k => targetMarks (k == .punct .dot) ts
termination_by ts.length
decreasing_by all_goals (simp only [List.length_drop, List.length_cons]; omega)

end FieldView.Scope
