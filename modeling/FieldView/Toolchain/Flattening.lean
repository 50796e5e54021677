import FieldView.Callable.Walk
import FieldView.Toolchain.Basic

/-!
# Flattening

The definitions of all functions that an environment leads to. Each function is lowered when the
walk over the closure graph comes to it, and the first failure ends the walk: what lies behind it is
not looked at, however much that is. The outcome is that of the whole walk, with its visits lowered
in order and its own fault at the end (`collectFrom_eq_walkFrom`).
-/

set_option autoImplicit false

namespace FieldView

variable {σ α : Type}

/-! ## One function -/

/-- What a callable lowers to. A late function stands for the value at its one argument. -/
def Callable.lower (t : Toolchain σ) : Callable → Stage σ Fencil.Definition
  | .operator u => t.lowerOperator u.node
  | .late id _ _ => return { id, params := ["x"], body := .call (.ref "deref") [.ref "x"] }

/-- Lowers a visited callable, whose definition must have the name that it is captured under. -/
def Visit.lower (t : Toolchain σ) (callables : List Callable) (v : Visit) :
    Stage σ Fencil.Definition :=
  match callables[v.id]? with
  | none => throw (.noCallable v.name)
  | some c => do
    let d ← c.lower t
    if d.id = v.name then return d else throw (.closure (.nameMismatch v.name d.id))

/-! ## All functions -/

namespace ClosureGraph

/-- What a stage answers at each visit of the walk over some bindings, inside the callables of a
trail. -/
def collectFrom (g : ClosureGraph) (visit : Visit → Stage σ α) (trail : List Visit) :
    List (String × Value) → Stage σ (List α)
  | [] => return []
  | (name, value) :: rest =>
    match value with
    | .callable handle =>
      if _visited : onTrail trail handle.id then
        throw (.closure (.cyclic (namesFrom trail handle.id ++ [name])))
      else do
        let here ← visit ⟨name, handle.id⟩
        match _found : g.environment? handle.id with
        | none => return here :: (← g.collectFrom visit trail rest)
        | some e =>
          let inner ← g.collectFrom visit (trail ++ [⟨name, handle.id⟩]) e.all.toList
          return here :: (inner ++ (← g.collectFrom visit trail rest))
    | value =>
      if value.isTypeOnly then g.collectFrom visit trail rest
      else throw (.closure (.unsupportedValue name value.describe))
termination_by bindings => (g.unvisited trail, bindings.length)
decreasing_by
  · exact Prod.Lex.right _ (by simp)
  · exact Prod.Lex.left _ _ (unvisited_lt (lt_length_of_environment? _found) _visited)
  · exact Prod.Lex.right _ (by simp)
  · exact Prod.Lex.right _ (by simp)

end ClosureGraph

/-- What a stage answers at the visits of a walk. What stopped the walk is an error after them. -/
def Walk.collect (w : Walk) (visit : Visit → Stage σ α) : Stage σ (List α) := do
  let answers ← w.visits.mapM visit
  match w.fault with
  | some fault => throw (.closure fault)
  | none => return answers

namespace Walk

theorem collect_cons (v : Visit) (w : Walk) (visit : Visit → Stage σ α) :
    (w.cons v).collect visit = do
      let here ← visit v
      return here :: (← w.collect visit) := by
  unfold collect cons
  cases w.fault <;> simp [List.mapM_cons]

theorem collect_append (vs : List Visit) (w : Walk) (visit : Visit → Stage σ α) :
    (w.append vs).collect visit = do
      let before ← vs.mapM visit
      return before ++ (← w.collect visit) := by
  unfold collect append
  cases w.fault <;> simp [List.mapM_append]

/-- After a walk that was stopped nothing else is done. -/
theorem collect_bind_of_fault {β : Type} {w : Walk} {fault : ClosureError}
    (h : w.fault = some fault) (visit : Visit → Stage σ α) (f f' : List α → Stage σ β) :
    (w.collect visit >>= f) = (w.collect visit >>= f') := by
  simp [collect, h]

theorem collect_of_done {w : Walk} (h : w.fault = none) (visit : Visit → Stage σ α) :
    w.collect visit = w.visits.mapM visit := by
  simp [collect, h]

end Walk

/-- Visiting as the walk goes on is visiting after the walk. -/
theorem ClosureGraph.collectFrom_eq_walkFrom (g : ClosureGraph) (visit : Visit → Stage σ α)
    (trail : List Visit) (bindings : List (String × Value)) :
    g.collectFrom visit trail bindings = (g.walkFrom trail bindings).collect visit := by
  fun_induction ClosureGraph.walkFrom g trail bindings with
  | case1 => simp [collectFrom, Walk.collect]
  | case2 trail name rest handle visited =>
    rw [collectFrom, dif_pos visited]
    simp [Walk.collect]
  | case3 trail name rest handle visited found ih =>
    rw [collectFrom, dif_neg visited, Walk.collect_cons]
    refine bind_congr fun here => ?_
    split
    · rw [ih]
    · simp_all
  | case4 trail name rest handle visited e found inner fault stopped ih =>
    rw [collectFrom, dif_neg visited, Walk.collect_cons]
    refine bind_congr fun here => ?_
    split
    · simp_all
    · obtain rfl : _ = e := Option.some.inj (Eq.trans (Eq.symm ‹_›) found)
      rw [ih]
      exact Walk.collect_bind_of_fault stopped _ _ _
  | case5 trail name rest handle visited e found inner done ihInner ihRest =>
    rw [collectFrom, dif_neg visited, Walk.collect_cons, Walk.collect_append]
    refine bind_congr fun here => ?_
    split
    · simp_all
    · obtain rfl : _ = e := Option.some.inj (Eq.trans (Eq.symm ‹_›) found)
      rw [ihInner, ihRest, Walk.collect_of_done done]
      simp
  | case6 trail name rest value uncallable typeOnly ih =>
    rw [collectFrom.eq_3 _ _ _ _ _ _ uncallable, if_pos typeOnly, ih]
  | case7 trail name rest value uncallable typeOnly =>
    rw [collectFrom.eq_3 _ _ _ _ _ _ uncallable, if_neg typeOnly]
    simp [Walk.collect]

/-- What each of the callables closes over. -/
def closureGraph (callables : List Callable) : ClosureGraph := callables.map Callable.captured

/-- The definitions of all functions that an environment leads to. -/
def flatten (t : Toolchain σ) (callables : List Callable) (e : Environment) :
    Stage σ (List Fencil.Definition) :=
  (closureGraph callables).collectFrom (Visit.lower t callables) [] e.all.toList

end FieldView
