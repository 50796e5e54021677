import FieldView.Error

/-!
# Walking a closure graph

Functions close over functions, so environments span a graph. A walk visits, depth first and in the
order of names, every callable that an environment leads to, once for each way that leads to it. It
stops at a value that cannot be closed over, and where it comes to a callable that it is inside of.

The callables that the walk is inside of make up its trail. A walk ends because it only goes into
callables that are not on the trail, and there are finitely many (`unvisited_lt`).
-/

set_option autoImplicit false

namespace FieldView

/-- A callable that a walk comes to, with the name that it is captured under. -/
structure Visit where
  name : String
  id : Nat
deriving DecidableEq, Repr

/-- The environments of callables by identity. Not every callable has one. -/
abbrev ClosureGraph := List (Option Environment)

namespace ClosureGraph

/-- The environment of a callable. -/
def environment? (g : ClosureGraph) (id : Nat) : Option Environment := g[id]?.join

/-- Whether a callable is on a trail. -/
def onTrail (trail : List Visit) (id : Nat) : Bool := trail.any (·.id == id)

/-- How many callables of the graph are not on a trail. -/
def unvisited (g : ClosureGraph) (trail : List Visit) : Nat :=
  (List.range g.length).countP (!onTrail trail ·)

theorem lt_length_of_environment? {g : ClosureGraph} {id : Nat} {e : Environment}
    (h : g.environment? id = some e) : id < g.length := by
  unfold environment? at h
  cases hget : g[id]? with
  | none => simp [hget] at h
  | some x => exact (List.getElem?_eq_some_iff.mp hget).1

/-- Fewer members of a list pass a narrower test that one of them fails. -/
theorem countP_lt_countP {α : Type} {p q : α → Bool} {x : α} {l : List α} (hx : x ∈ l)
    (hp : p x = true) (hq : q x = false) (hqp : ∀ a, q a = true → p a = true) :
    l.countP q < l.countP p := by
  have mono : ∀ m : List α, m.countP q ≤ m.countP p := fun m =>
    List.countP_mono_left fun a _ => hqp a
  induction l with
  | nil => simp at hx
  | cons a l ih =>
    simp only [List.countP_cons]
    rcases List.mem_cons.mp hx with rfl | hx
    · have := mono l
      simp only [hp, hq, if_true]
      simp
      omega
    · have := ih hx
      by_cases ha : q a = true
      · simp [ha, hqp a ha]; omega
      · simp [ha]; omega

theorem unvisited_lt {g : ClosureGraph} {trail : List Visit} {v : Visit}
    (hlt : v.id < g.length) (h : ¬ onTrail trail v.id = true) :
    g.unvisited (trail ++ [v]) < g.unvisited trail := by
  refine countP_lt_countP (x := v.id) (List.mem_range.mpr hlt) ?_ ?_ ?_
  · simp [h]
  · simp [onTrail]
  · intro a ha
    simp only [onTrail, List.any_append, Bool.not_or, Bool.and_eq_true] at ha
    exact ha.1

end ClosureGraph

/-- What a walk has come to, in order, and what stopped it. -/
structure Walk where
  visits : List Visit := []
  fault : Option ClosureError := none
deriving DecidableEq, Repr

namespace Walk

/-- A visit before a walk. -/
def cons (v : Visit) (w : Walk) : Walk := { w with visits := v :: w.visits }

/-- Visits before a walk. -/
def append (vs : List Visit) (w : Walk) : Walk := { w with visits := vs ++ w.visits }

end Walk

namespace ClosureGraph

/-- The names along the trail from a callable on. -/
def namesFrom (trail : List Visit) (id : Nat) : List String :=
  (trail.dropWhile (·.id != id)).map (·.name)

/-- The walk over some bindings, inside the callables of a trail. -/
def walkFrom (g : ClosureGraph) (trail : List Visit) : List (String × Value) → Walk
  | [] => {}
  | (name, value) :: rest =>
    match value with
    | .callable handle =>
      if _visited : onTrail trail handle.id then
        { fault := some (.cyclic (namesFrom trail handle.id ++ [name])) }
      else
        match _found : g.environment? handle.id with
        | none => (g.walkFrom trail rest).cons ⟨name, handle.id⟩
        | some e =>
          let inner := g.walkFrom (trail ++ [⟨name, handle.id⟩]) e.all.toList
          match inner.fault with
          | some _ => inner.cons ⟨name, handle.id⟩
          | none => ((g.walkFrom trail rest).append inner.visits).cons ⟨name, handle.id⟩
    | value =>
      if value.isTypeOnly then g.walkFrom trail rest
      else { fault := some (.unsupportedValue name value.describe) }
termination_by bindings => (g.unvisited trail, bindings.length)
decreasing_by
  · exact Prod.Lex.right _ (by simp)
  · exact Prod.Lex.left _ _ (unvisited_lt (lt_length_of_environment? _found) _visited)
  · exact Prod.Lex.right _ (by simp)
  · exact Prod.Lex.right _ (by simp)

/-- The walk over an environment. -/
def walk (g : ClosureGraph) (e : Environment) : Walk := g.walkFrom [] e.all.toList

end ClosureGraph

end FieldView
