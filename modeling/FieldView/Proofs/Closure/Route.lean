import FieldView.Callable.Walk

/-!
# Routes through a closure graph

An environment binds names to values, some of the values are callables, and a callable may have an
environment of its own. A route follows such bindings inwards. This file says what a route is, apart
from any walk, and what an environment binds. The walk is compared with it in
`FieldView/Proofs/Closure/Unfolding.lean`.

`ClosureGraph.Leads` is the relation everything else is stated with: the visits along a route, from
the environment where it begins to the one where it ends. A route to a callable is such a run and one
more binding (`ClosureGraph.Route`).
-/

set_option autoImplicit false

namespace FieldView

/-! ## What an environment binds -/

theorem compare_eq_lt_iff {a b : String} : compare a b = .lt ↔ a < b := by
  simp only [compare, String.compare, compareOfLessAndEq]
  split
  · simp [*]
  · split <;> simp [*]

namespace Environment

/-- The merged map and the look-up agree on which of two values of a name counts. -/
theorem getElem?_all (e : Environment) (name : String) : e.all[name]? = e.get? name := by
  unfold all get?
  cases h : e.globals[name]? with
  | some value =>
    rw [Option.some_or]
    have hmem : (name, value) ∈ e.globals.toList :=
      Std.TreeMap.mem_toList_iff_getElem?_eq_some.mpr h
    exact Std.TreeMap.getElem?_insertMany_list_of_mem Std.ReflCmp.compare_self
      Std.TreeMap.distinct_keys_toList hmem
  | none =>
    rw [Option.none_or]
    refine Std.TreeMap.getElem?_insertMany_list_of_contains_eq_false ?_
    rw [Std.TreeMap.map_fst_toList_eq_keys, Std.TreeMap.contains_keys]
    rw [Std.TreeMap.contains_eq_isSome_getElem?, h]
    rfl

theorem mem_toList_all {e : Environment} {name : String} {value : Value} :
    (name, value) ∈ e.all.toList ↔ e.get? name = some value := by
  rw [Std.TreeMap.mem_toList_iff_getElem?_eq_some, getElem?_all]

theorem mem_all_iff {e : Environment} {name : String} :
    name ∈ e.all ↔ name ∈ e.nonlocals ∨ name ∈ e.globals := by
  rw [Std.TreeMap.mem_iff_isSome_getElem?, getElem?_all, get?, Option.isSome_or, Bool.or_eq_true,
    ← Std.TreeMap.mem_iff_isSome_getElem?, ← Std.TreeMap.mem_iff_isSome_getElem?, or_comm]

/-- The bindings are listed by ascending name. -/
theorem pairwise_toList_all (e : Environment) :
    e.all.toList.Pairwise fun a b => a.1 < b.1 :=
  Std.TreeMap.ordered_keys_toList.imp compare_eq_lt_iff.mp

/-- The environment binds the name of a visit to its callable. -/
def Binds (e : Environment) (v : Visit) : Prop :=
  ∃ handle : Handle, e.get? v.name = some (.callable handle) ∧ handle.id = v.id

end Environment

/-! ## Routes -/

namespace ClosureGraph

/-- The visits of the list lead from one environment to another, each into the environment of the
callable that it comes to. -/
inductive Leads (g : ClosureGraph) : Environment → List Visit → Environment → Prop
  | nil (e : Environment) : Leads g e [] e
  | cons {e inner last : Environment} {v : Visit} {trail : List Visit} :
      e.Binds v → g.environment? v.id = some inner → Leads g inner trail last →
      Leads g e (v :: trail) last

/-- A route to a callable: its last visit is of that callable, the others lead up to it. -/
def Route (g : ClosureGraph) (e : Environment) (route : List Visit) : Prop :=
  ∃ trail v last, route = trail ++ [v] ∧ g.Leads e trail last ∧ last.Binds v

/-- An environment that can be got to. -/
def Reaches (g : ClosureGraph) (e last : Environment) : Prop := ∃ trail, g.Leads e trail last

/-- One callable closes over another. -/
def Captures (g : ClosureGraph) (id id' : Nat) : Prop :=
  ∃ e v, g.environment? id = some e ∧ e.Binds v ∧ v.id = id'

theorem Reaches.refl (g : ClosureGraph) (e : Environment) : g.Reaches e e := ⟨[], .nil e⟩

theorem Leads.trans {g : ClosureGraph} {e mid last : Environment} {trail trail' : List Visit}
    (h : g.Leads e trail mid) (h' : g.Leads mid trail' last) :
    g.Leads e (trail ++ trail') last := by
  induction h with
  | nil => exact h'
  | cons hb hi _ ih => exact .cons hb hi (ih h')

theorem Leads.snoc {g : ClosureGraph} {e mid last : Environment} {trail : List Visit} {v : Visit}
    (h : g.Leads e trail mid) (hb : mid.Binds v) (hi : g.environment? v.id = some last) :
    g.Leads e (trail ++ [v]) last :=
  h.trans (.cons hb hi (.nil last))

/-- A run of visits can be cut anywhere. -/
theorem Leads.split {g : ClosureGraph} {e last : Environment} {before after : List Visit}
    (h : g.Leads e (before ++ after) last) :
    ∃ mid, g.Leads e before mid ∧ g.Leads mid after last := by
  induction before generalizing e with
  | nil => exact ⟨e, .nil e, h⟩
  | cons v before ih =>
    cases h with
    | cons hb hi ht =>
      obtain ⟨mid, hm, ha⟩ := ih ht
      exact ⟨mid, .cons hb hi hm, ha⟩

theorem Reaches.step {g : ClosureGraph} {e mid last : Environment} {v : Visit}
    (h : g.Reaches e mid) (hb : mid.Binds v) (hi : g.environment? v.id = some last) :
    g.Reaches e last := by
  obtain ⟨trail, ht⟩ := h
  exact ⟨trail ++ [v], ht.snoc hb hi⟩

theorem route_snoc_iff {g : ClosureGraph} {e : Environment} {trail : List Visit} {v : Visit} :
    g.Route e (trail ++ [v]) ↔ ∃ last, g.Leads e trail last ∧ last.Binds v := by
  constructor
  · intro h
    obtain ⟨trail', w, last, heq, hl, hb⟩ := h
    obtain ⟨rfl, rfl⟩ : trail = trail' ∧ v = w := by simpa using List.append_inj' heq rfl
    exact ⟨last, hl, hb⟩
  · intro h
    obtain ⟨last, hl, hb⟩ := h
    exact ⟨trail, v, last, rfl, hl, hb⟩

theorem not_route_nil {g : ClosureGraph} {e : Environment} : ¬ g.Route e [] := by
  intro hroute
  obtain ⟨trail, v, _, h, _⟩ := hroute
  simp at h

/-- A route begins with a binding, and either ends there or goes on inside. -/
theorem route_cons_iff {g : ClosureGraph} {e : Environment} {v : Visit} {route : List Visit} :
    g.Route e (v :: route) ↔
      e.Binds v ∧ (route = [] ∨ ∃ inner, g.environment? v.id = some inner ∧ g.Route inner route) := by
  constructor
  · intro hroute
    obtain ⟨trail, w, last, heq, hl, hb⟩ := hroute
    cases hl with
    | nil =>
      simp only [List.nil_append, List.cons.injEq] at heq
      obtain ⟨rfl, rfl⟩ := heq
      exact ⟨hb, .inl rfl⟩
    | cons hb' hi ht =>
      simp only [List.cons_append, List.cons.injEq] at heq
      obtain ⟨rfl, rfl⟩ := heq
      exact ⟨hb', .inr ⟨_, hi, _, w, last, rfl, ht, hb⟩⟩
  · intro hroute
    rcases hroute with ⟨hb, rfl | ⟨inner, hi, trail, w, last, rfl, hl, hw⟩⟩
    · exact ⟨[], v, e, rfl, .nil e, hb⟩
    · exact ⟨v :: trail, w, last, rfl, .cons hb hi hl, hw⟩

/-- A callable closes, in one or more steps, over what is bound at the end of a run from its own
environment. -/
theorem captures_of_leads {g : ClosureGraph} {e last : Environment} {v : Visit}
    {trail : List Visit} (h : g.Leads e trail last) (hb : last.Binds v) {id : Nat}
    (he : g.environment? id = some e) : Relation.TransGen g.Captures id v.id := by
  induction h generalizing id with
  | nil e => exact .single ⟨e, v, he, hb, rfl⟩
  | @cons e inner last w trail hw hi _ ih =>
    have hstep : g.Captures id w.id := ⟨e, w, he, hw, rfl⟩
    exact .trans (.single hstep) (ih hb hi)

end ClosureGraph

end FieldView
