import FieldView.Proofs.Closure.Route
import FieldView.Toolchain.Flattening

/-!
# The unfolding of a closure graph

A closure graph without cycles unfolds into a forest: a node for every route, with the routes that go
one step further below it. `ClosureGraph.Unfolds` is that relation, by rules on the bindings, and a
finite forest is all there is to it: nothing that unfolds has a cycle (`Unfolds.not_captures_self`),
because the forest below a callable is smaller than the one around it.

The walk is then compared with the forest. `unfolds_of_walkFrom` says that a walk which is not
stopped lists the forest, parents before children; `stops_of_walkFrom_fault` says that what stops a
walk is really there. Together they decide whether an environment can be walked
(`walk_fault_eq_none_iff`).
-/

set_option autoImplicit false

namespace FieldView

/-- Trees of visits side by side: the first tree's root, what is below it, and the other trees. -/
inductive Forest
  | nil
  | node (v : Visit) (inner rest : Forest)

namespace Forest

/-- The nodes, each before the nodes below it. -/
def visits : Forest → List Visit
  | nil => []
  | node v inner rest => v :: (inner.visits ++ rest.visits)

/-- The way from a root to each node, in the order of `visits`. -/
def routes : Forest → List (List Visit)
  | nil => []
  | node v inner rest => [v] :: (inner.routes.map (v :: ·) ++ rest.routes)

def size : Forest → Nat
  | nil => 0
  | node _ inner rest => inner.size + rest.size + 1

theorem ne_nil_of_mem_routes {f : Forest} {r : List Visit} (h : r ∈ f.routes) : r ≠ [] := by
  induction f generalizing r with
  | nil => simp [routes] at h
  | node v inner rest _ ihRest =>
    simp only [routes, List.mem_cons, List.mem_append, List.mem_map] at h
    rcases h with rfl | ⟨r', _, rfl⟩ | h
    · simp
    · simp
    · exact ihRest h

/-- A route ends at the node that it is the way to. -/
theorem getLast?_routes (f : Forest) : f.routes.map List.getLast? = f.visits.map some := by
  induction f with
  | nil => rfl
  | node v inner rest ihInner ihRest =>
    have hinner : (inner.routes.map (v :: ·)).map List.getLast? = inner.routes.map List.getLast? := by
      rw [List.map_map]
      refine List.map_congr_left fun r hr => ?_
      obtain ⟨w, r, rfl⟩ := List.exists_cons_of_ne_nil (ne_nil_of_mem_routes hr)
      simp
    simp only [routes, visits, List.map_cons, List.map_append, hinner, ihInner, ihRest]
    rfl

theorem mem_visits_iff {f : Forest} {v : Visit} : v ∈ f.visits ↔ ∃ trail, trail ++ [v] ∈ f.routes := by
  have hmem : some v ∈ f.routes.map List.getLast? ↔ v ∈ f.visits := by
    rw [getLast?_routes]
    simp
  rw [← hmem, List.mem_map]
  constructor
  · intro h
    obtain ⟨r, hr, hlast⟩ := h
    obtain ⟨trail, rfl⟩ := List.getLast?_eq_some_iff.mp hlast
    exact ⟨trail, hr⟩
  · intro h
    obtain ⟨trail, hr⟩ := h
    exact ⟨trail ++ [v], hr, by simp⟩

end Forest

/-! ## Unfolding -/

namespace ClosureGraph

/-- The bindings unfold into a forest: a tree for each callable, in the order of the bindings, and
nothing for what matters to types only. -/
inductive Unfolds (g : ClosureGraph) : List (String × Value) → Forest → Prop
  | nil : Unfolds g [] .nil
  | typeOnly {name : String} {value : Value} {rest : List (String × Value)} {f : Forest} :
      value.isTypeOnly = true → Unfolds g rest f → Unfolds g ((name, value) :: rest) f
  | leaf {name : String} {handle : Handle} {rest : List (String × Value)} {f : Forest} :
      g.environment? handle.id = none → Unfolds g rest f →
      Unfolds g ((name, .callable handle) :: rest) (.node ⟨name, handle.id⟩ .nil f)
  | branch {name : String} {handle : Handle} {e : Environment} {rest : List (String × Value)}
      {inner f : Forest} :
      g.environment? handle.id = some e → Unfolds g e.all.toList inner → Unfolds g rest f →
      Unfolds g ((name, .callable handle) :: rest) (.node ⟨name, handle.id⟩ inner f)

/-- Bindings unfold into one forest at most. -/
theorem Unfolds.unique {g : ClosureGraph} {bindings : List (String × Value)} {f f' : Forest}
    (h : g.Unfolds bindings f) (h' : g.Unfolds bindings f') : f = f' := by
  induction h generalizing f' with
  | nil => cases h'; rfl
  | typeOnly ht _ ih =>
    cases h' with
    | typeOnly _ hr => exact ih hr
    | leaf => simp [Value.isTypeOnly] at ht
    | branch => simp [Value.isTypeOnly] at ht
  | leaf hn _ ih =>
    cases h' with
    | typeOnly ht _ => simp [Value.isTypeOnly] at ht
    | leaf _ hr => rw [ih hr]
    | branch hs _ _ => rw [hn] at hs; cases hs
  | branch hs _ _ ihInner ihRest =>
    cases h' with
    | typeOnly ht _ => simp [Value.isTypeOnly] at ht
    | leaf hn _ => rw [hs] at hn; cases hn
    | branch hs' hi hr =>
      rw [hs] at hs'
      cases hs'
      rw [ihInner hi, ihRest hr]

theorem Unfolds.value_cases {g : ClosureGraph} {bindings : List (String × Value)} {f : Forest}
    (h : g.Unfolds bindings f) {name : String} {value : Value} (hm : (name, value) ∈ bindings) :
    (∃ handle, value = .callable handle) ∨ value.isTypeOnly = true := by
  induction h with
  | nil => simp at hm
  | typeOnly ht _ ih =>
    rcases List.mem_cons.mp hm with heq | hm
    · cases heq; exact .inr ht
    · exact ih hm
  | leaf _ _ ih =>
    rcases List.mem_cons.mp hm with heq | hm
    · cases heq; exact .inl ⟨_, rfl⟩
    · exact ih hm
  | branch _ _ _ _ ih =>
    rcases List.mem_cons.mp hm with heq | hm
    · cases heq; exact .inl ⟨_, rfl⟩
    · exact ih hm

/-- What a callable closes over unfolds too, into a smaller forest. -/
theorem Unfolds.inner {g : ClosureGraph} {bindings : List (String × Value)} {f : Forest}
    (h : g.Unfolds bindings f) {name : String} {handle : Handle} {e : Environment}
    (hm : (name, .callable handle) ∈ bindings) (he : g.environment? handle.id = some e) :
    ∃ f', g.Unfolds e.all.toList f' ∧ f'.size < f.size := by
  induction h with
  | nil => simp at hm
  | typeOnly ht _ ih =>
    rcases List.mem_cons.mp hm with heq | hm
    · cases heq; simp [Value.isTypeOnly] at ht
    · exact ih hm
  | leaf hn _ ih =>
    rcases List.mem_cons.mp hm with heq | hm
    · cases heq; rw [hn] at he; cases he
    · obtain ⟨f', hf, hlt⟩ := ih hm
      exact ⟨f', hf, by simp only [Forest.size]; omega⟩
  | branch hs hi _ _ ih =>
    rcases List.mem_cons.mp hm with heq | hm
    · cases heq
      rw [hs] at he
      cases he
      exact ⟨_, hi, by simp only [Forest.size]; omega⟩
    · obtain ⟨f', hf, hlt⟩ := ih hm
      exact ⟨f', hf, by simp only [Forest.size]; omega⟩

/-- `Unfolds.inner` along a binding of an environment. -/
theorem Unfolds.step {g : ClosureGraph} {e inner : Environment} {f : Forest} {v : Visit}
    (h : g.Unfolds e.all.toList f) (hb : e.Binds v) (hi : g.environment? v.id = some inner) :
    ∃ f', g.Unfolds inner.all.toList f' ∧ f'.size < f.size := by
  obtain ⟨handle, hget, hid⟩ := hb
  exact h.inner (Environment.mem_toList_all.mpr hget) (hid ▸ hi)

theorem Unfolds.reaches {g : ClosureGraph} {e last : Environment} {f : Forest}
    (h : g.Unfolds e.all.toList f) (hr : g.Reaches e last) :
    ∃ f', g.Unfolds last.all.toList f' := by
  obtain ⟨trail, hl⟩ := hr
  induction hl generalizing f with
  | nil => exact ⟨f, h⟩
  | cons hb hi _ ih =>
    obtain ⟨f', hf, _⟩ := h.step hb hi
    exact ih hf

/-- Whatever a callable closes over, directly or not, unfolds into less than it does. -/
theorem Unfolds.size_lt {g : ClosureGraph} {id id' : Nat} {e e' : Environment} {f : Forest}
    (h : g.Unfolds e.all.toList f) (hc : Relation.TransGen g.Captures id id')
    (he : g.environment? id = some e) (he' : g.environment? id' = some e') :
    ∃ f', g.Unfolds e'.all.toList f' ∧ f'.size < f.size := by
  induction hc generalizing e' with
  | single hcap =>
    obtain ⟨e₁, v, he₁, hb, rfl⟩ := hcap
    rw [he] at he₁
    cases he₁
    exact h.step hb he'
  | tail _ hcap ih =>
    -- The last step goes into a forest inside of the one that the steps before it lead to.
    obtain ⟨mid, v, hmid, hb, rfl⟩ := hcap
    obtain ⟨f₁, hf₁, hlt₁⟩ := ih hmid
    obtain ⟨f₂, hf₂, hlt₂⟩ := hf₁.step hb he'
    exact ⟨f₂, hf₂, Nat.lt_trans hlt₂ hlt₁⟩

theorem exists_environment_of_captures {g : ClosureGraph} {id id' : Nat}
    (hc : Relation.TransGen g.Captures id id') : ∃ e, g.environment? id = some e := by
  induction hc with
  | single hcap => exact ⟨hcap.choose, hcap.choose_spec.choose_spec.1⟩
  | tail _ _ ih => exact ih

/-- **Nothing that unfolds has a cycle.** The forest of a callable that closes over itself would be
smaller than itself. -/
theorem Unfolds.not_captures_self {g : ClosureGraph} {e last : Environment} {f : Forest} {v : Visit}
    (h : g.Unfolds e.all.toList f) (hr : g.Reaches e last) (hb : last.Binds v) :
    ¬ Relation.TransGen g.Captures v.id v.id := by
  intro hc
  obtain ⟨inner, hi⟩ := exists_environment_of_captures hc
  obtain ⟨f₁, hf₁⟩ := h.reaches (hr.step hb hi)
  -- The cycle leads from the environment back to itself, and bindings have one forest.
  obtain ⟨f₂, hf₂, hlt⟩ := hf₁.size_lt hc hi hi
  rw [hf₁.unique hf₂] at hlt
  exact Nat.lt_irrefl _ hlt

/-! ## The routes of the unfolding -/

/-- A visit is listed among the bindings. -/
def Listed (bindings : List (String × Value)) (v : Visit) : Prop :=
  ∃ handle, (v.name, Value.callable handle) ∈ bindings ∧ handle.id = v.id

theorem listed_toList_all {e : Environment} {v : Visit} : Listed e.all.toList v ↔ e.Binds v := by
  simp only [Listed, Environment.Binds, Environment.mem_toList_all]

theorem listed_cons_callable {name : String} {handle : Handle} {rest : List (String × Value)}
    {v : Visit} :
    Listed ((name, .callable handle) :: rest) v ↔ v = ⟨name, handle.id⟩ ∨ Listed rest v := by
  constructor
  · intro hlisted
    obtain ⟨h, hm, hid⟩ := hlisted
    rcases List.mem_cons.mp hm with heq | hm
    · cases heq
      cases v
      simp_all
    · exact .inr ⟨h, hm, hid⟩
  · intro hlisted
    rcases hlisted with rfl | ⟨h, hm, hid⟩
    · exact ⟨handle, by simp, rfl⟩
    · exact ⟨h, List.mem_cons_of_mem _ hm, hid⟩

theorem listed_cons_typeOnly {name : String} {value : Value} {rest : List (String × Value)}
    {v : Visit} (ht : value.isTypeOnly = true) : Listed ((name, value) :: rest) v ↔ Listed rest v := by
  constructor
  · intro hlisted
    obtain ⟨h, hm, hid⟩ := hlisted
    rcases List.mem_cons.mp hm with heq | hm
    · cases heq; simp [Value.isTypeOnly] at ht
    · exact ⟨h, hm, hid⟩
  · intro hlisted
    obtain ⟨h, hm, hid⟩ := hlisted
    exact ⟨h, List.mem_cons_of_mem _ hm, hid⟩

/-- A route over a list of bindings; over those of an environment it is a route from there. -/
def RouteAmong (g : ClosureGraph) (bindings : List (String × Value)) (route : List Visit) : Prop :=
  ∃ v tail, route = v :: tail ∧ Listed bindings v ∧
    (tail = [] ∨ ∃ inner, g.environment? v.id = some inner ∧ g.Route inner tail)

theorem routeAmong_toList_all {g : ClosureGraph} {e : Environment} {route : List Visit} :
    g.RouteAmong e.all.toList route ↔ g.Route e route := by
  cases route with
  | nil =>
    refine ⟨?_, fun h => absurd h not_route_nil⟩
    intro hamong
    obtain ⟨v, tail, heq, _⟩ := hamong
    cases heq
  | cons v route =>
    rw [route_cons_iff, ← listed_toList_all]
    constructor
    · intro hamong
      obtain ⟨_, _, heq, hl, hr⟩ := hamong
      cases heq
      exact ⟨hl, hr⟩
    · intro hroute
      obtain ⟨hl, hr⟩ := hroute
      exact ⟨v, route, rfl, hl, hr⟩

theorem routeAmong_cons_callable {g : ClosureGraph} {name : String} {handle : Handle}
    {rest : List (String × Value)} {route : List Visit} :
    g.RouteAmong ((name, .callable handle) :: rest) route ↔
      route = [⟨name, handle.id⟩] ∨
      (∃ inner tail, g.environment? handle.id = some inner ∧ g.Route inner tail ∧
        route = ⟨name, handle.id⟩ :: tail) ∨
      g.RouteAmong rest route := by
  constructor
  · intro hamong
    obtain ⟨v, tail, rfl, hl, hr⟩ := hamong
    rcases listed_cons_callable.mp hl with rfl | hl
    · rcases hr with rfl | ⟨inner, hi, hr⟩
      · exact .inl rfl
      · exact .inr (.inl ⟨inner, tail, hi, hr, rfl⟩)
    · exact .inr (.inr ⟨v, tail, rfl, hl, hr⟩)
  · intro hroute
    rcases hroute with rfl | ⟨inner, tail, hi, hr, rfl⟩ | ⟨v, tail, rfl, hl, hr⟩
    · exact ⟨_, [], rfl, listed_cons_callable.mpr (.inl rfl), .inl rfl⟩
    · exact ⟨_, tail, rfl, listed_cons_callable.mpr (.inl rfl), .inr ⟨inner, hi, hr⟩⟩
    · exact ⟨v, tail, rfl, listed_cons_callable.mpr (.inr hl), hr⟩

/-- The nodes of the unfolding are the routes. -/
theorem Unfolds.mem_routes {g : ClosureGraph} {bindings : List (String × Value)} {f : Forest}
    (h : g.Unfolds bindings f) (route : List Visit) :
    route ∈ f.routes ↔ g.RouteAmong bindings route := by
  induction h generalizing route with
  | nil =>
    refine ⟨fun h => by simp [Forest.routes] at h, ?_⟩
    intro hamong
    obtain ⟨_, _, _, ⟨_, hm, _⟩, _⟩ := hamong
    cases hm
  | typeOnly ht _ ih =>
    rw [ih]
    simp only [RouteAmong, listed_cons_typeOnly ht]
  | leaf hn _ ih =>
    rw [routeAmong_cons_callable, hn]
    simp only [Forest.routes, List.map_nil, List.nil_append, List.mem_cons, ih]
    simp
  | branch hs _ _ ihInner ihRest =>
    rw [routeAmong_cons_callable, hs]
    simp only [Forest.routes, List.mem_cons, List.mem_append, List.mem_map, ihInner, ihRest,
      routeAmong_toList_all, Option.some.injEq, exists_and_left, exists_eq_left']
    simp only [eq_comm]

/-- The unfolding of an environment visits what the environment reaches. -/
theorem Unfolds.mem_visits {g : ClosureGraph} {e : Environment} {f : Forest}
    (h : g.Unfolds e.all.toList f) {v : Visit} :
    v ∈ f.visits ↔ ∃ last, g.Reaches e last ∧ last.Binds v := by
  rw [Forest.mem_visits_iff]
  simp only [h.mem_routes, routeAmong_toList_all, route_snoc_iff]
  constructor
  · intro hroute
    obtain ⟨trail, last, hl, hb⟩ := hroute
    exact ⟨last, ⟨trail, hl⟩, hb⟩
  · intro hreach
    obtain ⟨last, ⟨trail, hl⟩, hb⟩ := hreach
    exact ⟨trail, last, hl, hb⟩

/-- Routes by ascending names, and each before the routes that go on from it. -/
def Before (r r' : List Visit) : Prop := r.map (·.name) < r'.map (·.name)

theorem before_of_name_lt {v w : Visit} (h : v.name < w.name) (r r' : List Visit) :
    Before (v :: r) (w :: r') :=
  List.cons_lt_cons_iff.mpr (.inl h)

theorem before_cons {r r' : List Visit} (h : Before r r') (v : Visit) :
    Before (v :: r) (v :: r') :=
  List.cons_lt_cons_iff.mpr (.inr ⟨rfl, h⟩)

theorem before_of_ne_nil {r : List Visit} (h : r ≠ []) (v : Visit) : Before [v] (v :: r) := by
  obtain ⟨w, r, rfl⟩ := List.exists_cons_of_ne_nil h
  have hnil : Before [] (w :: r) := List.nil_lt_cons _ _
  exact before_cons hnil v

/-- A route over later bindings comes after all routes that begin with an earlier one. -/
theorem before_of_routeAmong {g : ClosureGraph} {v : Visit} {rest : List (String × Value)}
    (hlt : ∀ b ∈ rest, v.name < b.1) {r' : List Visit} (h : g.RouteAmong rest r')
    (r : List Visit) : Before (v :: r) r' := by
  obtain ⟨w, tail, rfl, ⟨handle, hm, _⟩, _⟩ := h
  exact before_of_name_lt (hlt _ hm) r tail

/-- **The unfolding lists its routes in order.** Siblings ascend by name because bindings do. -/
theorem Unfolds.pairwise_routes {g : ClosureGraph} {bindings : List (String × Value)} {f : Forest}
    (h : g.Unfolds bindings f) (hsorted : bindings.Pairwise fun a b => a.1 < b.1) :
    f.routes.Pairwise Before := by
  induction h with
  | nil => exact .nil
  | typeOnly _ _ ih => exact ih (List.pairwise_cons.mp hsorted).2
  | @leaf name handle rest f _ hrest ih =>
    obtain ⟨hlt, hsorted⟩ := List.pairwise_cons.mp hsorted
    simp only [Forest.routes, List.map_nil, List.nil_append]
    refine List.pairwise_cons.mpr ⟨fun r hr => ?_, ih hsorted⟩
    exact before_of_routeAmong hlt ((hrest.mem_routes r).mp hr) []
  | @branch name handle e rest inner f _ _ hrest ihInner ihRest =>
    obtain ⟨hlt, hsorted⟩ := List.pairwise_cons.mp hsorted
    have hafter : ∀ r ∈ f.routes, ∀ r' : List Visit, Before (⟨name, handle.id⟩ :: r') r :=
      fun r hr r' => before_of_routeAmong hlt ((hrest.mem_routes r).mp hr) r'
    have hinner : (inner.routes.map (⟨name, handle.id⟩ :: ·)).Pairwise Before :=
      List.pairwise_map.mpr ((ihInner e.pairwise_toList_all).imp fun h => before_cons h _)
    simp only [Forest.routes]
    refine List.pairwise_cons.mpr ⟨fun r hr => ?_, ?_⟩
    · rcases List.mem_append.mp hr with hr | hr
      · obtain ⟨tail, htail, rfl⟩ := List.mem_map.mp hr
        exact before_of_ne_nil (Forest.ne_nil_of_mem_routes htail) _
      · exact hafter r hr []
    · refine List.pairwise_append.mpr ⟨hinner, ihRest hsorted, fun r hr r' hr' => ?_⟩
      obtain ⟨r, _, rfl⟩ := List.mem_map.mp hr
      exact hafter r' hr' r

/-! ## The walk -/

/-- A closed walk inside an environment, by its names: a route comes to a callable and, with the last
of the names, to the same callable again. -/
def ClosedWalk (g : ClosureGraph) (e : Environment) (names : List String) : Prop :=
  ∃ before first between last, g.Route e (before ++ first :: between ++ [last]) ∧
    first.id = last.id ∧ names = (first :: between ++ [last]).map (·.name)

/-- What stops a walk over an environment. -/
inductive Stops (g : ClosureGraph) (e : Environment) : ClosureError → Prop
  | unsupported {last : Environment} {name : String} {value : Value} :
      g.Reaches e last → last.get? name = some value → (∀ handle, value ≠ .callable handle) →
      value.isTypeOnly = false → Stops g e (.unsupportedValue name value.describe)
  | cyclic {names : List String} : g.ClosedWalk e names → Stops g e (.cyclic names)

/-- A callable on a trail cuts the trail where it was come to. -/
theorem exists_split_of_onTrail {trail : List Visit} {id : Nat} (h : onTrail trail id = true) :
    ∃ before first between, trail = before ++ first :: between ∧ first.id = id ∧
      namesFrom trail id = (first :: between).map (·.name) := by
  induction trail with
  | nil => simp [onTrail] at h
  | cons v trail ih =>
    by_cases hv : v.id = id
    · exact ⟨[], v, trail, rfl, hv, by simp [namesFrom, hv]⟩
    · have hrest : onTrail trail id = true := by simpa [onTrail, hv] using h
      obtain ⟨before, first, between, rfl, hid, hnames⟩ := ih hrest
      refine ⟨v :: before, first, between, rfl, hid, ?_⟩
      rw [← hnames]
      simp [namesFrom, hv]

/-- The walk comes to a callable that it is inside of. -/
theorem stops_of_onTrail {g : ClosureGraph} {e last : Environment} {trail : List Visit} {v : Visit}
    (hl : g.Leads e trail last) (hb : last.Binds v) (ht : onTrail trail v.id = true) :
    g.Stops e (.cyclic (namesFrom trail v.id ++ [v.name])) := by
  obtain ⟨before, first, between, rfl, hid, hnames⟩ := exists_split_of_onTrail ht
  refine .cyclic ⟨before, first, between, v, ?_, hid, ?_⟩
  · exact ⟨before ++ first :: between, v, last, rfl, hl, hb⟩
  · rw [hnames]
    simp

theorem binds_of_cons_subset {last : Environment} {name : String} {handle : Handle}
    {rest : List (String × Value)}
    (h : (name, .callable handle) :: rest ⊆ last.all.toList) : last.Binds ⟨name, handle.id⟩ :=
  ⟨handle, Environment.mem_toList_all.mp (h List.mem_cons_self), rfl⟩

/-- **What stops a walk is really there.** The trail is a route to the environment whose bindings are
being walked over; that is all the induction needs. -/
theorem stops_of_walkFrom_fault {g : ClosureGraph} {e : Environment} {trail : List Visit}
    {bindings : List (String × Value)} {fault : ClosureError}
    (hf : (g.walkFrom trail bindings).fault = some fault) :
    ∀ {last : Environment}, g.Leads e trail last → bindings ⊆ last.all.toList →
      g.Stops e fault := by
  fun_induction walkFrom g trail bindings with
  | case1 => simp at hf
  | case2 trail name rest handle visited =>
    -- The callable is on the trail.
    intro last hl hsub
    have hb := binds_of_cons_subset hsub
    obtain rfl : _ = fault := Option.some.inj hf
    exact stops_of_onTrail hl hb visited
  | case3 trail name rest handle visited found ih =>
    -- It closes over nothing, so the walk goes on behind it.
    intro last hl hsub
    exact ih hf hl (List.cons_subset.mp hsub).2
  | case4 trail name rest handle visited e' found inner fault' stopped ih =>
    intro last hl hsub
    have hb := binds_of_cons_subset hsub
    -- The walk is stopped inside of it, where the trail is one visit longer.
    exact ih hf (hl.snoc hb found) (List.Subset.refl _)
  | case5 trail name rest handle visited e' found inner done ihInner ihRest =>
    intro last hl hsub
    exact ihRest hf hl (List.cons_subset.mp hsub).2
  | case6 trail name rest value uncallable typeOnly ih =>
    intro last hl hsub
    exact ih hf hl (List.cons_subset.mp hsub).2
  | case7 trail name rest value uncallable typeOnly =>
    intro last hl hsub
    obtain rfl : _ = fault := Option.some.inj hf
    exact .unsupported ⟨trail, hl⟩ (Environment.mem_toList_all.mp (hsub (by simp))) uncallable
      (by simpa using typeOnly)

/-- A walk visits nothing out of reach, stopped or not. -/
theorem reaches_of_mem_visits {g : ClosureGraph} {e : Environment} {trail : List Visit}
    {bindings : List (String × Value)} {v : Visit} (hv : v ∈ (g.walkFrom trail bindings).visits) :
    ∀ {last : Environment}, g.Leads e trail last → bindings ⊆ last.all.toList →
      ∃ last', g.Reaches e last' ∧ last'.Binds v := by
  fun_induction walkFrom g trail bindings with
  | case1 => simp at hv
  | case2 => simp at hv
  | case3 trail name rest handle visited found ih =>
    intro last hl hsub
    rcases List.mem_cons.mp hv with rfl | hv
    · exact ⟨last, ⟨trail, hl⟩, binds_of_cons_subset hsub⟩
    · exact ih hv hl (List.cons_subset.mp hsub).2
  | case4 trail name rest handle visited e' found inner fault' stopped ih =>
    intro last hl hsub
    have hb := binds_of_cons_subset hsub
    rcases List.mem_cons.mp hv with rfl | hv
    · exact ⟨last, ⟨trail, hl⟩, hb⟩
    · exact ih hv (hl.snoc hb found) (List.Subset.refl _)
  | case5 trail name rest handle visited e' found inner done ihInner ihRest =>
    intro last hl hsub
    have hb := binds_of_cons_subset hsub
    rcases List.mem_cons.mp hv with rfl | hv
    · exact ⟨last, ⟨trail, hl⟩, hb⟩
    · rcases List.mem_append.mp hv with hv | hv
      · exact ihInner hv (hl.snoc hb found) (List.Subset.refl _)
      · exact ihRest hv hl (List.cons_subset.mp hsub).2
  | case6 trail name rest value uncallable typeOnly ih =>
    intro last hl hsub
    exact ih hv hl (List.cons_subset.mp hsub).2
  | case7 => simp at hv

/-- **A walk that is not stopped lists the unfolding.** -/
theorem unfolds_of_walkFrom {g : ClosureGraph} {trail : List Visit}
    {bindings : List (String × Value)} (hf : (g.walkFrom trail bindings).fault = none) :
    ∃ f, g.Unfolds bindings f ∧ (g.walkFrom trail bindings).visits = f.visits := by
  fun_induction walkFrom g trail bindings with
  | case1 => exact ⟨.nil, .nil, rfl⟩
  | case2 => simp at hf
  | case3 trail name rest handle visited found ih =>
    obtain ⟨f, hu, hv⟩ := ih hf
    exact ⟨.node ⟨name, handle.id⟩ .nil f, .leaf found hu, by simp [Walk.cons, Forest.visits, hv]⟩
  | case4 trail name rest handle visited e' found inner fault' stopped ih =>
    rw [Walk.cons, stopped] at hf
    cases hf
  | case5 trail name rest handle visited e' found inner done ihInner ihRest =>
    obtain ⟨f₁, hu₁, hv₁⟩ := ihInner done
    obtain ⟨f₂, hu₂, hv₂⟩ := ihRest hf
    refine ⟨.node ⟨name, handle.id⟩ f₁ f₂, .branch found hu₁ hu₂, ?_⟩
    simp only [Walk.cons, Walk.append, Forest.visits, hv₂]
    rw [← hv₁]
  | case6 trail name rest value uncallable typeOnly ih =>
    obtain ⟨f, hu, hv⟩ := ih hf
    exact ⟨f, .typeOnly typeOnly hu, hv⟩
  | case7 => simp at hf

/-- Every value in reach is a callable or matters to types only. -/
def Supported (g : ClosureGraph) (e : Environment) : Prop :=
  ∀ last name value, g.Reaches e last → last.get? name = some value →
    (∃ handle, value = .callable handle) ∨ value.isTypeOnly = true

/-- No callable in reach closes over itself, directly or not. -/
def Acyclic (g : ClosureGraph) (e : Environment) : Prop :=
  ∀ last v, g.Reaches e last → last.Binds v → ¬ Relation.TransGen g.Captures v.id v.id

theorem Leads.reaches_of_append {g : ClosureGraph} {e last : Environment}
    {before after : List Visit} (h : g.Leads e (before ++ after) last) :
    ∃ mid, g.Reaches e mid ∧ g.Leads mid after last := by
  obtain ⟨mid, hb, ha⟩ := h.split
  exact ⟨mid, ⟨before, hb⟩, ha⟩

/-- A closed walk goes round a callable that closes over itself. -/
theorem ClosedWalk.not_acyclic {g : ClosureGraph} {e : Environment} {names : List String}
    (h : g.ClosedWalk e names) : ¬ g.Acyclic e := by
  intro hacyclic
  obtain ⟨before, first, between, v, hroute, hid, _⟩ := h
  obtain ⟨last, hl, hb⟩ := route_snoc_iff.mp hroute
  obtain ⟨mid, hmid, hl⟩ := hl.reaches_of_append
  cases hl with
  | cons hfirst hi ht =>
    refine hacyclic mid first hmid hfirst ?_
    have hcap := captures_of_leads ht hb hi
    rwa [← hid] at hcap

theorem Unfolds.supported_and_acyclic {g : ClosureGraph} {e : Environment} {f : Forest}
    (h : g.Unfolds e.all.toList f) : g.Supported e ∧ g.Acyclic e := by
  refine ⟨fun last name value hr hget => ?_, fun last v hr hb => h.not_captures_self hr hb⟩
  obtain ⟨f', h'⟩ := h.reaches hr
  exact h'.value_cases (Environment.mem_toList_all.mpr hget)

/-- **An environment can be walked when its values are supported and it has no cycle**, and then
only. -/
theorem walk_fault_eq_none_iff {g : ClosureGraph} {e : Environment} :
    (g.walk e).fault = none ↔ g.Supported e ∧ g.Acyclic e := by
  constructor
  · intro hf
    obtain ⟨f, hu, _⟩ := unfolds_of_walkFrom hf
    exact hu.supported_and_acyclic
  · intro h
    obtain ⟨hsupported, hacyclic⟩ := h
    cases hf : (g.walk e).fault with
    | none => rfl
    | some fault =>
      have hstops := stops_of_walkFrom_fault hf (.nil e) (List.Subset.refl _)
      cases hstops with
      | unsupported hr hget huncallable htype =>
        rcases hsupported _ _ _ hr hget with ⟨handle, heq⟩ | htype'
        · exact absurd heq (huncallable handle)
        · rw [htype] at htype'; cases htype'
      | cyclic hwalk => exact absurd hacyclic hwalk.not_acyclic

end ClosureGraph

end FieldView
