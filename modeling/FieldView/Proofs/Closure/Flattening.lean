import FieldView.Proofs.Closure.Unfolding
import FieldView.Proofs.Toolchain.Stage

/-!
# Flattening is exact

`flatten` goes over a closure graph that may share callables and may be cyclic, and it stops at the
first thing that is wrong. Here its answer is tied to the graph itself: when there is a list of
definitions, which list it is, and what a reported cycle means.

The definitions are those of the unfolding's nodes, and the nodes are the routes, in the order of the
names along them. A callable that is shared is therefore listed once for each route to it.

`flatten` is defined by recursion on the callables that are not on the trail, so it ends on every
graph; the statements below say what it ends with.
-/

set_option autoImplicit false

namespace FieldView

variable {σ : Type}

open ClosureGraph

/-- The callable of a visit lowers to the definition, and that has the name of the visit. -/
def Defines (t : Toolchain σ) (callables : List Callable) (s : σ) (v : Visit)
    (d : Fencil.Definition) : Prop :=
  LowersTo t callables s v.id d ∧ d.id = v.name

/-- Every callable in reach lowers to a definition that has the name it is captured under. -/
def WellNamed (t : Toolchain σ) (callables : List Callable) (s : σ) (e : Environment) : Prop :=
  ∀ last v, (closureGraph callables).Reaches e last → last.Binds v →
    ∃ d, Defines t callables s v d

/-! ## The answer, from the walk -/

theorem answer_flatten {t : Toolchain σ} (ht : t.Steady) (callables : List Callable)
    (e : Environment) (s : σ) :
    Stage.answer (flatten t callables e) s =
      match ((closureGraph callables).walk e).visits.mapM
          fun v => Stage.answer (v.lower t callables) s with
      | .error err => .error err
      | .ok ds =>
        match ((closureGraph callables).walk e).fault with
        | some fault => .error (.closure fault)
        | none => .ok ds := by
  unfold flatten
  rw [collectFrom_eq_walkFrom]
  show Stage.answer (Walk.collect ((closureGraph callables).walk e) _) s = _
  unfold Walk.collect
  rw [Stage.answer_bind, Stage.answer_mapM (ht.visit callables)]
  cases ((closureGraph callables).walk e).visits.mapM
      fun v => Stage.answer (v.lower t callables) s with
  | error err => rfl
  | ok ds =>
    cases ((closureGraph callables).walk e).fault with
    | some fault => rfl
    | none => rfl

theorem answer_flatten_eq_ok_iff {t : Toolchain σ} (ht : t.Steady) {callables : List Callable}
    {e : Environment} {s : σ} {ds : List Fencil.Definition} :
    Stage.answer (flatten t callables e) s = .ok ds ↔
      ((closureGraph callables).walk e).fault = none ∧
        List.Forall₂ (Defines t callables s) ((closureGraph callables).walk e).visits ds := by
  rw [answer_flatten ht]
  have hforall : ∀ bs, (((closureGraph callables).walk e).visits.mapM
      fun v => Stage.answer (v.lower t callables) s) = .ok bs ↔
      List.Forall₂ (Defines t callables s) ((closureGraph callables).walk e).visits bs := by
    intro bs
    rw [mapM_eq_ok_iff]
    simp only [Visit.answer_lower_eq_ok_iff]
    rfl
  rw [← hforall ds]
  cases ((closureGraph callables).walk e).visits.mapM
      fun v => Stage.answer (v.lower t callables) s with
  | error err => simp
  | ok bs =>
    cases ((closureGraph callables).walk e).fault with
    | some fault => simp
    | none => simp

/-- Definitions of all visits exist when each visit has one. -/
theorem exists_forall₂_defines {t : Toolchain σ} {callables : List Callable} {s : σ}
    {vs : List Visit} (h : ∀ v ∈ vs, ∃ d, Defines t callables s v d) :
    ∃ ds, List.Forall₂ (Defines t callables s) vs ds := by
  induction vs with
  | nil => exact ⟨[], .nil⟩
  | cons v vs ih =>
    obtain ⟨d, hd⟩ := h v List.mem_cons_self
    obtain ⟨ds, hds⟩ := ih fun v' hv' => h v' (List.mem_cons_of_mem _ hv')
    exact ⟨d :: ds, .cons hd hds⟩

theorem exists_mem_of_forall₂ {α β : Type} {R : α → β → Prop} {as : List α} {bs : List β}
    (h : List.Forall₂ R as bs) {a : α} (ha : a ∈ as) : ∃ b ∈ bs, R a b := by
  induction h with
  | nil => cases ha
  | cons hab _ ih =>
    rcases List.mem_cons.mp ha with rfl | ha
    · exact ⟨_, List.mem_cons_self, hab⟩
    · obtain ⟨b, hm, hb⟩ := ih ha
      exact ⟨b, List.mem_cons_of_mem _ hm, hb⟩

/-- **The definitions are those of the unfolding, node by node.** -/
theorem answer_flatten_eq_ok_iff_unfolds {t : Toolchain σ} (ht : t.Steady)
    {callables : List Callable} {e : Environment} {s : σ} {ds : List Fencil.Definition} :
    Stage.answer (flatten t callables e) s = .ok ds ↔
      ∃ f, (closureGraph callables).Unfolds e.all.toList f ∧
        List.Forall₂ (Defines t callables s) f.visits ds := by
  rw [answer_flatten_eq_ok_iff ht]
  constructor
  · intro h
    obtain ⟨hf, hds⟩ := h
    obtain ⟨f, hu, hv⟩ := unfolds_of_walkFrom hf
    exact ⟨f, hu, hv ▸ hds⟩
  · intro h
    obtain ⟨f, hu, hds⟩ := h
    have hf : ((closureGraph callables).walk e).fault = none :=
      walk_fault_eq_none_iff.mpr hu.supported_and_acyclic
    obtain ⟨f', hu', hv⟩ := unfolds_of_walkFrom hf
    refine ⟨hf, ?_⟩
    -- The walk lists some forest of these bindings, and there is only one.
    rw [hu'.unique hu] at hv
    exact hv ▸ hds

theorem exists_answer_flatten_iff {t : Toolchain σ} (ht : t.Steady) {callables : List Callable}
    {e : Environment} {s : σ} :
    (∃ ds, Stage.answer (flatten t callables e) s = .ok ds) ↔
      (closureGraph callables).Supported e ∧ WellNamed t callables s e ∧
        (closureGraph callables).Acyclic e := by
  constructor
  · intro hanswer
    obtain ⟨ds, h⟩ := hanswer
    obtain ⟨f, hu, hds⟩ := (answer_flatten_eq_ok_iff_unfolds ht).mp h
    obtain ⟨hsupported, hacyclic⟩ := hu.supported_and_acyclic
    refine ⟨hsupported, fun last v hr hb => ?_, hacyclic⟩
    obtain ⟨d, -, hd⟩ := exists_mem_of_forall₂ hds (hu.mem_visits.mpr ⟨last, hr, hb⟩)
    exact ⟨d, hd⟩
  · intro h
    obtain ⟨hsupported, hnamed, hacyclic⟩ := h
    have hf := walk_fault_eq_none_iff.mpr ⟨hsupported, hacyclic⟩
    have hdefined : ∀ v ∈ ((closureGraph callables).walk e).visits,
        ∃ d, Defines t callables s v d := by
      intro v hv
      obtain ⟨last, hr, hb⟩ := reaches_of_mem_visits hv (.nil e) (List.Subset.refl _)
      exact hnamed last v hr hb
    obtain ⟨ds, hds⟩ := exists_forall₂_defines hdefined
    exact ⟨ds, (answer_flatten_eq_ok_iff ht).mpr ⟨hf, hds⟩⟩

/-! ## Cycles -/

/-- A callable in reach that fails by itself. -/
def FailsInReach (t : Toolchain σ) (callables : List Callable) (s : σ) (e : Environment)
    (err : Error) : Prop :=
  ∃ last v c, (closureGraph callables).Reaches e last ∧ last.Binds v ∧
    callables[v.id]? = some c ∧ Stage.answer (c.lower t) s = .error err

theorem failsInReach_of_answer_lower {t : Toolchain σ} {callables : List Callable} {s : σ}
    {e last : Environment} {v : Visit} {names : List String}
    (hr : (closureGraph callables).Reaches e last) (hb : last.Binds v)
    (h : Stage.answer (v.lower t callables) s = .error (.closure (.cyclic names))) :
    FailsInReach t callables s e (.closure (.cyclic names)) := by
  rw [Visit.answer_lower] at h
  split at h
  · cases h
  · rename_i c hc
    split at h
    · rename_i err herr
      cases h
      exact ⟨last, v, c, hr, hb, hc, herr⟩
    · split at h
      · cases h
      · cases h

theorem closedWalk_of_answer_flatten {t : Toolchain σ} (ht : t.Steady) {callables : List Callable}
    {e : Environment} {s : σ} {names : List String}
    (h : Stage.answer (flatten t callables e) s = .error (.closure (.cyclic names))) :
    (closureGraph callables).ClosedWalk e names ∨
      FailsInReach t callables s e (.closure (.cyclic names)) := by
  rw [answer_flatten ht] at h
  split at h
  · rename_i err hvisits
    cases h
    obtain ⟨v, hv, herr⟩ := exists_mem_of_mapM_eq_error hvisits
    obtain ⟨last, hr, hb⟩ := reaches_of_mem_visits hv (.nil e) (List.Subset.refl _)
    exact .inr (failsInReach_of_answer_lower hr hb herr)
  · split at h
    · rename_i fault hf
      cases h
      cases stops_of_walkFrom_fault hf (.nil e) (List.Subset.refl _) with
      | cyclic hwalk => exact .inl hwalk
    · cases h

/-! ## Flattening -/

/-- **Flattening is total and exact**, on every closure graph and from every environment.

It gives a list of definitions exactly when every value in reach is a callable or matters to types
only, every callable in reach lowers to a definition of the name it is captured under, and no callable
in reach closes over itself. The list then follows the unfolding: one definition for each node, parents
before children. The nodes are the routes, one for each way to a callable, and they come in the order
of the names along them, which is ascending among siblings. A cycle that is reported is a closed walk
of the graph; only a callable whose own lowering reports one can put other names there. -/
theorem flatten_exact (t : Toolchain σ) (ht : t.Steady) (callables : List Callable)
    (e : Environment) (s : σ) :
    ((∃ ds, Stage.answer (flatten t callables e) s = .ok ds) ↔
      (closureGraph callables).Supported e ∧ WellNamed t callables s e ∧
        (closureGraph callables).Acyclic e) ∧
    (∀ ds, Stage.answer (flatten t callables e) s = .ok ds →
      ∃ f, (closureGraph callables).Unfolds e.all.toList f ∧
        List.Forall₂ (Defines t callables s) f.visits ds ∧
        f.routes.map List.getLast? = f.visits.map some ∧
        (∀ route, route ∈ f.routes ↔ (closureGraph callables).Route e route) ∧
        f.routes.Pairwise Before) ∧
    (∀ names, Stage.answer (flatten t callables e) s = .error (.closure (.cyclic names)) →
      (closureGraph callables).ClosedWalk e names ∨
        FailsInReach t callables s e (.closure (.cyclic names))) := by
  refine ⟨exists_answer_flatten_iff ht, fun ds h => ?_, fun names => closedWalk_of_answer_flatten ht⟩
  obtain ⟨f, hu, hds⟩ := (answer_flatten_eq_ok_iff_unfolds ht).mp h
  refine ⟨f, hu, hds, f.getLast?_routes, fun route => ?_, hu.pairwise_routes e.pairwise_toList_all⟩
  rw [hu.mem_routes, routeAmong_toList_all]

/-- An environment of callables only. -/
def Environment.ofHandles (bindings : List (String × Nat)) : Environment :=
  { globals := Std.TreeMap.ofList (bindings.map fun (name, id) => (name, Value.callable { id })) }

/-- Two callables that close over a third one. -/
def sharing : List Callable :=
  [.late "a" none (some (.ofHandles [("shared", 2)])),
   .late "b" none (some (.ofHandles [("shared", 2)])),
   .late "shared" none none]

/-- What two callables share is no cycle, and is listed under each of them. -/
theorem flatten_exact_sharing :
    (Ledger.toolchain {}).Steady ∧
    (∃ ds, Stage.answer (flatten (Ledger.toolchain {}) sharing (.ofHandles [("b", 1), ("a", 0)])) {}
        = .ok ds ∧ ds.map (·.id) = ["a", "shared", "b", "shared"]) ∧
    (closureGraph sharing).Acyclic (.ofHandles [("b", 1), ("a", 0)]) := by
  have ht := Ledger.steady_toolchain {}
  have hshared : (closureGraph sharing).Unfolds (Environment.ofHandles [("shared", 2)]).all.toList
      (.node ⟨"shared", 2⟩ .nil .nil) := .leaf rfl .nil
  have hu : (closureGraph sharing).Unfolds
      (Environment.ofHandles [("b", 1), ("a", 0)]).all.toList
      (.node ⟨"a", 0⟩ (.node ⟨"shared", 2⟩ .nil .nil)
        (.node ⟨"b", 1⟩ (.node ⟨"shared", 2⟩ .nil .nil) .nil)) :=
    .branch rfl hshared (.branch rfl hshared .nil)
  let d (id : String) : Fencil.Definition :=
    { id, params := ["x"], body := .call (.ref "deref") [.ref "x"] }
  have hds : Stage.answer
      (flatten (Ledger.toolchain {}) sharing (.ofHandles [("b", 1), ("a", 0)])) {}
      = .ok [d "a", d "shared", d "b", d "shared"] := by
    refine (answer_flatten_eq_ok_iff_unfolds ht).mpr ⟨_, hu, ?_⟩
    exact .cons ⟨⟨_, rfl, rfl⟩, rfl⟩ (.cons ⟨⟨_, rfl, rfl⟩, rfl⟩
      (.cons ⟨⟨_, rfl, rfl⟩, rfl⟩ (.cons ⟨⟨_, rfl, rfl⟩, rfl⟩ .nil)))
  have hexact := flatten_exact (Ledger.toolchain {}) ht sharing (.ofHandles [("b", 1), ("a", 0)]) {}
  exact ⟨ht, ⟨_, hds, rfl⟩, (hexact.1.mp ⟨_, hds⟩).2.2⟩

end FieldView
