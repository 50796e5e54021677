import Mathlib.Logic.ExistsUnique
import FieldView.Proofs.Closure.Route
import FieldView.Proofs.Scope.Kinds

/-!
# What becomes of free names

An environment keeps the names of a function in four places. When it is made, each free name comes
to the first of them where it belongs, with the value it has there, and to no other
(`AccountsFor`). From then on only the globals grow, one binding at a time.

There are two ways to ask an environment for a value. `get?` tries the globals and falls back on
the nonlocals; `all` is the map of the nonlocals with the globals written over them. What a binding
does to the first is said once (`get?_withGlobal`), and from it follows what a whole history of
bindings does (`get?_rebind`): the last binding of a name counts.
-/

set_option autoImplicit false

namespace FieldView

namespace NameMap

variable {α : Type} {bindings : List (String × α)} {name : String}

/-- A map made of bindings of different names holds just these. -/
theorem getElem?_ofList_eq_some_iff {value : α}
    (hnames : bindings.Pairwise fun a b => a.1 ≠ b.1) :
    (Std.TreeMap.ofList bindings : NameMap α)[name]? = some value ↔ (name, value) ∈ bindings := by
  have hdistinct : bindings.Pairwise fun a b => ¬ compare a.1 b.1 = .eq := by
    refine hnames.imp ?_
    intro a b hne heq
    exact hne (Std.LawfulEqCmp.eq_of_compare heq)
  have hholds : ∀ name value, (name, value) ∈ bindings →
      (Std.TreeMap.ofList bindings : NameMap α)[name]? = some value := by
    intro name value hbinding
    exact Std.TreeMap.getElem?_ofList_of_mem Std.ReflCmp.compare_self hdistinct hbinding
  constructor
  · intro h
    have hmem : name ∈ (Std.TreeMap.ofList bindings : NameMap α) := by
      rw [Std.TreeMap.mem_iff_isSome_getElem?, h]
      rfl
    rw [Std.TreeMap.mem_ofList, List.contains_iff_mem] at hmem
    obtain ⟨⟨name', value'⟩, hbinding, rfl⟩ := List.mem_map.mp hmem
    have hvalue := hholds _ _ hbinding
    rw [h] at hvalue
    cases hvalue
    exact hbinding
  · exact hholds name value

theorem mem_iff_exists {m : NameMap α} : name ∈ m ↔ ∃ value, m[name]? = some value := by
  rw [Std.TreeMap.mem_iff_isSome_getElem?, Option.isSome_iff_exists]

end NameMap

namespace Environment

/-! ## The places of names -/

/-- Where an environment keeps names. -/
inductive Place
  | nonlocals | globals | builtins | unbound
deriving DecidableEq, Repr

/-- The environment keeps the name there. -/
def HoldsAt (e : Environment) (name : String) : Place → Prop
  | .nonlocals => name ∈ e.nonlocals
  | .globals => name ∈ e.globals
  | .builtins => name ∈ e.builtins
  | .unbound => name ∈ e.unbound

/-- The first place where a name of the function belongs. -/
def placeOf (f : HostFunction) (name : String) : Place :=
  if name ∈ f.cells then .nonlocals
  else if name ∈ f.globals then .globals
  else if Builtin.isName name then .builtins
  else .unbound

/-- How an environment accounts for the free names of a function. -/
structure AccountsFor (e : Environment) (f : HostFunction) (free : NameSet) : Prop where
  onePlace : ∀ name ∈ free, ∃! place, e.HoldsAt name place
  firstPlace : ∀ name ∈ free, e.HoldsAt name (placeOf f name)
  onlyFree : ∀ name place, e.HoldsAt name place → name ∈ free
  cellValue : ∀ name ∈ e.nonlocals, e.nonlocals[name]? = f.cells[name]?
  globalValue : ∀ name ∈ e.globals, e.globals[name]? = f.globals[name]?
  annotations : e.annotations = f.annotations

/-- The place for names of an origin. -/
def Origin.place : Origin → Place
  | .cell _ => .nonlocals
  | .global _ => .globals
  | .builtin => .builtins
  | .unbound => .unbound

section Resolving

variable {f : HostFunction} {free : NameSet} {name : String} {value : Value}

theorem place_originOf (f : HostFunction) (name : String) :
    (originOf f name).place = placeOf f name := by
  unfold originOf placeOf
  cases hcell : f.cells[name]? with
  | some value =>
    have hmem : name ∈ f.cells := NameMap.mem_iff_exists.mpr ⟨value, hcell⟩
    simp [hmem, Origin.place]
  | none =>
    have hcells : name ∉ f.cells := by simp [NameMap.mem_iff_exists, hcell]
    cases hglobal : f.globals[name]? with
    | some value =>
      have hmem : name ∈ f.globals := NameMap.mem_iff_exists.mpr ⟨value, hglobal⟩
      simp [hcells, hmem, Origin.place]
    | none =>
      have hglobals : name ∉ f.globals := by simp [NameMap.mem_iff_exists, hglobal]
      cases hname : Builtin.isName name <;> simp [hcells, hglobals, Origin.place]

theorem getElem?_cells_of_originOf (h : originOf f name = .cell value) :
    f.cells[name]? = some value := by
  unfold originOf at h
  split at h
  · next hcell =>
    cases h
    exact hcell
  · split at h
    · cases h
    · split at h <;> cases h

theorem getElem?_globals_of_originOf (h : originOf f name = .global value) :
    f.globals[name]? = some value := by
  unfold originOf at h
  split at h
  · cases h
  · split at h
    · next hglobal =>
      cases h
      exact hglobal
    · split at h <;> cases h

/-- The free names with their origins, as far as `pick` takes them. -/
def found (f : HostFunction) (free : NameSet) {β : Type} (pick : String × Origin → Option β) :
    List β :=
  (free.toList.map fun name => (name, originOf f name)).filterMap pick

/-- Bindings with values of one origin. -/
theorem getElem?_found {pick : String × Origin → Option (String × Value)} (tag : Value → Origin)
    (hpick : ∀ name o binding,
      pick (name, o) = some binding ↔ o = tag binding.2 ∧ binding.1 = name) :
    (Std.TreeMap.ofList (found f free pick) : NameMap Value)[name]? = some value ↔
      name ∈ free ∧ originOf f name = tag value := by
  rw [NameMap.getElem?_ofList_eq_some_iff]
  · simp only [found, List.mem_filterMap, List.mem_map, Std.TreeSet.mem_toList]
    constructor
    · rintro ⟨-, ⟨name', hfree, rfl⟩, hbinding⟩
      obtain ⟨horigin, rfl⟩ := (hpick _ _ _).mp hbinding
      exact ⟨hfree, horigin⟩
    · rintro ⟨hfree, horigin⟩
      exact ⟨_, ⟨name, hfree, rfl⟩, (hpick _ _ _).mpr ⟨horigin, rfl⟩⟩
  · -- Each binding has the name that it was picked for, and these names are different.
    have hdistinct : free.toList.Pairwise fun a b => ¬ compare a b = .eq :=
      Std.TreeSet.distinct_toList
    rw [found, List.filterMap_map, List.pairwise_filterMap]
    refine hdistinct.imp ?_
    intro a b hne binding hbinding binding' hbinding' heq
    apply hne
    rw [((hpick _ _ _).mp hbinding).2, ((hpick _ _ _).mp hbinding').2] at heq
    rw [heq]
    exact Std.ReflCmp.compare_self

/-- Names of one origin. -/
theorem mem_found {pick : String × Origin → Option String} (origin : Origin)
    (hpick : ∀ name o picked, pick (name, o) = some picked ↔ o = origin ∧ picked = name) :
    name ∈ (Std.TreeSet.ofList (found f free pick) : NameSet) ↔
      name ∈ free ∧ originOf f name = origin := by
  rw [NameSet.mem_ofList]
  simp only [found, List.mem_filterMap, List.mem_map, Std.TreeSet.mem_toList]
  constructor
  · rintro ⟨-, ⟨name', hfree, rfl⟩, hname⟩
    obtain ⟨horigin, rfl⟩ := (hpick _ _ _).mp hname
    exact ⟨hfree, horigin⟩
  · rintro ⟨hfree, horigin⟩
    exact ⟨_, ⟨name, hfree, rfl⟩, (hpick _ _ _).mpr ⟨horigin, rfl⟩⟩

theorem getElem?_nonlocals_resolve :
    (resolve f free).nonlocals[name]? = some value ↔
      name ∈ free ∧ originOf f name = .cell value := by
  apply getElem?_found
  intro name o binding
  cases o <;> simp [Prod.ext_iff, and_comm, eq_comm]

theorem getElem?_globals_resolve :
    (resolve f free).globals[name]? = some value ↔
      name ∈ free ∧ originOf f name = .global value := by
  apply getElem?_found
  intro name o binding
  cases o <;> simp [Prod.ext_iff, and_comm, eq_comm]

theorem mem_builtins_resolve :
    name ∈ (resolve f free).builtins ↔ name ∈ free ∧ originOf f name = .builtin := by
  apply mem_found
  intro name o picked
  cases o <;> simp [eq_comm]

theorem mem_unbound_resolve :
    name ∈ (resolve f free).unbound ↔ name ∈ free ∧ originOf f name = .unbound := by
  apply mem_found
  intro name o picked
  cases o <;> simp [eq_comm]

/-- **A name comes to its first place if it is free, and to no other.** -/
theorem holdsAt_resolve_iff {place : Place} :
    (resolve f free).HoldsAt name place ↔ name ∈ free ∧ place = placeOf f name := by
  rw [← place_originOf]
  cases place with
  | nonlocals =>
    simp only [HoldsAt, NameMap.mem_iff_exists, getElem?_nonlocals_resolve]
    cases originOf f name <;> simp [Origin.place]
  | globals =>
    simp only [HoldsAt, NameMap.mem_iff_exists, getElem?_globals_resolve]
    cases originOf f name <;> simp [Origin.place]
  | builtins =>
    simp only [HoldsAt, mem_builtins_resolve]
    cases originOf f name <;> simp [Origin.place]
  | unbound =>
    simp only [HoldsAt, mem_unbound_resolve]
    cases originOf f name <;> simp [Origin.place]

theorem accountsFor_resolve (f : HostFunction) (free : NameSet) :
    (resolve f free).AccountsFor f free where
  onePlace name hfree := by
    refine ⟨placeOf f name, holdsAt_resolve_iff.mpr ⟨hfree, rfl⟩, ?_⟩
    intro place hplace
    exact (holdsAt_resolve_iff.mp hplace).2
  firstPlace name hfree := holdsAt_resolve_iff.mpr ⟨hfree, rfl⟩
  onlyFree name place hplace := (holdsAt_resolve_iff.mp hplace).1
  cellValue name hname := by
    obtain ⟨value, hvalue⟩ := NameMap.mem_iff_exists.mp hname
    rw [hvalue, getElem?_cells_of_originOf (getElem?_nonlocals_resolve.mp hvalue).2]
  globalValue name hname := by
    obtain ⟨value, hvalue⟩ := NameMap.mem_iff_exists.mp hname
    rw [hvalue, getElem?_globals_of_originOf (getElem?_globals_resolve.mp hvalue).2]
  annotations := rfl

end Resolving

/-! ## Histories of bindings -/

section Rebinding

variable (e : Environment) (name : String)

/-- The environment after some bindings in its globals, in order. -/
def rebind (steps : List (String × Value)) : Environment :=
  steps.foldl (fun e step => e.withGlobal step.1 step.2) e

/-- The value that the last binding of a name gave it. -/
def lastBound (steps : List (String × Value)) : Option Value := steps.reverse.lookup name

/-- One binding gives its name the value, whatever that name stood for, and leaves the others. -/
theorem get?_withGlobal (name' : String) (value : Value) :
    (e.withGlobal name' value).get? name = if name = name' then some value else e.get? name := by
  unfold get? withGlobal
  simp only [Std.TreeMap.getElem?_insert]
  by_cases h : name = name'
  · simp [h]
  · have hne : ¬ compare name' name = .eq := by
      intro heq
      exact h (Std.LawfulEqCmp.eq_of_compare heq).symm
    simp [h, hne]

theorem lastBound_cons (name' : String) (value : Value) (steps : List (String × Value)) :
    lastBound name ((name', value) :: steps) =
      (lastBound name steps).or (if name = name' then some value else none) := by
  unfold lastBound
  rw [List.reverse_cons, List.lookup_append]
  congr 1
  by_cases h : name = name'
  · simp [h]
  · simp [h]

/-- **The last binding of a name counts.** -/
theorem get?_rebind (steps : List (String × Value)) :
    (e.rebind steps).get? name = (lastBound name steps).or (e.get? name) := by
  induction steps generalizing e with
  | nil => rfl
  | cons step steps ih =>
    have hstep : e.rebind (step :: steps) = (e.withGlobal step.1 step.2).rebind steps := rfl
    rw [hstep, ih, get?_withGlobal, lastBound_cons, Option.or_assoc]
    congr 1
    split
    · rfl
    · rfl

/-- Nothing but the globals changes. -/
theorem rebind_keeps (steps : List (String × Value)) :
    (e.rebind steps).nonlocals = e.nonlocals ∧ (e.rebind steps).annotations = e.annotations ∧
      (e.rebind steps).builtins = e.builtins ∧ (e.rebind steps).unbound = e.unbound := by
  induction steps generalizing e with
  | nil => exact ⟨rfl, rfl, rfl, rfl⟩
  | cons step steps ih => exact ih (e.withGlobal step.1 step.2)

end Rebinding

/-- **Every free name is accounted for, and all look-ups agree after any history of bindings.** -/
theorem resolve_rebind (f : HostFunction) (names : Scope.Names) :
    let e := resolve f names.free
    e.AccountsFor f names.free ∧
      ∀ steps : List (String × Value),
        (∀ name, (e.rebind steps).all[name]? = (e.rebind steps).get? name ∧
          (e.rebind steps).get? name = (lastBound name steps).or (e.get? name)) ∧
        (e.rebind steps).nonlocals = e.nonlocals ∧
        (e.rebind steps).annotations = e.annotations ∧
        (e.rebind steps).builtins = e.builtins ∧ (e.rebind steps).unbound = e.unbound := by
  intro e
  refine ⟨accountsFor_resolve f names.free, ?_⟩
  intro steps
  refine ⟨?_, e.rebind_keeps steps⟩
  intro name
  exact ⟨getElem?_all _ name, e.get?_rebind name steps⟩

end Environment

end FieldView
