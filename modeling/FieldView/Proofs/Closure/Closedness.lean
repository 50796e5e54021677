import FieldView.Proofs.Closure.Flattening
import FieldView.Proofs.Scope.Kinds
import FieldView.Proofs.Toolchain.Requests
import FieldView.Proofs.Typing.Calls

/-!
# Lowered programs are closed

A program is checked against its own declarations, the declarations against the values that were
captured, and the values are flattened with all that they lead to. So the definitions that a program
is lowered with leave no name open: not in its body, not among its declarations, and not in the
environments of the functions that were defined.

Nothing is assumed of the toolchain here, not even that it lowers an operator the same way twice: of a
definition it matters only which callable it came from and what it is called.
-/

set_option autoImplicit false

namespace FieldView

variable {σ α β : Type}

open ClosureGraph

/-! ## Names in a body -/

namespace Program

/-- A name occurs somewhere in an expression. -/
inductive Expr.Mentions : Expr → String → Prop
  | name {site : Site} {id : String} : Mentions (.name site id) id
  | callee {site : Site} {callee : Expr} {args : List Expr} {kwargs : List (String × Expr)}
      {id : String} : callee.Mentions id → Mentions (.call site callee args kwargs) id
  | arg {site : Site} {callee e : Expr} {args : List Expr} {kwargs : List (String × Expr)}
      {id : String} : e ∈ args → e.Mentions id → Mentions (.call site callee args kwargs) id
  | kwarg {site : Site} {callee e : Expr} {args : List Expr} {kwargs : List (String × Expr)}
      {key id : String} :
      (key, e) ∈ kwargs → e.Mentions id → Mentions (.call site callee args kwargs) id

theorem mem_namesOfAll {es : List Expr} {name : String} :
    name ∈ namesOfAll es ↔ ∃ e ∈ es, name ∈ e.names := by
  induction es with
  | nil => simp [namesOfAll]
  | cons e es ih => simp [namesOfAll, ih]

theorem mem_namesOfNamed {kwargs : List (String × Expr)} {name : String} :
    name ∈ namesOfNamed kwargs ↔ ∃ kv ∈ kwargs, name ∈ kv.2.names := by
  induction kwargs with
  | nil => simp [namesOfNamed]
  | cons kv kwargs ih => simp [namesOfNamed, ih]

theorem Expr.mem_names_iff {e : Expr} {name : String} : name ∈ e.names ↔ e.Mentions name := by
  constructor
  · intro h
    induction e using Expr.ind with
    | name site id =>
      rw [Expr.names, List.mem_singleton] at h
      rw [h]
      exact .name
    | call site callee args kwargs ihcallee ihargs ihkwargs =>
      rw [Expr.names, List.mem_append, List.mem_append, mem_namesOfAll, mem_namesOfNamed] at h
      rcases h with (h | ⟨a, ha, h⟩) | ⟨kv, hkv, h⟩
      · exact .callee (ihcallee h)
      · exact .arg ha (ihargs a ha h)
      · exact .kwarg hkv (ihkwargs kv hkv h)
  · intro h
    induction h with
    | name => simp [Expr.names]
    | callee _ ih => simp [Expr.names, ih]
    | arg he _ ih =>
      rw [Expr.names, List.mem_append, List.mem_append]
      exact .inl (.inr (mem_namesOfAll.mpr ⟨_, he, ih⟩))
    | kwarg hkv _ ih =>
      rw [Expr.names, List.mem_append, List.mem_append]
      exact .inr (mem_namesOfNamed.mpr ⟨_, hkv, ih⟩)

theorem functionNames_eq_ok_iff {p : Program} {functions : NameSet} :
    p.functionNames = .ok functions ↔
      (∀ s ∈ p.captured, Deduced.constraint? s.ty = some .function) ∧
        functions = Std.TreeSet.ofList (p.captured.map (·.id)) := by
  unfold functionNames
  cases hfind : p.captured.find? fun s => Deduced.constraint? s.ty != some .function with
  | some s =>
    have hmem := List.mem_of_find?_eq_some hfind
    have hs := List.find?_some hfind
    simp only [reduceCtorEq, false_iff, not_and]
    intro hall
    simp [hall s hmem] at hs
  | none =>
    have hall := List.find?_eq_none.mp hfind
    simp only [Except.ok.injEq]
    constructor
    · intro h
      refine ⟨?_, h.symm⟩
      intro s hs
      simpa using hall s hs
    · intro h
      exact h.2.symm

end Program

/-! ## The check -/

namespace ProgramUnit

variable {u : ProgramUnit} {functions : NameSet}

theorem undefinedNames_eq_nil_iff :
    u.undefinedNames functions = [] ↔
      (∀ e ∈ u.node.body, ∀ name, e.Mentions name →
        (∃ s ∈ u.node.params, s.id = name) ∨ name ∈ functions) ∧
      ∀ name ∈ functions, ∃ value, u.captured.get? name = some value := by
  have hreferenced : ∀ name, name ∈ u.node.referenced ↔ ∃ e ∈ u.node.body, e.Mentions name := by
    intro name
    unfold Program.referenced
    rw [NameSet.mem_ofList, Program.mem_namesOfAll]
    simp only [Program.Expr.mem_names_iff]
  have hparams : ∀ name, name ∈ (Std.TreeSet.ofList (u.node.params.map (·.id)) : NameSet) ↔
      ∃ s ∈ u.node.params, s.id = name := by
    intro name
    rw [NameSet.mem_ofList, List.mem_map]
  have hbound : ∀ name, u.captured.all.contains name = true ↔
      ∃ value, u.captured.get? name = some value := by
    intro name
    rw [Std.TreeMap.contains_eq_isSome_getElem?, Environment.getElem?_all, Option.isSome_iff_exists]
  unfold undefinedNames
  simp only [List.append_eq_nil_iff, List.filter_eq_nil_iff, Std.TreeSet.mem_toList]
  refine and_congr ?_ ?_
  · constructor
    · intro h e he name hname
      have := h name ((hreferenced name).mpr ⟨e, he, hname⟩)
      rw [← hparams, ← Std.TreeSet.contains_iff_mem, ← Std.TreeSet.contains_iff_mem]
      simpa [Classical.or_iff_not_imp_left] using this
    · intro h name hname
      obtain ⟨e, he, hmentions⟩ := (hreferenced name).mp hname
      have := h e he name hmentions
      rw [← hparams, ← Std.TreeSet.contains_iff_mem, ← Std.TreeSet.contains_iff_mem] at this
      simpa [Classical.or_iff_not_imp_left] using this
  · refine forall_congr' fun name => imp_congr_right fun _ => ?_
    rw [← hbound]
    simp

theorem uncallableNames_eq_nil_iff :
    u.uncallableNames functions = [] ↔
      ∀ name ∈ functions, ∃ handle, u.captured.get? name = some (.callable handle) := by
  unfold uncallableNames
  simp only [List.filter_eq_nil_iff, Std.TreeSet.mem_toList, Environment.getElem?_all]
  refine forall_congr' fun name => imp_congr_right fun _ => ?_
  cases u.captured.get? name with
  | none => simp
  | some value =>
    cases value with
    | callable handle => simp
    | _ => simp

theorem check_eq_ok_parts :
    u.check = .ok () ↔
      u.externals.isEmpty = true ∧ ∃ functions, u.node.functionNames = .ok functions ∧
        u.undefinedNames functions = [] ∧ u.uncallableNames functions = [] := by
  unfold check
  by_cases hexternals : u.externals.isEmpty = true
  · simp only [hexternals, Bool.not_true, Bool.false_eq_true, if_false, true_and]
    cases u.node.functionNames with
    | error e => simp
    | ok functions =>
      simp only [Except.ok.injEq, exists_eq_left']
      cases u.undefinedNames functions with
      | nil =>
        cases u.uncallableNames functions with
        | nil => simp
        | cons name names => simp
      | cons name names => simp
  · simp [hexternals]

/-- **What the check demands**: no externals, functions only among the captured symbols, a callable
for each of them, and no other names in the body than these and the parameters. -/
theorem check_eq_ok_iff :
    u.check = .ok () ↔
      u.externals.isEmpty = true ∧
      (∀ s ∈ u.node.captured, Deduced.constraint? s.ty = some .function ∧
        ∃ handle, u.captured.get? s.id = some (.callable handle)) ∧
      ∀ e ∈ u.node.body, ∀ name, e.Mentions name →
        (∃ s ∈ u.node.params, s.id = name) ∨ ∃ s ∈ u.node.captured, s.id = name := by
  have hfunctions : ∀ name, name ∈ (Std.TreeSet.ofList (u.node.captured.map (·.id)) : NameSet) ↔
      ∃ s ∈ u.node.captured, s.id = name := by
    intro name
    rw [NameSet.mem_ofList, List.mem_map]
  rw [check_eq_ok_parts]
  refine and_congr_right fun _ => ?_
  constructor
  · intro h
    obtain ⟨functions, hok, hundefined, huncallable⟩ := h
    obtain ⟨htyped, rfl⟩ := Program.functionNames_eq_ok_iff.mp hok
    obtain ⟨hbody, -⟩ := undefinedNames_eq_nil_iff.mp hundefined
    rw [uncallableNames_eq_nil_iff] at huncallable
    refine ⟨?_, ?_⟩
    · intro s hs
      exact ⟨htyped s hs, huncallable s.id ((hfunctions _).mpr ⟨s, hs, rfl⟩)⟩
    · intro e he name hname
      rw [← hfunctions]
      exact hbody e he name hname
  · intro h
    obtain ⟨hcaptured, hbody⟩ := h
    have hcallable : ∀ name ∈ (Std.TreeSet.ofList (u.node.captured.map (·.id)) : NameSet),
        ∃ handle, u.captured.get? name = some (.callable handle) := by
      intro name hname
      obtain ⟨s, hs, rfl⟩ := (hfunctions name).mp hname
      exact (hcaptured s hs).2
    refine ⟨_, Program.functionNames_eq_ok_iff.mpr ⟨fun s hs => (hcaptured s hs).1, rfl⟩, ?_, ?_⟩
    · rw [undefinedNames_eq_nil_iff]
      refine ⟨?_, ?_⟩
      · intro e he name hname
        rw [hfunctions]
        exact hbody e he name hname
      · intro name hname
        obtain ⟨handle, hget⟩ := hcallable name hname
        exact ⟨_, hget⟩
    · rw [uncallableNames_eq_nil_iff]
      exact hcallable

end ProgramUnit

/-! ## The definitions -/

/-- Each of several questions that were all answered was answered in some state. -/
theorem Stage.forall₂_of_answer_mapM {ask : α → Stage σ β} {as : List α} {bs : List β} {s : σ}
    (h : answer (as.mapM ask) s = .ok bs) :
    List.Forall₂ (fun a b => ∃ s', answer (ask a) s' = .ok b) as bs := by
  induction as generalizing bs s with
  | nil =>
    cases h
    exact .nil
  | cons a as ih =>
    rw [List.mapM_cons] at h
    obtain ⟨b, hb, h⟩ := answer_bind_eq_ok.mp h
    obtain ⟨bs', hbs, h⟩ := answer_bind_eq_ok.mp h
    cases h
    exact .cons ⟨s, hb⟩ (ih hbs)

/-- The definition is what the callable of the visit lowered to, in some state of the toolchain, and
has the name of the visit. -/
def Contributes (t : Toolchain σ) (callables : List Callable) (v : Visit)
    (d : Fencil.Definition) : Prop :=
  ∃ s, Defines t callables s v d

theorem contributes_of_answer_flatten {t : Toolchain σ} {callables : List Callable}
    {e : Environment} {s : σ} {ds : List Fencil.Definition}
    (h : Stage.answer (flatten t callables e) s = .ok ds) :
    ((closureGraph callables).walk e).fault = none ∧
      List.Forall₂ (Contributes t callables) ((closureGraph callables).walk e).visits ds := by
  unfold flatten at h
  rw [collectFrom_eq_walkFrom] at h
  unfold Walk.collect at h
  obtain ⟨ds', hvisits, h⟩ := Stage.answer_bind_eq_ok.mp h
  cases hfault : ((closureGraph callables).walk e).fault with
  | some fault =>
    rw [walk] at hfault
    rw [hfault] at h
    cases h
  | none =>
    refine ⟨rfl, ?_⟩
    rw [walk] at hfault
    rw [hfault] at h
    cases h
    refine (Stage.forall₂_of_answer_mapM hvisits).imp ?_
    intro v d hd
    obtain ⟨s', hd⟩ := hd
    exact ⟨s', Visit.answer_lower_eq_ok_iff.mp hd⟩

/-- A walk that is not stopped visits what its environment binds. -/
theorem ClosureGraph.mem_visits_of_binds {g : ClosureGraph} {e : Environment}
    (h : (g.walk e).fault = none) {v : Visit} (hb : e.Binds v) : v ∈ (g.walk e).visits := by
  obtain ⟨f, hu, hvisits⟩ := unfolds_of_walkFrom h
  rw [walk, hvisits]
  exact hu.mem_visits.mpr ⟨e, .refl g e, hb⟩

/-- It also visits what the environments of the visited callables bind. -/
theorem ClosureGraph.mem_visits_of_environment? {g : ClosureGraph} {e inner : Environment}
    (h : (g.walk e).fault = none) {v w : Visit} (hv : v ∈ (g.walk e).visits)
    (hinner : g.environment? v.id = some inner) (hb : inner.Binds w) :
    w ∈ (g.walk e).visits := by
  obtain ⟨f, hu, hvisits⟩ := unfolds_of_walkFrom h
  rw [walk, hvisits] at hv ⊢
  obtain ⟨last, hreach, hlast⟩ := hu.mem_visits.mp hv
  exact hu.mem_visits.mpr ⟨inner, hreach.step hlast hinner, hb⟩

theorem environment?_closureGraph {callables : List Callable} {id : Nat} {c : Callable}
    (h : callables[id]? = some c) : (closureGraph callables).environment? id = c.captured := by
  unfold environment? closureGraph
  rw [List.getElem?_map, h]
  rfl

/-- **Lowered programs are closed.** Take the definitions that the toolchain is given when it is
asked to lower a program, on any bench and with any toolchain. Every name in the body is a parameter
or has a definition, wherever it occurs. Every captured symbol that is a function has a definition.
And the definitions are those of the visits of the walk, one by one: whatever the environment of a
visited callable binds to a callable is visited too, and so has a definition of the name that it is
bound under. -/
theorem definitions_closed {t : Toolchain σ} {u : ProgramUnit} {b : Bench σ} {p : Program}
    {ds : List Fencil.Definition} (h : .lowerProgram p ds ∈ u.lowerAnewRequests t b) :
    p = u.node ∧
    (∀ e ∈ p.body, ∀ name, e.Mentions name →
      (∃ s ∈ p.params, s.id = name) ∨ ∃ d ∈ ds, d.id = name) ∧
    (∀ s ∈ p.captured, Deduced.constraint? s.ty = some .function → ∃ d ∈ ds, d.id = s.id) ∧
    let visits := ((closureGraph b.callables).walk u.captured).visits
    List.Forall₂ (Contributes t b.callables) visits ds ∧
    ∀ v ∈ visits, ∀ c e, b.callables[v.id]? = some c → c.captured = some e →
      ∀ w, e.Binds w → w ∈ visits ∧ ∃ d ∈ ds, d.id = w.name ∧ Contributes t b.callables w d := by
  obtain ⟨rfl, hcheck, hflat⟩ := ProgramUnit.mem_lowerAnewRequests_iff.mp h
  obtain ⟨-, hcaptured, hbody⟩ := ProgramUnit.check_eq_ok_iff.mp hcheck
  obtain ⟨hfault, hds⟩ := contributes_of_answer_flatten hflat
  have hdefined : ∀ w ∈ ((closureGraph b.callables).walk u.captured).visits,
      ∃ d ∈ ds, d.id = w.name ∧ Contributes t b.callables w d := by
    intro w hw
    obtain ⟨d, hd, s, hdefines⟩ := exists_mem_of_forall₂ hds hw
    exact ⟨d, hd, hdefines.2, s, hdefines⟩
  have hsymbol : ∀ s ∈ u.node.captured, ∃ d ∈ ds, d.id = s.id := by
    intro s hs
    obtain ⟨-, handle, hget⟩ := hcaptured s hs
    have hbinds : u.captured.Binds ⟨s.id, handle.id⟩ := ⟨handle, hget, rfl⟩
    obtain ⟨d, hd, hid, -⟩ := hdefined _ (mem_visits_of_binds hfault hbinds)
    exact ⟨d, hd, hid⟩
  refine ⟨rfl, ?_, fun s hs _ => hsymbol s hs, hds, ?_⟩
  · intro e he name hname
    rcases hbody e he name hname with hparam | ⟨s, hs, rfl⟩
    · exact .inl hparam
    · exact .inr (hsymbol s hs)
  · intro v hv c e hc he w hw
    have hinner := (environment?_closureGraph hc).trans he
    have hmem := mem_visits_of_environment? hfault hv hinner hw
    exact ⟨hmem, hdefined w hmem⟩

/-- A program that calls `a` on the result of `a`. Of the functions on the bench `a` closes over
`shared`. -/
def twice : ProgramUnit :=
  let loc : Location := { source := "ops.py", line := 1, column := 1 }
  let param (id : String) : Symbol := { id, ty := some (.deferred none), space := .local, loc }
  let ref (id : String) : Program.Expr := .name { loc } id
  let call (arg : Program.Expr) : Program.Expr := .call { loc } (ref "a") [arg] [("out", ref "y")]
  { node :=
      { id := "twice", params := [param "x", param "y"], body := [call (call (ref "x"))],
        captured := [{ id := "a", ty := some (.deferred (some .function)), space := .closure, loc }]
        loc }
    captured := .ofHandles [("a", 0)]
    fencil := 0 }

/-- The inner function is named nowhere in the program, and has a definition because `a` has one. -/
theorem definitions_closed_twice :
    ∃ ds, .lowerProgram twice.node ds ∈
        twice.lowerAnewRequests Toolchain.plain { callables := sharing, tools := () } ∧
      (∀ e ∈ twice.node.body, ∀ name, e.Mentions name →
        (∃ s ∈ twice.node.params, s.id = name) ∨ ∃ d ∈ ds, d.id = name) ∧
      ∃ d ∈ ds, d.id = "shared" := by
  let d (id : String) : Fencil.Definition :=
    { id, params := ["x"], body := .call (.ref "deref") [.ref "x"] }
  have hshared : (closureGraph sharing).Unfolds (Environment.ofHandles [("shared", 2)]).all.toList
      (.node ⟨"shared", 2⟩ .nil .nil) := .leaf rfl .nil
  have hu : (closureGraph sharing).Unfolds twice.captured.all.toList
      (.node ⟨"a", 0⟩ (.node ⟨"shared", 2⟩ .nil .nil) .nil) := .branch rfl hshared .nil
  have hflat : Stage.answer (flatten Toolchain.plain sharing twice.captured) () =
      .ok [d "a", d "shared"] := by
    refine (answer_flatten_eq_ok_iff_unfolds Toolchain.steady_plain).mpr ⟨_, hu, ?_⟩
    exact .cons ⟨⟨_, rfl, rfl⟩, rfl⟩ (.cons ⟨⟨_, rfl, rfl⟩, rfl⟩ .nil)
  have hasked : .lowerProgram twice.node [d "a", d "shared"] ∈
      twice.lowerAnewRequests Toolchain.plain { callables := sharing, tools := () } :=
    ProgramUnit.mem_lowerAnewRequests_iff.mpr ⟨rfl, rfl, hflat⟩
  obtain ⟨-, hbody, -, hds, hinner⟩ := definitions_closed hasked
  have ha : ⟨"a", 0⟩ ∈ ((closureGraph sharing).walk twice.captured).visits := by
    refine mem_visits_of_binds (contributes_of_answer_flatten hflat).1 ?_
    exact ⟨{ id := 0 }, rfl, rfl⟩
  obtain ⟨-, d', hd', hid, -⟩ := hinner _ ha _ _ rfl rfl ⟨"shared", 2⟩ ⟨{ id := 2 }, rfl, rfl⟩
  exact ⟨_, hasked, hbody, d', hd', hid⟩

end FieldView
