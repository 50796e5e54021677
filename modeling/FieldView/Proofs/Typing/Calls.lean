import FieldView.Program.Typing
import FieldView.Proofs.Typing.Deduction

/-!
# Runs of type deduction on programs

What a successful run of `Program.deduce` consists of. A program is a list of calls under one table,
which no call changes; so a run is nothing but the runs on its expressions, and what holds of names
holds all over the program (`occurrences_of_deduce`).
-/

set_option autoImplicit false

namespace FieldView

namespace Program

namespace Expr

/-- Induction over an expression, with the hypothesis for every argument. -/
@[elab_as_elim]
theorem ind {motive : Expr → Prop}
    (name : ∀ site id, motive (.name site id))
    (call : ∀ site callee args kwargs, motive callee → (∀ e ∈ args, motive e) →
      (∀ kv ∈ kwargs, motive kv.2) → motive (.call site callee args kwargs))
    (e : Expr) : motive e := by
  refine @Expr.rec motive (fun es => ∀ e ∈ es, motive e) (fun kvs => ∀ kv ∈ kvs, motive kv.2)
    (fun kv => motive kv.2) name call ?_ ?_ ?_ ?_ ?_ e
  · intro e he
    cases he
  · intro e es ihe ihes e' he'
    rcases List.mem_cons.mp he' with rfl | he'
    · exact ihe
    · exact ihes e' he'
  · intro kv hkv
    cases hkv
  · intro kv kvs ihkv ihkvs kv' hkv'
    rcases List.mem_cons.mp hkv' with rfl | hkv'
    · exact ihkv
    · exact ihkvs kv' hkv'
  · intro key e ih
    exact ih

/-! ## The parts of a run -/

section Parts

variable {t : Table} {site : Site} {r : Expr}

theorem deduceAll_eq_ok {es es' : List Expr} :
    deduceAll t es = .ok es' ↔ List.Forall₂ (fun e e' => deduce t e = .ok e') es es' :=
  Typed.all_eq_ok (by rw [deduceAll]) fun e es => by rw [deduceAll]

theorem deduceNamed_eq_ok {kvs kvs' : List (String × Expr)} :
    deduceNamed t kvs = .ok kvs' ↔
      List.Forall₂ (fun kv kv' => ∃ e', deduce t kv.2 = .ok e' ∧ kv' = (kv.1, e')) kvs kvs' := by
  have hall : deduceNamed t kvs = .ok kvs' ↔ List.Forall₂ (fun kv kv' => (do
      let e ← deduce t kv.2
      return (kv.1, e)) = .ok kv') kvs kvs' := by
    refine Typed.all_eq_ok ?_ ?_
    · rw [deduceNamed]
    · intro kv kvs
      rw [deduceNamed, bind_assoc]
      rfl
  rw [hall]
  simp only [Typed.bind_return_eq_ok]

theorem deduce_name_eq_ok {id : String} :
    deduce t (.name site id) = .ok r ↔
      ∃ τ, t.typeOf? id = some τ ∧ r = .name (site.withTy (some τ)) id := by
  rw [deduce]
  cases t.typeOf? id with
  | none => simp
  | some τ => simp [eq_comm]

theorem deduce_call_eq_ok {callee : Expr} {args : List Expr} {kwargs : List (String × Expr)} :
    deduce t (.call site callee args kwargs) = .ok r ↔
      ∃ callee' args' kwargs' τ, deduce t callee = .ok callee' ∧ deduceAll t args = .ok args' ∧
        deduceNamed t kwargs = .ok kwargs' ∧
        callTy callee'.ty args'.length kwargs' site.loc = .ok τ ∧
        r = .call (site.withTy (some τ)) callee' args' kwargs' := by
  rw [deduce, Typed.bind_eq_ok]
  constructor
  · rintro ⟨callee', hcallee, h⟩
    obtain ⟨args', hargs, h⟩ := Typed.bind_eq_ok.mp h
    obtain ⟨kwargs', hkwargs, h⟩ := Typed.bind_eq_ok.mp h
    obtain ⟨τ, hτ, h⟩ := Typed.bind_eq_ok.mp h
    cases h
    exact ⟨callee', args', kwargs', τ, hcallee, hargs, hkwargs, hτ, rfl⟩
  · rintro ⟨callee', args', kwargs', τ, hcallee, hargs, hkwargs, hτ, rfl⟩
    refine ⟨callee', hcallee, Typed.bind_eq_ok.mpr ⟨args', hargs, ?_⟩⟩
    exact Typed.bind_eq_ok.mpr ⟨kwargs', hkwargs, Typed.bind_eq_ok.mpr ⟨τ, hτ, rfl⟩⟩

end Parts

/-! ## Occurrences of names -/

mutual

/-- Where names occur in an expression, from left to right. -/
def occurrences : Expr → List (Site × String)
  | name site id => [(site, id)]
  | call _ callee args kwargs =>
    callee.occurrences ++ occurrencesOfAll args ++ occurrencesOfNamed kwargs

/-- Where names occur in several expressions. -/
def occurrencesOfAll : List Expr → List (Site × String)
  | [] => []
  | e :: es => e.occurrences ++ occurrencesOfAll es

/-- Where names occur in keyword arguments. -/
def occurrencesOfNamed : List (String × Expr) → List (Site × String)
  | [] => []
  | (_, e) :: es => e.occurrences ++ occurrencesOfNamed es

end

theorem occurrencesOfAll_eq_flatMap (es : List Expr) :
    occurrencesOfAll es = es.flatMap occurrences := by
  induction es with
  | nil => rfl
  | cons e es ih => rw [occurrencesOfAll, ih, List.flatMap_cons]

theorem occurrencesOfNamed_eq_flatMap (kvs : List (String × Expr)) :
    occurrencesOfNamed kvs = kvs.flatMap fun kv => kv.2.occurrences := by
  induction kvs with
  | nil => rfl
  | cons kv kvs ih => rw [occurrencesOfNamed, ih, List.flatMap_cons]

/-- **Every name gets the type that the table has for it.** -/
theorem occurrences_of_deduce {t : Table} {e e' : Expr} (h : e.deduce t = .ok e') :
    List.Forall₂ (GivenBy t.typeOf?) e.occurrences e'.occurrences := by
  induction e using Expr.ind generalizing e' with
  | name site id =>
    obtain ⟨τ, hτ, rfl⟩ := deduce_name_eq_ok.mp h
    exact .cons ⟨τ, hτ, rfl⟩ .nil
  | call site callee args kwargs ihc iha ihk =>
    obtain ⟨callee', args', kwargs', τ, hcallee, hargs, hkwargs, -, rfl⟩ := deduce_call_eq_ok.mp h
    rw [occurrences, occurrences]
    refine List.rel_append (List.rel_append (ihc hcallee) ?_) ?_
    · rw [occurrencesOfAll_eq_flatMap, occurrencesOfAll_eq_flatMap]
      refine List.rel_flatMap ((List.forall₂_and_left _ _).mpr ⟨iha, deduceAll_eq_ok.mp hargs⟩) ?_
      rintro arg arg' ⟨ih, harg⟩
      exact ih harg
    · rw [occurrencesOfNamed_eq_flatMap, occurrencesOfNamed_eq_flatMap]
      refine List.rel_flatMap
        ((List.forall₂_and_left _ _).mpr ⟨ihk, deduceNamed_eq_ok.mp hkwargs⟩) ?_
      rintro kv kv' ⟨ih, e', he, rfl⟩
      exact ih he

end Expr

theorem deduce_eq_ok_iff {p p' : Program} :
    p.deduce = .ok p' ↔
      ∃ body', Expr.deduceAll p.table p.body = .ok body' ∧ p' = { p with body := body' } := by
  unfold deduce
  exact Typed.bind_return_eq_ok

end Program

end FieldView
