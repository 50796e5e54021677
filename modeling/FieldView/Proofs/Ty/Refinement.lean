import Mathlib.Data.Set.Basic
import Mathlib.Logic.Relation
import FieldView.Ty.Deduced

/-!
# Refinement

A declared type means the complete types that a symbol declared with it may take (`meaning`). One
type may be refined to another exactly if the other means no more
(`canRefineTo_iff_meaning_subset`), so a symbol never comes to take a type that its declaration left
out, however often it is refined.

The rule tells three forms of a type apart (`form`): nothing is known of it, its kind is
constrained, or it is complete. It asks a constraint in two ways, about complete types and about
other constraints, but both come down to the kind (`canRefineTo_constrained_iff`).

That inclusion is enough for the rule rests on there being enough types. No constraint admits them
all, and an incomplete type means two of them at least, so it is not included in a complete one
(`Constraint.sample`).
-/

set_option autoImplicit false

namespace FieldView

namespace Constraint

/-! ## Kinds -/

theorem admitsConstraint_iff {c k : Constraint} :
    c.admitsConstraint k = true ↔ k = c ∨ c = data ∧ (k = scalar ∨ k = field ∨ k = tuple) := by
  cases c <;> cases k <;> decide

theorem admitsConstraint_refl (c : Constraint) : c.admitsConstraint c = true :=
  admitsConstraint_iff.mpr (.inl rfl)

theorem admitsConstraint_trans {c k j : Constraint} (hck : c.admitsConstraint k = true)
    (hkj : k.admitsConstraint j = true) : c.admitsConstraint j = true := by
  rcases admitsConstraint_iff.mp hck with rfl | ⟨rfl, hk⟩
  · exact hkj
  · rcases admitsConstraint_iff.mp hkj with rfl | ⟨rfl, -⟩
    · exact hck
    · -- Data are not among the kinds that data consist of.
      simp at hk

/-- A complete type that meets the constraint, one for every kind of elements. -/
def sample (c : Constraint) (k : ScalarKind) : Ty :=
  match c with
  | field => .field .any { kind := k }
  | tuple => .tuple [.scalar { kind := k }]
  | function => .function [] [] (.scalar { kind := k })
  | offset => .offset k.name []
  | dimension => .dimension k.name
  | _ => .scalar { kind := k }

theorem isDeferred_sample (c : Constraint) (k : ScalarKind) : (c.sample k).isDeferred = false := by
  cases c <;> rfl

theorem admits_sample (c : Constraint) (k : ScalarKind) :
    ∃ j, of? (c.sample k) = some j ∧ c.admitsConstraint j = true := by
  cases c <;> exact ⟨_, rfl, rfl⟩

theorem sample_ne (c : Constraint) : c.sample .int32 ≠ c.sample .float64 := by
  cases c <;> decide

theorem of?_sample {c : Constraint} (h : c ≠ data) (k : ScalarKind) :
    of? (c.sample k) = some c := by
  cases c with
  | data => exact absurd rfl h
  | _ => rfl

/-- To admit a constraint it is enough to admit the kinds of complete types that it admits. -/
theorem admitsConstraint_of_forall_kinds {c k : Constraint}
    (h : ∀ j, j ≠ data → k.admitsConstraint j = true → c.admitsConstraint j = true) :
    c.admitsConstraint k = true := by
  by_cases hk : k = data
  · subst hk
    -- Only data admit both scalars and fields.
    rcases admitsConstraint_iff.mp (h scalar (by decide) rfl) with rfl | ⟨rfl, -⟩
    · cases h field (by decide) rfl
    · rfl
  · exact h k hk (admitsConstraint_refl k)

/-- No constraint admits all kinds of complete types. -/
theorem exists_not_admitsConstraint (c : Constraint) :
    ∃ j, j ≠ data ∧ c.admitsConstraint j = false := by
  by_cases hc : c = dimension
  · exact ⟨scalar, by decide, by rw [hc]; rfl⟩
  · refine ⟨dimension, by decide, ?_⟩
    cases c with
    | dimension => exact absurd rfl hc
    | _ => rfl

end Constraint

namespace Deduced

/-! ## The rule, form by form -/

/-- Nothing is known of a type, or its kind is constrained, or it is complete. -/
theorem form (d : Deduced) :
    isAny d = true ∨ (∃ c, d = some (.deferred (some c))) ∨
      ∃ τ, d = some τ ∧ τ.isDeferred = false := by
  cases d with
  | none => exact .inl rfl
  | some τ =>
    cases τ with
    | deferred c =>
      cases c with
      | none => exact .inl rfl
      | some c => exact .inr (.inl ⟨c, rfl⟩)
    | _ => exact .inr (.inr ⟨_, rfl, rfl⟩)

theorem constraint?_of_isAny {d : Deduced} (h : isAny d = true) : constraint? d = none := by
  rw [isAny, Bool.and_eq_true, Option.isNone_iff_eq_none] at h
  exact h.2

theorem canRefineTo_of_isAny {d e : Deduced} (h : isAny d = true) : canRefineTo d e = true := by
  rw [canRefineTo, if_pos h]

/-- A constrained type may become whatever has a kind that the constraint admits, be it complete or
constrained again. -/
theorem canRefineTo_constrained_iff {c : Constraint} {e : Deduced} :
    canRefineTo (some (.deferred (some c))) e = true ↔
      ∃ k, constraint? e = some k ∧ c.admitsConstraint k = true := by
  cases e with
  | none => simp [canRefineTo, isAny, isComplete, constraint?, Constraint.of?, Ty.isDeferred]
  | some τ =>
    cases τ <;> simp [canRefineTo, isAny, isComplete, constraint?, Constraint.of?,
      Constraint.admits, Ty.isDeferred, Option.any_eq_true]

theorem canRefineTo_complete_iff {τ : Ty} {e : Deduced} (h : τ.isDeferred = false) :
    canRefineTo (some τ) e = true ↔ e = some τ := by
  have hcomplete : isComplete (some τ) = true := by simp [isComplete, h]
  have hany : ¬ isAny (some τ) = true := by simp [isAny, hcomplete]
  rw [canRefineTo, if_neg hany, if_pos hcomplete, beq_iff_eq, eq_comm]

/-! ## Meanings -/

/-- The complete types that a symbol declared with the type may take. -/
def meaning (d : Deduced) : Set Ty := {τ | τ.isDeferred = false ∧ canRefineTo d (some τ) = true}

theorem sample_mem_meaning (c : Constraint) (k : ScalarKind) :
    c.sample k ∈ meaning (some (.deferred (some c))) :=
  ⟨c.isDeferred_sample k, canRefineTo_constrained_iff.mpr (c.admits_sample k)⟩

/-- A constraint is met by all of a meaning only if it admits the kinds of its members. -/
theorem admitsConstraint_of_meaning_subset {c j : Constraint} {b : Deduced}
    (h : meaning b ⊆ meaning (some (.deferred (some c)))) (hj : j ≠ .data)
    (hb : canRefineTo b (some (j.sample .bool)) = true) : c.admitsConstraint j = true := by
  obtain ⟨-, hc⟩ := h ⟨j.isDeferred_sample .bool, hb⟩
  obtain ⟨i, hi, hci⟩ := canRefineTo_constrained_iff.mp hc
  obtain rfl : j = i := Option.some.inj ((Constraint.of?_sample hj .bool).symm.trans hi)
  exact hci

/-- Only a complete type itself means no more than it does, since an incomplete one means two types
at least. -/
theorem eq_of_meaning_subset {τ : Ty} {b : Deduced} (hτ : τ.isDeferred = false)
    (h : meaning b ⊆ meaning (some τ)) : b = some τ := by
  have honly : ∀ σ ∈ meaning b, σ = τ :=
    fun σ hσ => Option.some.inj ((canRefineTo_complete_iff hτ).mp (h hσ).2)
  rcases form b with hb | ⟨c, rfl⟩ | ⟨σ, rfl, hσ⟩
  · have hall : ∀ k, Constraint.scalar.sample k = τ :=
      fun k => honly _ ⟨rfl, canRefineTo_of_isAny hb⟩
    exact absurd ((hall .int32).trans (hall .float64).symm) (Constraint.sample_ne .scalar)
  · have hall : ∀ k, c.sample k = τ := fun k => honly _ (sample_mem_meaning c k)
    exact absurd ((hall .int32).trans (hall .float64).symm) (Constraint.sample_ne c)
  · rw [honly σ ⟨hσ, (canRefineTo_complete_iff hσ).mpr rfl⟩]

/-! ## Refinement and inclusion -/

theorem meaning_subset_of_canRefineTo {a b : Deduced} (h : canRefineTo a b = true) :
    meaning b ⊆ meaning a := by
  rintro σ ⟨hσ, hbσ⟩
  refine ⟨hσ, ?_⟩
  rcases form a with ha | ⟨c, rfl⟩ | ⟨τ, rfl, hτ⟩
  · exact canRefineTo_of_isAny ha
  · obtain ⟨k, hk, hck⟩ := canRefineTo_constrained_iff.mp h
    rcases form b with hb | ⟨k', rfl⟩ | ⟨τ, rfl, hτ⟩
    · rw [constraint?_of_isAny hb] at hk
      cases hk
    · obtain rfl : k' = k := Option.some.inj hk
      obtain ⟨j, hj, hkj⟩ := canRefineTo_constrained_iff.mp hbσ
      exact canRefineTo_constrained_iff.mpr ⟨j, hj, Constraint.admitsConstraint_trans hck hkj⟩
    · rw [(canRefineTo_complete_iff hτ).mp hbσ]
      exact h
  · obtain rfl := (canRefineTo_complete_iff hτ).mp h
    exact hbσ

theorem canRefineTo_of_meaning_subset {a b : Deduced} (h : meaning b ⊆ meaning a) :
    canRefineTo a b = true := by
  rcases form a with ha | ⟨c, rfl⟩ | ⟨τ, rfl, hτ⟩
  · exact canRefineTo_of_isAny ha
  · rcases form b with hb | ⟨k, rfl⟩ | ⟨σ, rfl, hσ⟩
    · obtain ⟨j, hj, hout⟩ := c.exists_not_admitsConstraint
      have hin := admitsConstraint_of_meaning_subset h hj (canRefineTo_of_isAny hb)
      rw [hout] at hin
      cases hin
    · refine canRefineTo_constrained_iff.mpr ⟨k, rfl, ?_⟩
      apply Constraint.admitsConstraint_of_forall_kinds
      intro j hj hkj
      apply admitsConstraint_of_meaning_subset h hj
      exact canRefineTo_constrained_iff.mpr ⟨j, Constraint.of?_sample hj .bool, hkj⟩
    · exact (h ⟨hσ, (canRefineTo_complete_iff hσ).mpr rfl⟩).2
  · exact (canRefineTo_complete_iff hτ).mpr (eq_of_meaning_subset hτ h)

theorem canRefineTo_iff {a b : Deduced} : canRefineTo a b = true ↔ meaning b ⊆ meaning a :=
  ⟨meaning_subset_of_canRefineTo, canRefineTo_of_meaning_subset⟩

/-- Every type may take its own place. -/
theorem canRefineTo_refl (d : Deduced) : canRefineTo d d = true :=
  canRefineTo_iff.mpr Set.Subset.rfl

theorem canRefineTo_trans {a b c : Deduced} (hab : canRefineTo a b = true)
    (hbc : canRefineTo b c = true) : canRefineTo a c = true :=
  canRefineTo_iff.mpr ((canRefineTo_iff.mp hbc).trans (canRefineTo_iff.mp hab))

/-! ## Chains of refinements -/

/-- A type is turned into another by refinements, one after the other. -/
def Narrows : Deduced → Deduced → Prop := Relation.ReflTransGen fun d e => canRefineTo d e = true

/-- One refinement keeps to the constraint. -/
theorem constraint?_of_canRefineTo {a b : Deduced} {c : Constraint} (h : canRefineTo a b = true)
    (hc : constraint? a = some c) :
    ∃ k, constraint? b = some k ∧ c.admitsConstraint k = true := by
  rcases form a with ha | ⟨c', rfl⟩ | ⟨τ, rfl, hτ⟩
  · rw [constraint?_of_isAny ha] at hc
    cases hc
  · obtain rfl : c' = c := Option.some.inj hc
    exact canRefineTo_constrained_iff.mp h
  · obtain rfl := (canRefineTo_complete_iff hτ).mp h
    exact ⟨c, hc, c.admitsConstraint_refl⟩

/-- A chain of refinements is one refinement. -/
theorem Narrows.canRefineTo {a b : Deduced} (h : Narrows a b) : Deduced.canRefineTo a b = true := by
  induction h with
  | refl => exact canRefineTo_refl a
  | tail _ hstep ih => exact canRefineTo_trans ih hstep

/-- **Refinement is inclusion of meanings.** So it is reflexive and transitive, a complete type is
refined to itself only, and a chain of refinements stays inside the meaning and the constraint that
it started from. -/
theorem canRefineTo_iff_meaning_subset :
    (∀ a b : Deduced, canRefineTo a b = true ↔ meaning b ⊆ meaning a) ∧
    (∀ a : Deduced, canRefineTo a a = true) ∧
    (∀ a b c : Deduced, canRefineTo a b = true → canRefineTo b c = true → canRefineTo a c = true) ∧
    (∀ a b : Deduced, isComplete a = true → (canRefineTo a b = true ↔ b = a)) ∧
    ∀ a b : Deduced, Narrows a b → meaning b ⊆ meaning a ∧
      ∀ c, constraint? a = some c → ∃ k, constraint? b = some k ∧ c.admitsConstraint k = true := by
  refine ⟨fun a b => canRefineTo_iff, canRefineTo_refl, fun a b c => canRefineTo_trans, ?_, ?_⟩
  · intro a b ha
    obtain ⟨τ, rfl, hτ⟩ : ∃ τ, a = some τ ∧ τ.isDeferred = false := by
      simpa [isComplete, Option.any_eq_true] using ha
    exact canRefineTo_complete_iff hτ
  · intro a b h
    have hab : canRefineTo a b = true := h.canRefineTo
    exact ⟨canRefineTo_iff.mp hab, fun c hc => constraint?_of_canRefineTo hab hc⟩

/-- Data are narrowed to tuples and further to a pair, one of whose elements is not known yet. There
is no way back from tuples to data, nor from the pair to tuples. -/
theorem pair_narrows_data :
    let data : Deduced := some (.deferred (some .data))
    let tuple : Deduced := some (.deferred (some .tuple))
    let pair : Deduced := some (.tuple [.scalar { kind := .int32 }, .deferred none])
    Narrows data pair ∧ meaning pair ⊆ meaning data ∧ meaning tuple ⊆ meaning data ∧
      ¬ meaning data ⊆ meaning tuple ∧ isComplete pair = true ∧ ¬ canRefineTo pair tuple = true ∧
      ∃ k, constraint? pair = some k ∧ Constraint.data.admitsConstraint k = true := by
  intro data tuple pair
  obtain ⟨hiff, -, -, hcomplete, hchain⟩ := canRefineTo_iff_meaning_subset
  have hnarrows : Narrows data pair :=
    .head (show canRefineTo data tuple = true from rfl) (.single rfl)
  obtain ⟨hsubset, hconstraint⟩ := hchain data pair hnarrows
  refine ⟨hnarrows, hsubset, (hiff data tuple).mp rfl, ?_, rfl, ?_, hconstraint .data rfl⟩
  · intro h
    cases (hiff tuple data).mpr h
  · intro h
    have heq : tuple = pair := (hcomplete pair tuple rfl).mp h
    simp [tuple, pair] at heq

end Deduced

end FieldView
