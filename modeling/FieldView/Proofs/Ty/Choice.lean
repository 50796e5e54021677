import FieldView.Proofs.Ty.Broadcast

/-!
# Which operand gives the result its type

Two operands that can be combined give a result of the type of one of them. The rule is meant to be
that a field goes before a scalar, the longer list of dimensions before the shorter one, and the left
operand before the right one where neither decides (`preferred`).

The rule is not quite what `broadcast?` does. It compares the lengths only if the left list has a
dimension at all, so a field over no dimensions on the left is kept although the right operand has
more (`broadcast?_of_hollow`). This is the one exception (`broadcast?_of_solid`). Without such fields
only the ranks of the operands count (`broadcast?_of_ranked`), and operands of one rank are of one
type (`eq_of_rank_eq`), so that it makes no difference which of them stands on the left.
-/

set_option autoImplicit false

namespace FieldView

/-! ## Ranks -/

namespace Ty

def isField : Ty → Bool
  | field _ _ => true
  | _ => false

/-- How many dimensions are known of a type. A scalar has none. -/
def rank : Ty → Nat
  | field (.known names) _ => names.length
  | _ => 0

/-- A scalar, or a field whose dimensions are known. -/
inductive Shaped : Ty → Prop
  | scalar (s : ScalarTy) : Shaped (.scalar s)
  | field (names : List String) (s : ScalarTy) : Shaped (.field (.known names) s)

/-- A field over no dimensions. -/
def Hollow (τ : Ty) : Prop := ∃ s, τ = .field (.known []) s

/-- A scalar, or a field over at least one known dimension. -/
structure Ranked (τ : Ty) : Prop where
  shaped : τ.Shaped
  solid : ¬ τ.Hollow

theorem Ranked.scalar (s : ScalarTy) : (Ty.scalar s).Ranked := by
  refine ⟨.scalar s, ?_⟩
  rintro ⟨t, ht⟩
  cases ht

theorem Ranked.field {names : List String} (h : names ≠ []) (s : ScalarTy) :
    (Ty.field (.known names) s).Ranked := by
  refine ⟨.field names s, ?_⟩
  rintro ⟨t, ht⟩
  cases ht
  exact h rfl

/-- Among these types the fields are those of a rank above zero. -/
theorem Ranked.isField_iff {τ : Ty} (h : τ.Ranked) : τ.isField = true ↔ 0 < τ.rank := by
  obtain ⟨hshaped, hsolid⟩ := h
  cases hshaped with
  | scalar s => simp [isField, rank]
  | field names s =>
    cases names with
    | nil => exact absurd ⟨s, rfl⟩ hsolid
    | cons d ds => simp [isField, rank]

end Ty

namespace Deduced

/-! ## What combining two operands asks and decides -/

theorem broadcastable_iff {l r : Deduced} :
    broadcastable l r = true ↔ dtype? l = dtype? r ∧
      ∀ ls rs, dims? l = some (.known ls) → dims? r = some (.known rs) → dimsFit ls rs = true := by
  unfold broadcastable
  rw [Bool.and_eq_true, beq_iff_eq, and_comm, and_congr_right_iff]
  intro _
  split
  · rename_i ls rs hl hr
    simp [hl, hr]
  · rename_i hunknown
    simp only [true_iff]
    intro ls rs hl hr
    exact absurd hr (hunknown ls rs hl)

theorem rightWins_iff {l r : Deduced} :
    rightWins l r = true ↔ (isScalar l = true ∧ isField r = true) ∨
      ∃ ls rs, dims? l = some (.known ls) ∧ dims? r = some (.known rs) ∧ ls ≠ [] ∧
        ls.length < rs.length := by
  unfold rightWins
  rw [Bool.or_eq_true, Bool.and_eq_true]
  apply or_congr_right
  split
  · rename_i ls rs hl hr
    simp [hl, hr]
  · rename_i hunknown
    simp only [Bool.false_eq_true, false_iff]
    rintro ⟨ls, rs, hl, hr, -⟩
    exact hunknown ls rs hl hr

/-- Of two lists of one length neither fits into the other unless they are the same. -/
theorem eq_of_dimsFit {ls rs : List String} (hlength : ls.length = rs.length)
    (h : dimsFit ls rs = true) : ls = rs := by
  unfold dimsFit at h
  rw [if_pos (Nat.le_of_eq hlength), Bool.or_eq_true, Bool.or_eq_true] at h
  rcases h with (hls | hrs) | hrun
  · have hnil : ls = [] := by simpa using hls
    rw [hnil, List.length_nil] at hlength
    rw [hnil, List.eq_nil_of_length_eq_zero hlength.symm]
  · have hnil : rs = [] := by simpa using hrs
    rw [hnil, List.length_nil] at hlength
    rw [hnil, List.eq_nil_of_length_eq_zero hlength]
  · exact eq_of_isRunOf hlength hrun

theorem broadcast?_eq_some_iff {l r d : Deduced} :
    broadcast? l r = some d ↔
      broadcastable l r = true ∧ d = if rightWins l r = true then r else l := by
  unfold broadcast?
  by_cases h : broadcastable l r = true
  · rw [if_pos h, Option.some.injEq, eq_comm]
    simp [h]
  · simp [h]

/-! ## The rule and its exception -/

/-- The operand that should give the result its type: if one of them alone is a field, that one; else
the one with more dimensions, and the left one of two that have as many. -/
def preferred (l r : Ty) : Ty :=
  if l.isField = r.isField then if l.rank < r.rank then r else l
  else if l.isField then l else r

/-- What is done: the right operand is taken if it alone is a field, or has more dimensions than the
left one, which has some. -/
theorem broadcast?_of_shaped {l r : Ty} (hl : l.Shaped) (hr : r.Shaped)
    (h : broadcastable (some l) (some r) = true) :
    broadcast? (some l) (some r) = some (some
      (if (l.isField = false ∧ r.isField = true) ∨ (0 < l.rank ∧ l.rank < r.rank) then r else l)) := by
  have hwins : rightWins (some l) (some r) = true ↔
      (l.isField = false ∧ r.isField = true) ∨ (0 < l.rank ∧ l.rank < r.rank) := by
    rw [rightWins_iff]
    cases hl with
    | scalar s =>
      cases hr <;> simp [isScalar, isField, constraint?, Constraint.of?, dims?, Ty.isField, Ty.rank]
    | field ls s =>
      cases hr <;>
        simp [isScalar, constraint?, Constraint.of?, dims?, Ty.isField, Ty.rank, List.length_pos_iff]
  rw [broadcast?_eq_some_iff]
  refine ⟨h, ?_⟩
  by_cases hright : rightWins (some l) (some r) = true
  · rw [if_pos hright, if_pos (hwins.mp hright)]
  · rw [if_neg hright, if_neg (fun hr => hright (hwins.mpr hr))]

theorem broadcast?_of_hollow {l r : Ty} (hl : l.Hollow) (hr : r.Shaped)
    (h : broadcastable (some l) (some r) = true) :
    broadcast? (some l) (some r) = some (some l) := by
  obtain ⟨s, rfl⟩ := hl
  rw [broadcast?_of_shaped (.field [] s) hr h]
  simp [Ty.isField, Ty.rank]

/-- Outside the exception the rule holds. -/
theorem broadcast?_of_solid {l r : Ty} (hl : l.Shaped) (hr : r.Shaped)
    (h : broadcastable (some l) (some r) = true) (hsolid : ¬ (l.Hollow ∧ 0 < r.rank)) :
    broadcast? (some l) (some r) = some (some (preferred l r)) := by
  rw [broadcast?_of_shaped hl hr h]
  unfold preferred
  cases hl with
  | scalar s =>
    cases hr with
    | scalar t => simp [Ty.isField, Ty.rank]
    | field rs t => simp [Ty.isField, Ty.rank]
  | field ls s =>
    cases hr with
    | scalar t => simp [Ty.isField, Ty.rank]
    | field rs t =>
      cases ls with
      | nil =>
        -- The left field has no dimensions, so the right one must not have any.
        have hrank : ¬ 0 < rs.length := fun hpos => hsolid ⟨⟨s, rfl⟩, hpos⟩
        simp [Ty.isField, Ty.rank, hrank]
      | cons d ds =>
        by_cases hlonger : ds.length + 1 < rs.length
        · simp [Ty.isField, Ty.rank, hlonger]
        · simp [Ty.isField, Ty.rank, hlonger]

/-- **The rule holds but for fields over no dimensions on the left.** There the result has the type of
the left operand, whatever dimensions the right one has. -/
theorem broadcast?_eq_preferred_iff {l r : Ty} (hl : l.Shaped) (hr : r.Shaped)
    (h : broadcastable (some l) (some r) = true) :
    (broadcast? (some l) (some r) = some (some (preferred l r)) ↔ ¬ (l.Hollow ∧ 0 < r.rank)) ∧
      (l.Hollow → broadcast? (some l) (some r) = some (some l)) := by
  have hhollow : l.Hollow → broadcast? (some l) (some r) = some (some l) :=
    fun hl => broadcast?_of_hollow hl hr h
  refine ⟨⟨?_, broadcast?_of_solid hl hr h⟩, hhollow⟩
  rintro hpreferred ⟨hl, hrank⟩
  -- The left operand is kept and the right one preferred, though their ranks differ.
  rw [hhollow hl] at hpreferred
  obtain ⟨s, rfl⟩ := hl
  cases hr with
  | scalar t => simp [Ty.rank] at hrank
  | field rs t =>
    have hrs : 0 < rs.length := hrank
    simp only [preferred, Ty.isField, Ty.rank, List.length_nil, hrs, if_true] at hpreferred
    cases hpreferred
    simp at hrs

/-- A field over no dimensions is combined with one over `I`. With the longer list on the left, the
result has it; with the shorter one on the left, the result has that one and not the preferred type. -/
theorem broadcast?_hollow_left :
    let hollow : Ty := .field (.known []) { kind := .float64 }
    let long : Ty := .field (.known ["I"]) { kind := .float64 }
    broadcast? (some long) (some hollow) = some (some (preferred long hollow)) ∧
      preferred hollow long = long ∧
      broadcast? (some hollow) (some long) ≠ some (some (preferred hollow long)) ∧
      broadcast? (some hollow) (some long) = some (some hollow) := by
  intro hollow long
  have hleft : hollow.Hollow := ⟨_, rfl⟩
  have hlong := broadcast?_eq_preferred_iff (.field ["I"] { kind := .float64 })
    (.field [] { kind := .float64 }) (by decide)
  have hshort := broadcast?_eq_preferred_iff (.field [] { kind := .float64 })
    (.field ["I"] { kind := .float64 }) (by decide)
  refine ⟨hlong.1.mpr ?_, rfl, ?_, hshort.2 hleft⟩
  · rintro ⟨-, hrank⟩
    exact absurd hrank (by decide)
  · intro hpreferred
    exact hshort.1.mp hpreferred ⟨hleft, by decide⟩

/-! ## Operands of a rank -/

/-- Between a scalar and fields with dimensions, or any two of these, the ranks alone decide. -/
theorem broadcast?_of_ranked {l r : Ty} (hl : l.Ranked) (hr : r.Ranked)
    (h : broadcastable (some l) (some r) = true) :
    broadcast? (some l) (some r) = some (some (if l.rank < r.rank then r else l)) := by
  rw [broadcast?_of_shaped hl.shaped hr.shaped h]
  have hranks : (l.isField = false ∧ r.isField = true) ∨ (0 < l.rank ∧ l.rank < r.rank) ↔
      l.rank < r.rank := by
    rw [← Bool.not_eq_true, hl.isField_iff, hr.isField_iff]
    omega
  simp only [hranks]

/-- Operands of one rank that can be combined are of one type. -/
theorem eq_of_rank_eq {l r : Ty} (hl : l.Ranked) (hr : r.Ranked)
    (h : broadcastable (some l) (some r) = true) (hrank : l.rank = r.rank) : l = r := by
  have hfields : l.isField = true ↔ r.isField = true := by
    rw [hl.isField_iff, hr.isField_iff, hrank]
  obtain ⟨hdtype, hdims⟩ := broadcastable_iff.mp h
  cases hl.shaped with
  | scalar s =>
    cases hr.shaped with
    | scalar t =>
      cases hdtype
      rfl
    | field rs t => simp [Ty.isField] at hfields
  | field ls s =>
    cases hr.shaped with
    | scalar t => simp [Ty.isField] at hfields
    | field rs t =>
      cases hdtype
      have hrun : ls = rs := by
        apply eq_of_dimsFit hrank
        exact hdims ls rs rfl rfl
      rw [hrun]

end Deduced

end FieldView
