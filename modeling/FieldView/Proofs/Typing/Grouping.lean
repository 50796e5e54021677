import FieldView.Proofs.Ty.Choice
import FieldView.Proofs.Typing.Judgment

/-!
# Arithmetic in any order and grouping

Operands that are put together by arithmetic in two ways need not be accepted both times: a field
over `I` and one over `K` cannot be added, but each of them can be added to a field over `I` and `K`.
Where both ways are accepted, they give the same type.

The reason is that every operation keeps the operand of the higher rank, and two of one rank are of
one type. So the type of the whole is found among the operands, and every operand of another type has
fewer dimensions (`Leads`). This describes the type by the operands alone, whatever their order.
-/

set_option autoImplicit false

namespace FieldView.Operator

/-! ## Operands -/

/-- Operands put together by operators of arithmetic. -/
inductive Arith
  | operand (e : Expr)
  | combine (site : Site) (op : { op : BinaryOp // op.isArithmetic = true }) (left right : Arith)

namespace Arith

def toExpr : Arith → Expr
  | operand e => e
  | combine site op left right => .binary site op.1 left.toExpr right.toExpr

/-- The operands, from left to right. -/
def operands : Arith → List Expr
  | operand e => [e]
  | combine _ _ left right => left.operands ++ right.operands

end Arith

/-- The types of two stretches of expressions are found one after the other. -/
theorem HaveTypes.of_append {t : Table} {inShift : Bool} {es fs : List Expr} {τs : List Ty}
    (h : HaveTypes t inShift (es ++ fs) τs) :
    ∃ τs₁ τs₂, τs = τs₁ ++ τs₂ ∧ HaveTypes t inShift es τs₁ ∧ HaveTypes t inShift fs τs₂ := by
  induction es generalizing τs with
  | nil => exact ⟨[], τs, rfl, .nil, h⟩
  | cons e es ih =>
    cases h with
    | cons he hes =>
      obtain ⟨τs₁, τs₂, rfl, hes, hfs⟩ := ih hes
      exact ⟨_ :: τs₁, τs₂, rfl, .cons he hes, hfs⟩

/-! ## The leading operand -/

/-- The type is among those of the operands, and every operand of another type has fewer dimensions. -/
def Leads (τ : Ty) (σs : List Ty) : Prop := τ ∈ σs ∧ ∀ σ ∈ σs, σ = τ ∨ σ.rank < τ.rank

namespace Leads

theorem singleton (τ : Ty) : Leads τ [τ] := by
  refine ⟨List.mem_singleton_self τ, ?_⟩
  intro σ hσ
  exact .inl (List.mem_singleton.mp hσ)

theorem rank_le {τ σ : Ty} {σs : List Ty} (h : Leads τ σs) (hσ : σ ∈ σs) : σ.rank ≤ τ.rank := by
  rcases h.2 σ hσ with heq | hlt
  · rw [heq]
  · exact Nat.le_of_lt hlt

/-- At most one type leads, in whatever order the operands are listed. -/
theorem unique {σ τ : Ty} {σs τs : List Ty} (hperm : σs.Perm τs) (hσ : Leads σ σs)
    (hτ : Leads τ τs) : σ = τ := by
  rcases hτ.2 σ (hperm.mem_iff.mp hσ.1) with heq | hlt
  · exact heq
  · have hle := hσ.rank_le (hperm.mem_iff.mpr hτ.1)
    exact absurd hlt (Nat.not_lt_of_le hle)

/-- What leads some operands and has more dimensions than what leads others, leads them all. -/
theorem append_of_lt {σ τ : Ty} {σs τs : List Ty} (hσ : Leads σ σs) (hτ : Leads τ τs)
    (hlt : σ.rank < τ.rank) : Leads τ (σs ++ τs) := by
  refine ⟨List.mem_append_right _ hτ.1, ?_⟩
  intro ρ hρ
  rcases List.mem_append.mp hρ with hρ | hρ
  · exact .inr (Nat.lt_of_le_of_lt (hσ.rank_le hρ) hlt)
  · exact hτ.2 ρ hρ

theorem append_self {τ : Ty} {σs τs : List Ty} (hσ : Leads τ σs) (hτ : Leads τ τs) :
    Leads τ (σs ++ τs) := by
  refine ⟨List.mem_append_left _ hσ.1, ?_⟩
  intro ρ hρ
  rcases List.mem_append.mp hρ with hρ | hρ
  · exact hσ.2 ρ hρ
  · exact hτ.2 ρ hρ

theorem perm {τ : Ty} {σs τs : List Ty} (h : Leads τ σs) (hperm : σs.Perm τs) : Leads τ τs :=
  ⟨hperm.mem_iff.mp h.1, fun σ hσ => h.2 σ (hperm.mem_iff.mpr hσ)⟩

/-- One operation: what it gives leads the operands of both sides. -/
theorem combine {a b c : Ty} {σs τs : List Ty} (ha : Leads a σs) (hb : Leads b τs)
    (hca : a.Ranked) (hcb : b.Ranked) (h : Combines a b c) : Leads c (σs ++ τs) := by
  have hfits := (Deduced.broadcast?_eq_some_iff.mp h).1
  rw [Combines, Deduced.broadcast?_of_ranked hca hcb hfits, Option.some.injEq,
    Option.some.injEq] at h
  rcases Nat.lt_trichotomy a.rank b.rank with hlt | heq | hgt
  · rw [if_pos hlt] at h
    rw [← h]
    exact ha.append_of_lt hb hlt
  · rw [if_neg (by omega)] at h
    obtain rfl := Deduced.eq_of_rank_eq hca hcb hfits heq
    rw [← h]
    exact ha.append_self hb
  · rw [if_neg (by omega)] at h
    rw [← h]
    exact (hb.append_of_lt ha hgt).perm List.perm_append_comm

end Leads

/-- Any tree of operations: its type leads its operands. -/
theorem Arith.leads {t : Table} {inShift : Bool} {A : Arith} {σs : List Ty} {τ : Ty}
    (hσs : HaveTypes t inShift A.operands σs) (hranked : ∀ σ ∈ σs, σ.Ranked)
    (h : HasType t inShift A.toExpr τ) : Leads τ σs := by
  induction A generalizing σs τ with
  | operand e =>
    cases hσs with
    | cons he hnil =>
      cases hnil
      rw [he.unique h]
      exact Leads.singleton τ
  | combine site op left right ihl ihr =>
    obtain ⟨σs₁, σs₂, rfl, hleft, hright⟩ := hσs.of_append
    cases h with
    | binary hl hr _ _ hc =>
      have hla := ihl hleft (fun σ hσ => hranked σ (List.mem_append_left _ hσ)) hl
      have hlb := ihr hright (fun σ hσ => hranked σ (List.mem_append_right _ hσ)) hr
      have hra := hranked _ (List.mem_append_left _ hla.1)
      have hrb := hranked _ (List.mem_append_right _ hlb.1)
      exact hla.combine hlb hra hrb hc

/-! ## Two operands -/

theorem Combines.swap {a b c : Ty} (h : Combines a b c) : ∃ d, Combines b a d := by
  have hfits := (Deduced.broadcast?_eq_some_iff.mp h).1
  rw [Deduced.broadcastable_comm] at hfits
  obtain ⟨d, -, hd⟩ := exists_combines (Deduced.broadcast?_eq_some_iff.mpr ⟨hfits, rfl⟩)
  exact ⟨d, hd⟩

/-- Operands that an operator accepts are accepted the other way round. -/
theorem exists_deduce_swap {t : Table} {inShift : Bool} {site site' : Site} {op : BinaryOp}
    {left right : Expr} (h : ∃ e, Expr.deduce t inShift (.binary site op left right) = .ok e) :
    ∃ e, Expr.deduce t inShift (.binary site' op right left) = .ok e := by
  rw [exists_deduce_iff] at h ⊢
  obtain ⟨c, hc⟩ := h
  cases hc with
  | binary hleft hright ha hb hab =>
    obtain ⟨d, hd⟩ := hab.swap
    exact ⟨d, .binary hright hleft hb ha hd⟩

/-- **Order and grouping do not matter to the type of arithmetic.** Two trees over operands of the
same types, scalars and fields with dimensions, have the same type if both are accepted: that of the
operand with the most dimensions, and without a field the one that all operands have. Of two operands
each may stand on the left. -/
theorem arithmetic_type_of_operands (t : Table) (inShift : Bool) :
    (∀ (A B : Arith) (a b : Expr) (σs τs : List Ty),
      HaveTypes t inShift A.operands σs → HaveTypes t inShift B.operands τs → σs.Perm τs →
      (∀ σ ∈ σs, σ.Ranked) →
      A.toExpr.deduce t inShift = .ok a → B.toExpr.deduce t inShift = .ok b →
      ∃ τ ∈ σs, a.ty = some τ ∧ b.ty = some τ ∧ (∀ σ ∈ σs, σ = τ ∨ σ.rank < τ.rank) ∧
        ((∃ σ ∈ σs, σ.isField = true) → τ.isField = true) ∧
        ((∀ σ ∈ σs, σ.isField = false) → ∀ σ ∈ σs, σ = τ)) ∧
    ∀ (site site' : Site) (op : BinaryOp) (left right : Expr),
      (∃ e, Expr.deduce t inShift (.binary site op left right) = .ok e) ↔
        ∃ e, Expr.deduce t inShift (.binary site' op right left) = .ok e := by
  constructor
  · intro A B a b σs τs hσs hτs hperm hranked ha hb
    obtain ⟨τ, hτ, hA⟩ := hasType_of_deduce ha
    obtain ⟨τ', hτ', hB⟩ := hasType_of_deduce hb
    have hleads := Arith.leads hσs hranked hA
    have hleads' := Arith.leads hτs (fun σ hσ => hranked σ (hperm.mem_iff.mpr hσ)) hB
    obtain rfl := Leads.unique hperm hleads hleads'
    refine ⟨τ, hleads.1, hτ, hτ', hleads.2, ?_, ?_⟩
    · rintro ⟨σ, hσ, hfield⟩
      rw [(hranked σ hσ).isField_iff] at hfield
      rw [(hranked τ hleads.1).isField_iff]
      exact Nat.lt_of_lt_of_le hfield (hleads.rank_le hσ)
    · intro hscalars σ hσ
      have hnot := hscalars τ hleads.1
      rw [← Bool.not_eq_true, (hranked τ hleads.1).isField_iff] at hnot
      rcases hleads.2 σ hσ with heq | hlt
      · exact heq
      · exact absurd (Nat.zero_lt_of_lt hlt) hnot
  · intro site site' op left right
    exact ⟨exists_deduce_swap, exists_deduce_swap⟩

section Regrouped

private def regroupedSite : Site := { loc := { source := "ops.py", line := 1, column := 1 } }

/-- A field `x` over `I` and `K`, a field `y` over `K`, and a number `z`. -/
def mixedRanks : Table :=
  [("x", some (.field (.known ["I", "K"]) { kind := .float64 })),
    ("y", some (.field (.known ["K"]) { kind := .float64 })),
    ("z", some (.scalar { kind := .float64 }))]

/-- `(x + y) * z` -/
def leftGrouped : Arith :=
  .combine regroupedSite ⟨.mult, rfl⟩
    (.combine regroupedSite ⟨.add, rfl⟩ (.operand (.name regroupedSite "x")) (.operand (.name regroupedSite "y")))
    (.operand (.name regroupedSite "z"))

/-- `y / (z - x)` -/
def rightGrouped : Arith :=
  .combine regroupedSite ⟨.div, rfl⟩ (.operand (.name regroupedSite "y"))
    (.combine regroupedSite ⟨.sub, rfl⟩ (.operand (.name regroupedSite "z")) (.operand (.name regroupedSite "x")))

theorem regrouped_type :
    ∃ a b, leftGrouped.toExpr.deduce mixedRanks false = .ok a ∧
      rightGrouped.toExpr.deduce mixedRanks false = .ok b ∧
      a.ty = some (.field (.known ["I", "K"]) { kind := .float64 }) ∧ b.ty = a.ty := by
  have hx : HasType mixedRanks false (.name regroupedSite "x")
      (.field (.known ["I", "K"]) { kind := .float64 }) := .name rfl
  have hy : HasType mixedRanks false (.name regroupedSite "y")
      (.field (.known ["K"]) { kind := .float64 }) := .name rfl
  have hz : HasType mixedRanks false (.name regroupedSite "z") (.scalar { kind := .float64 }) := .name rfl
  have hranked : ∀ σ ∈ [Ty.field (.known ["I", "K"]) { kind := .float64 },
      .field (.known ["K"]) { kind := .float64 }, .scalar { kind := .float64 }], σ.Ranked := by
    rw [List.forall_mem_cons, List.forall_mem_cons, List.forall_mem_singleton]
    exact ⟨.field (by simp) _, .field (by simp) _, .scalar _⟩
  obtain ⟨τ, -, ha, hb, -⟩ := (arithmetic_type_of_operands mixedRanks false).1
    leftGrouped rightGrouped _ _ _ _ (.cons hx (.cons hy (.cons hz .nil)))
    (.cons hy (.cons hz (.cons hx .nil))) (by decide) hranked rfl rfl
  exact ⟨_, _, rfl, rfl, rfl, hb.trans ha.symm⟩

end Regrouped

/-- Not every grouping is accepted: fields over `I` and over `K` cannot be added to each other, though
one over `I` can be added to the sum of one over `K` and one over both. -/
example :
    let i : Deduced := some (.field (.known ["I"]) { kind := .float64 })
    let k : Deduced := some (.field (.known ["K"]) { kind := .float64 })
    let ik : Deduced := some (.field (.known ["I", "K"]) { kind := .float64 })
    binaryTy? .add i k = none ∧ (binaryTy? .add k ik).bind (binaryTy? .add i) = some ik :=
  ⟨rfl, rfl⟩

end FieldView.Operator
