import FieldView.Proofs.Ty.Choice
import FieldView.Proofs.Typing.Judgment

/-!
# Comparisons and arithmetic

Arithmetic combines the types of its operands. A comparison first puts truth values in the place of
the elements on both sides and combines what comes out. The two ways agree: a type and its truth
values (`Truths`) have the same form, so the same operand is chosen on both sides, and a comparison
has a type exactly where arithmetic has one (`compares_iff`).

The exceptions are operands of which nothing is known. Arithmetic lets two of them pass, but they
have no form that could be given truth values, and cannot be compared.
-/

set_option autoImplicit false

namespace FieldView

namespace Deduced

/-! ## Truth values -/

/-- The element type of truth values in the place of the elements of a type. -/
def truthElement (d : Deduced) : ScalarTy := { kind := .bool, shape := (dtype? d).bind (·.shape) }

/-- The second type has truth values for elements and is else of the form of the first. Nothing is
known of the dimensions of a deferred field, so those of its truth values may be any. -/
structure Truths (d : Deduced) (b : Ty) : Prop where
  constraint?_eq : constraint? (some b) = constraint? d
  dtype?_eq : dtype? (some b) = some (truthElement d)
  dims?_iff : ∀ names, dims? (some b) = some (.known names) ↔ dims? d = some (.known names)

theorem truths_of_boolified? {d : Deduced} {b : Ty} (h : boolified? d = some b) : Truths d b := by
  unfold boolified? at h
  split at h
  · rename_i hfield
    obtain rfl := Option.some.inj h
    refine ⟨hfield.symm, rfl, ?_⟩
    intro names
    cases hdims : dims? d with
    | none => simp [dims?]
    | some dims => simp [dims?]
  · rename_i hscalar
    obtain rfl := Option.some.inj h
    refine ⟨hscalar.symm, rfl, ?_⟩
    intro names
    -- A scalar has no dimensions, and neither have its truth values.
    cases d with
    | none => simp [dims?]
    | some τ =>
      cases τ with
      | field dims s => simp [constraint?, Constraint.of?] at hscalar
      | _ => simp [dims?]
  · cases h

section Combining

variable {l r : Deduced} {l' r' : Ty}

theorem Truths.broadcastable (hl : Truths l l') (hr : Truths r r')
    (h : broadcastable l r = true) : Deduced.broadcastable (some l') (some r') = true := by
  rw [broadcastable_iff] at h ⊢
  obtain ⟨hdtype, hdims⟩ := h
  constructor
  · rw [hl.dtype?_eq, hr.dtype?_eq, truthElement, truthElement, hdtype]
  · intro ls rs hls hrs
    exact hdims ls rs ((hl.dims?_iff ls).mp hls) ((hr.dims?_iff rs).mp hrs)

theorem Truths.rightWins (hl : Truths l l') (hr : Truths r r') :
    Deduced.rightWins (some l') (some r') = Deduced.rightWins l r := by
  have hscalar : isScalar (some l') = isScalar l := by rw [isScalar, isScalar, hl.constraint?_eq]
  have hfield : isField (some r') = isField r := by rw [isField, isField, hr.constraint?_eq]
  rw [Bool.eq_iff_iff, rightWins_iff, rightWins_iff, hscalar, hfield]
  simp only [hl.dims?_iff, hr.dims?_iff]

/-- Combining the truth values of two operands gives the truth values of the combined operands. -/
theorem broadcast?_truths (hl : boolified? l = some l') (hr : boolified? r = some r')
    (h : broadcastable l r = true) :
    broadcast? (some l') (some r') = some (boolified? (if rightWins l r = true then r else l)) := by
  have htl := truths_of_boolified? hl
  have htr := truths_of_boolified? hr
  rw [broadcast?_eq_some_iff]
  refine ⟨htl.broadcastable htr h, ?_⟩
  rw [htl.rightWins htr]
  split
  · exact hr
  · exact hl

end Combining

/-- Of the types that arithmetic may be done with, those have truth values of which something is
known. -/
theorem exists_boolified?_iff {τ : Ty} (h : isArithmetic (some τ) = true) :
    (∃ b, boolified? (some τ) = some b) ↔ τ ≠ .deferred none := by
  cases τ with
  | deferred c =>
    cases c with
    | none => simp [boolified?, constraint?, Constraint.of?]
    | some c =>
      cases c with
      | scalar => simp [boolified?, constraint?, Constraint.of?]
      | field => simp [boolified?, constraint?, Constraint.of?]
      | _ => simp [isArithmetic, elementsMay, isAny, isComplete, isField, isScalar, constraint?,
          Constraint.of?] at h
  | scalar s => simp [boolified?, constraint?, Constraint.of?]
  | field dims s => simp [boolified?, constraint?, Constraint.of?]
  | _ => simp [isArithmetic, elementsMay, isAny, isComplete, isField, isScalar, constraint?,
      Constraint.of?, Ty.isDeferred] at h

end Deduced

theorem BinaryOp.suits_iff_of_isArithmetic {o : BinaryOp} (ho : o.isArithmetic = true) {τ : Ty} :
    o.Suits τ ↔ Deduced.isArithmetic (some τ) = true := by
  unfold BinaryOp.Suits
  rw [if_pos ho]

namespace Operator

/-! ## Agreement -/

/-- A comparison has the truth values of the type that arithmetic would give to its operands. -/
theorem compares_iff {o : BinaryOp} (ho : o.isArithmetic = true) {a b c : Ty} :
    Compares a b c ↔ (a ≠ .deferred none ∧ b ≠ .deferred none) ∧
      ∃ d, (o.Suits a ∧ o.Suits b ∧ Combines a b d) ∧ Deduced.boolified? (some d) = some c := by
  simp only [BinaryOp.suits_iff_of_isArithmetic ho]
  constructor
  · rintro ⟨ha, hb, hfits, a', b', ha', hb', hcombines⟩
    have haKnown := (Deduced.exists_boolified?_iff ha).mp ⟨a', ha'⟩
    have hbKnown := (Deduced.exists_boolified?_iff hb).mp ⟨b', hb'⟩
    obtain ⟨d, hd, hab⟩ := exists_combines (Deduced.broadcast?_eq_some_iff.mpr ⟨hfits, rfl⟩)
    refine ⟨⟨haKnown, hbKnown⟩, d, ⟨ha, hb, hab⟩, ?_⟩
    rw [Combines, Deduced.broadcast?_truths ha' hb' hfits, hd] at hcombines
    exact Option.some.inj hcombines
  · rintro ⟨⟨haKnown, hbKnown⟩, d, ⟨ha, hb, hab⟩, hd⟩
    obtain ⟨a', ha'⟩ := (Deduced.exists_boolified?_iff ha).mpr haKnown
    obtain ⟨b', hb'⟩ := (Deduced.exists_boolified?_iff hb).mpr hbKnown
    obtain ⟨hfits, hchosen⟩ := Deduced.broadcast?_eq_some_iff.mp hab
    refine ⟨ha, hb, hfits, a', b', ha', hb', ?_⟩
    rw [Combines, Deduced.broadcast?_truths ha' hb' hfits, ← hchosen, hd]

/-- The result of arithmetic has truth values if something is known of both operands, since it has
the type of one of them. -/
theorem exists_compares_iff {o : BinaryOp} (ho : o.isArithmetic = true) {a b : Ty} :
    (∃ c, Compares a b c) ↔ (∃ d, o.Suits a ∧ o.Suits b ∧ Combines a b d) ∧
      a ≠ .deferred none ∧ b ≠ .deferred none := by
  simp only [compares_iff ho]
  constructor
  · rintro ⟨c, hknown, d, hd, -⟩
    exact ⟨⟨d, hd⟩, hknown⟩
  · rintro ⟨⟨d, ha, hb, hab⟩, hknown⟩
    have hbool : ∃ c, Deduced.boolified? (some d) = some c := by
      rcases Deduced.eq_or_eq_of_broadcast? hab with hd | hd
      · rw [hd]
        rw [BinaryOp.suits_iff_of_isArithmetic ho] at ha
        exact (Deduced.exists_boolified?_iff ha).mpr hknown.1
      · rw [hd]
        rw [BinaryOp.suits_iff_of_isArithmetic ho] at hb
        exact (Deduced.exists_boolified?_iff hb).mpr hknown.2
    obtain ⟨c, hc⟩ := hbool
    exact ⟨c, hknown, d, ⟨ha, hb, hab⟩, hc⟩

/-- **Comparison and arithmetic agree.** For any two known types, and for any two operands, a
comparison has a type where an operation of arithmetic has one, unless nothing is known of an operand;
and it is the type of the operation with truth values for elements. -/
theorem compare_iff_arithmetic (o : BinaryOp) (ho : o.isArithmetic = true) :
    (∀ l r : Ty,
      ((∃ d, compareTy? (some l) (some r) = some d) ↔
        (∃ d, binaryTy? o (some l) (some r) = some d) ∧
          l ≠ .deferred none ∧ r ≠ .deferred none) ∧
      ∀ d, compareTy? (some l) (some r) = some d →
        ∃ e, binaryTy? o (some l) (some r) = some e ∧ d = Deduced.boolified? e) ∧
    ∀ (t : Table) (inShift : Bool) (site site' : Site) (c : CompareOp)
      (left right left' right' : Expr),
      left.deduce t inShift = .ok left' → right.deduce t inShift = .ok right' →
      ((∃ e, Expr.deduce t inShift (.compare site c left right) = .ok e) ↔
        (∃ e, Expr.deduce t inShift (.binary site' o left right) = .ok e) ∧
          left'.ty ≠ some (.deferred none) ∧ right'.ty ≠ some (.deferred none)) ∧
      ∀ e, Expr.deduce t inShift (.compare site c left right) = .ok e →
        ∃ e', Expr.deduce t inShift (.binary site' o left right) = .ok e' ∧
          e.ty = Deduced.boolified? e'.ty := by
  constructor
  · intro l r
    have hcompare : (∃ d, compareTy? (some l) (some r) = some d) ↔ ∃ c, Compares l r c := by
      simp only [compareTy?_eq_some_iff]
      rw [exists_comm]
      simp
    have hbinary : (∃ d, binaryTy? o (some l) (some r) = some d) ↔
        ∃ d, o.Suits l ∧ o.Suits r ∧ Combines l r d := by
      simp only [binaryTy?_eq_some_iff]
      rw [exists_comm]
      simp
    constructor
    · rw [hcompare, hbinary, exists_compares_iff ho]
    · intro d hd
      obtain ⟨c, rfl, hc⟩ := compareTy?_eq_some_iff.mp hd
      obtain ⟨-, e, he, hbool⟩ := (compares_iff ho).mp hc
      exact ⟨some e, binaryTy?_eq_some_iff.mpr ⟨e, rfl, he⟩, hbool.symm⟩
  · intro t inShift site site' c left right left' right' hleft hright
    obtain ⟨l, hl, hhasl⟩ := hasType_of_deduce hleft
    obtain ⟨r, hr, hhasr⟩ := hasType_of_deduce hright
    constructor
    · simp only [exists_deduce_iff, hasType_compare_iff hhasl hhasr, hasType_binary_iff hhasl hhasr,
        exists_compares_iff ho, hl, hr, ne_eq, Option.some.injEq]
    · intro e he
      obtain ⟨d, hd, hhas⟩ := hasType_of_deduce he
      obtain ⟨-, a, ha, hbool⟩ := (compares_iff ho).mp ((hasType_compare_iff hhasl hhasr).mp hhas)
      obtain ⟨e', he', hty⟩ := ((hasType_binary_iff hhasl hhasr).mpr ha).deduce
      refine ⟨e', he', ?_⟩
      rw [hd, hty, hbool]

/-- Of a scalar and a field that are both deferred the field is taken, and compared they give a field
of truth values over any dimensions. Two operands of which nothing is known can be added, but not
compared. -/
theorem compare_deferred_operands :
    let scalar : Ty := .deferred (some .scalar)
    let field : Ty := .deferred (some .field)
    let unknown : Ty := .deferred none
    (BinaryOp.add.isArithmetic = true ∧
      compareTy? (some scalar) (some field) = some (some (.field .any { kind := .bool })) ∧
      ∃ e, binaryTy? .add (some scalar) (some field) = some e ∧
        some (.field .any { kind := .bool }) = Deduced.boolified? e) ∧
    binaryTy? .add (some unknown) (some unknown) = some (some unknown) ∧
      ¬ ∃ d, compareTy? (some unknown) (some unknown) = some d := by
  intro scalar field unknown
  have hrules := (compare_iff_arithmetic .add rfl).1
  have hcompare : compareTy? (some scalar) (some field) =
      some (some (.field .any { kind := .bool })) := rfl
  refine ⟨⟨rfl, hcompare, (hrules scalar field).2 _ hcompare⟩, rfl, ?_⟩
  intro hsome
  exact ((hrules unknown unknown).1.mp hsome).2.1 rfl

end Operator

end FieldView
