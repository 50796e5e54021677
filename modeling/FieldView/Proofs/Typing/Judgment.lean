import FieldView.Proofs.Typing.Deduction

/-!
# The typing judgment

`HasType t inShift e τ` says which type an expression has under a table, by rules that mention known
types only: there is no rule for an operand or an element of an unknown type. Deduction finds a type
exactly where the rules give one, and the same one (`hasType_iff`). So whatever was deduced has a
known type (`exists_ty_of_deduce`), and the cases that deduction has for unknown types are never
reached.

Arguments of a shift are typed with `inShift`, where a subscript picks an offset and leaves the type
as it is; elsewhere it takes an element of a tuple.
-/

set_option autoImplicit false

namespace FieldView

/-! ## Rules for known types -/

theorem Deduced.eq_or_eq_of_broadcast? {l r d : Deduced} (h : broadcast? l r = some d) :
    d = l ∨ d = r := by
  unfold broadcast? at h
  split at h
  · split at h
    · exact .inr (Option.some.inj h).symm
    · exact .inl (Option.some.inj h).symm
  · cases h

/-- The operator may be used on operands of the type. -/
def BinaryOp.Suits (op : BinaryOp) (τ : Ty) : Prop :=
  (if op.isArithmetic then Deduced.isArithmetic else Deduced.isLogical) (some τ) = true

namespace Operator

/-- Two operands of known types are combined to a third type, which is one of theirs. -/
def Combines (a b c : Ty) : Prop := Deduced.broadcast? (some a) (some b) = some (some c)

/-- A comparison has the third type: its operands are numbers that could be combined, and the type is
theirs with truth values for elements. -/
def Compares (a b c : Ty) : Prop :=
  Deduced.isArithmetic (some a) = true ∧ Deduced.isArithmetic (some b) = true ∧
    Deduced.broadcastable (some a) (some b) = true ∧
    ∃ a' b', Deduced.boolified? (some a) = some a' ∧ Deduced.boolified? (some b) = some b' ∧
      Combines a' b' c

theorem exists_combines {a b : Ty} {ty : Deduced}
    (h : Deduced.broadcast? (some a) (some b) = some ty) : ∃ c, ty = some c ∧ Combines a b c := by
  rcases Deduced.eq_or_eq_of_broadcast? h with rfl | rfl
  · exact ⟨a, rfl, h⟩
  · exact ⟨b, rfl, h⟩

theorem binaryTy?_eq_some_iff {op : BinaryOp} {a b : Ty} {ty : Deduced} :
    binaryTy? op (some a) (some b) = some ty ↔
      ∃ c, ty = some c ∧ op.Suits a ∧ op.Suits b ∧ Combines a b c := by
  unfold binaryTy? BinaryOp.Suits
  simp only [Option.isNone_some, Bool.or_self, Bool.false_eq_true, if_false]
  generalize (if op.isArithmetic then Deduced.isArithmetic else Deduced.isLogical) = suits
  constructor
  · intro h
    split at h
    · rename_i hsuits
      obtain ⟨c, hc, hcombines⟩ := exists_combines h
      rw [Bool.and_eq_true] at hsuits
      exact ⟨c, hc, hsuits.1, hsuits.2, hcombines⟩
    · cases h
  · rintro ⟨c, rfl, ha, hb, hcombines⟩
    rw [if_pos (by rw [ha, hb]; rfl)]
    exact hcombines

theorem compareTy?_eq_some_iff {a b : Ty} {ty : Deduced} :
    compareTy? (some a) (some b) = some ty ↔ ∃ c, ty = some c ∧ Compares a b c := by
  unfold compareTy? Compares
  simp only [Option.isNone_some, Bool.or_self, Bool.false_eq_true, if_false]
  constructor
  · intro h
    split at h
    · cases h
    · rename_i hnumbers
      simp only [Bool.or_eq_true, Bool.not_eq_true', not_or, Bool.not_eq_false] at hnumbers
      split at h
      · cases h
      · rename_i hfits
        split at h
        · rename_i a' b' ha' hb'
          obtain ⟨c, hc, hcombines⟩ := exists_combines h
          exact ⟨c, hc, hnumbers.1, hnumbers.2, by simpa using hfits, a', b', ha', hb', hcombines⟩
        · cases h
  · rintro ⟨c, rfl, ha, hb, hfits, a', b', ha', hb', hcombines⟩
    simp only [ha, hb, hfits, ha', hb', Bool.not_true, Bool.or_self, Bool.false_eq_true, if_false]
    exact hcombines

theorem subscriptTy_eq_ok_iff {value : Expr} {index : Int} {ty : Deduced} :
    subscriptTy false value index = .ok ty ↔
      ∃ τs τ, value.ty = some (.tuple τs) ∧ element? τs index = some τ ∧ ty = some τ := by
  unfold subscriptTy
  simp only [Bool.false_eq_true, if_false]
  constructor
  · intro h
    split at h
    · rename_i τs hvalue
      split at h
      · rename_i τ hτ
        exact ⟨τs, τ, hvalue, hτ, (Except.ok.inj h).symm⟩
      · exact absurd h Typed.fail_ne_ok
    · exact absurd h Typed.fail_ne_ok
  · rintro ⟨τs, τ, hvalue, hτ, rfl⟩
    simp only [hvalue, hτ]

theorem shiftTy_eq_ok_iff {callee : Expr} {dims : Dims} {dtype : ScalarTy} {args : List Expr}
    {loc : Location} {τ : Ty} :
    shiftTy callee dims dtype args loc = .ok τ ↔
      ∃ arg source target shifted, args = [arg] ∧ arg.ty = some (.offset source target) ∧
        shiftDims dims source target = .ok shifted ∧ τ = .field shifted dtype := by
  unfold shiftTy
  constructor
  · intro h
    split at h
    · rename_i arg
      split at h
      · rename_i source target harg
        split at h
        · rename_i shifted hshifted
          exact ⟨arg, source, target, shifted, rfl, harg, hshifted, (Except.ok.inj h).symm⟩
        · exact absurd h Typed.fail_ne_ok
      · exact absurd h Typed.fail_ne_ok
    · exact absurd h Typed.fail_ne_ok
  · rintro ⟨arg, source, target, shifted, rfl, harg, hshifted, rfl⟩
    simp only [harg, hshifted]

theorem tupleTy_eq_some {es : List Expr} {τs : List Ty}
    (h : List.Forall₂ (fun e τ => Expr.ty e = some τ) es τs) : tupleTy es = some (.tuple τs) := by
  have hall : es.mapM Expr.ty = some τs := by
    induction h with
    | nil => rfl
    | cons he _ ih => simp [List.mapM_cons, he, ih]
  simp [tupleTy, hall]

/-! ## The judgment -/

mutual

/-- The type of an expression under a table, inside the arguments of a shift or outside. -/
inductive HasType (t : Table) : Bool → Expr → Ty → Prop
  | name {inShift site id τ} : t.typeOf? id = some τ → HasType t inShift (.name site id) τ
  | const {inShift site value τ} : site.ty = some τ → HasType t inShift (.const site value) τ
  | offset {site value index τ} : HasType t true value τ →
      HasType t true (.subscript site value index) τ
  | element {site value index τs τ} : HasType t false value (.tuple τs) →
      element? τs index = some τ → HasType t false (.subscript site value index) τ
  | binary {inShift site op left right a b c} : HasType t inShift left a →
      HasType t inShift right b → op.Suits a → op.Suits b → Combines a b c →
      HasType t inShift (.binary site op left right) c
  | compare {inShift site op left right a b c} : HasType t inShift left a →
      HasType t inShift right b → Compares a b c →
      HasType t inShift (.compare site op left right) c
  | unary {inShift site op operand τ} : HasType t inShift operand τ →
      unarySuits op (some τ) = true → HasType t inShift (.unary site op operand) τ
  | tuple {inShift site elements τs} : HaveTypes t inShift elements τs →
      HasType t inShift (.tuple site elements) (.tuple τs)
  | shift {inShift site callee arg dims dtype source target shifted} :
      HasType t inShift callee (.field dims dtype) → HasType t true arg (.offset source target) →
      shiftDims dims source target = .ok shifted →
      HasType t inShift (.call site callee [arg]) (.field shifted dtype)
  | call {inShift site callee args params kwargs returns τs} :
      HasType t inShift callee (.function params kwargs returns) → HaveTypes t inShift args τs →
      HasType t inShift (.call site callee args) returns

/-- The types of several expressions, one by one. -/
inductive HaveTypes (t : Table) : Bool → List Expr → List Ty → Prop
  | nil {inShift} : HaveTypes t inShift [] []
  | cons {inShift e τ es τs} : HasType t inShift e τ → HaveTypes t inShift es τs →
      HaveTypes t inShift (e :: es) (τ :: τs)

end

theorem haveTypes_iff_forall₂ {t : Table} {inShift : Bool} {es : List Expr} {τs : List Ty} :
    HaveTypes t inShift es τs ↔ List.Forall₂ (HasType t inShift) es τs := by
  induction es generalizing τs with
  | nil =>
    constructor
    · intro h
      cases h
      exact .nil
    · intro h
      cases h
      exact .nil
  | cons e es ih =>
    constructor
    · intro h
      cases h with
      | cons he hes => exact .cons he (ih.mp hes)
    · intro h
      cases h with
      | cons he hes => exact .cons he (ih.mpr hes)

/-! ## Deduction finds the types of the judgment -/

/-- What each of some expressions is deduced as gives the types of all. -/
theorem exists_forall₂_hasType {t : Table} {inShift : Bool} {es es' : List Expr}
    (ih : ∀ e ∈ es, ∀ e', Expr.deduce t inShift e = .ok e' →
      ∃ τ, e'.ty = some τ ∧ HasType t inShift e τ)
    (h : List.Forall₂ (fun e e' => Expr.deduce t inShift e = .ok e') es es') :
    ∃ τs, List.Forall₂ (fun e' τ => Expr.ty e' = some τ) es' τs ∧ HaveTypes t inShift es τs := by
  induction h with
  | nil => exact ⟨[], .nil, .nil⟩
  | cons he _ ihes =>
    obtain ⟨τ, hty, hτ⟩ := ih _ List.mem_cons_self _ he
    obtain ⟨τs, htys, hτs⟩ := ihes fun e hm => ih e (List.mem_cons_of_mem _ hm)
    exact ⟨τ :: τs, .cons hty htys, .cons hτ hτs⟩

/-- **What deduction finds is a type of the judgment**, and known. -/
theorem hasType_of_deduce {t : Table} {inShift : Bool} {e e' : Expr}
    (h : e.deduce t inShift = .ok e') : ∃ τ, e'.ty = some τ ∧ HasType t inShift e τ := by
  induction e using Expr.ind generalizing inShift e' with
  | name site id =>
    obtain ⟨τ, hτ, rfl⟩ := Expr.deduce_name_eq_ok.mp h
    exact ⟨τ, rfl, .name hτ⟩
  | const site value =>
    obtain ⟨⟨τ, hτ⟩, rfl⟩ := Expr.deduce_const_eq_ok.mp h
    exact ⟨τ, hτ, .const hτ⟩
  | subscript site value index ih =>
    obtain ⟨value', ty, hvalue, hty, rfl⟩ := Expr.deduce_subscript_eq_ok.mp h
    obtain ⟨τ, hτ, hhas⟩ := ih hvalue
    cases inShift with
    | true =>
      obtain rfl : value'.ty = ty := Except.ok.inj hty
      exact ⟨τ, hτ, .offset hhas⟩
    | false =>
      obtain ⟨τs, σ, hvalueTy, hσ, rfl⟩ := subscriptTy_eq_ok_iff.mp hty
      rw [hvalueTy] at hτ
      cases hτ
      exact ⟨σ, rfl, .element hhas hσ⟩
  | binary site op left right ihl ihr =>
    obtain ⟨left', right', ty, hleft, hright, hty, rfl⟩ := Expr.deduce_binary_eq_ok.mp h
    obtain ⟨a, ha, hhasl⟩ := ihl hleft
    obtain ⟨b, hb, hhasr⟩ := ihr hright
    rw [ha, hb] at hty
    obtain ⟨c, rfl, hsuitsa, hsuitsb, hc⟩ := binaryTy?_eq_some_iff.mp hty
    exact ⟨c, rfl, .binary hhasl hhasr hsuitsa hsuitsb hc⟩
  | compare site op left right ihl ihr =>
    obtain ⟨left', right', ty, hleft, hright, hty, rfl⟩ := Expr.deduce_compare_eq_ok.mp h
    obtain ⟨a, ha, hhasl⟩ := ihl hleft
    obtain ⟨b, hb, hhasr⟩ := ihr hright
    rw [ha, hb] at hty
    obtain ⟨c, rfl, hc⟩ := compareTy?_eq_some_iff.mp hty
    exact ⟨c, rfl, .compare hhasl hhasr hc⟩
  | unary site op operand ih =>
    obtain ⟨operand', hoperand, hsuits, rfl⟩ := Expr.deduce_unary_eq_ok.mp h
    obtain ⟨τ, hτ, hhas⟩ := ih hoperand
    rw [hτ] at hsuits
    exact ⟨τ, hτ, .unary hhas hsuits⟩
  | tuple site elements ih =>
    obtain ⟨elements', helements, rfl⟩ := Expr.deduce_tuple_eq_ok.mp h
    obtain ⟨τs, htys, hτs⟩ := exists_forall₂_hasType (fun e he _ => ih e he) helements
    exact ⟨.tuple τs, tupleTy_eq_some htys, .tuple hτs⟩
  | call site callee args ihc iha =>
    obtain ⟨callee', hcallee, hcall⟩ := Expr.deduce_call_eq_ok.mp h
    obtain ⟨σ, hσ, hhas⟩ := ihc hcallee
    rcases hcall with ⟨dims, dtype, args', τ, hty, hargs, hshift, rfl⟩ |
      ⟨params, kwargs, returns, args', hty, hargs, rfl⟩
    · rw [hty] at hσ
      cases hσ
      obtain ⟨arg', source, target, shifted, rfl, harg', hshifted, rfl⟩ :=
        shiftTy_eq_ok_iff.mp hshift
      obtain ⟨arg, _, harg, hnil, rfl⟩ := List.forall₂_cons_right_iff.mp hargs
      cases hnil
      obtain ⟨τ, hτ, hhasArg⟩ := iha arg List.mem_cons_self harg
      rw [harg'] at hτ
      cases hτ
      exact ⟨_, rfl, .shift hhas hhasArg hshifted⟩
    · rw [hty] at hσ
      cases hσ
      obtain ⟨τs, -, hτs⟩ := exists_forall₂_hasType (fun e he _ => iha e he) hargs
      exact ⟨returns, rfl, .call hhas hτs⟩

/-- Nothing that was deduced has an unknown type. -/
theorem exists_ty_of_deduce {t : Table} {inShift : Bool} {e e' : Expr}
    (h : e.deduce t inShift = .ok e') : ∃ τ, e'.ty = some τ := by
  obtain ⟨τ, hτ, -⟩ := hasType_of_deduce h
  exact ⟨τ, hτ⟩

/-- Expressions with types can all be deduced. -/
theorem exists_forall₂_deduce {t : Table} {inShift : Bool} {es : List Expr} {τs : List Ty}
    (ih : ∀ e ∈ es, ∀ τ, HasType t inShift e τ →
      ∃ e', Expr.deduce t inShift e = .ok e' ∧ e'.ty = some τ)
    (h : List.Forall₂ (HasType t inShift) es τs) :
    ∃ es', List.Forall₂ (fun e e' => Expr.deduce t inShift e = .ok e') es es' ∧
      List.Forall₂ (fun e' τ => Expr.ty e' = some τ) es' τs := by
  induction h with
  | nil => exact ⟨[], .nil, .nil⟩
  | cons he _ ihes =>
    obtain ⟨e', hd, hty⟩ := ih _ List.mem_cons_self _ he
    obtain ⟨es', hds, htys⟩ := ihes fun e hm => ih e (List.mem_cons_of_mem _ hm)
    exact ⟨e' :: es', .cons hd hds, .cons hty htys⟩

/-- **What has a type is deduced to have it.** -/
theorem HasType.deduce {t : Table} {inShift : Bool} {e : Expr} {τ : Ty}
    (h : HasType t inShift e τ) : ∃ e', e.deduce t inShift = .ok e' ∧ e'.ty = some τ := by
  induction e using Expr.ind generalizing inShift τ with
  | name site id =>
    cases h with
    | name hτ => exact ⟨_, Expr.deduce_name_eq_ok.mpr ⟨τ, hτ, rfl⟩, rfl⟩
  | const site value =>
    cases h with
    | const hτ => exact ⟨_, Expr.deduce_const_eq_ok.mpr ⟨⟨τ, hτ⟩, rfl⟩, hτ⟩
  | subscript site value index ih =>
    cases h with
    | offset hvalue =>
      obtain ⟨value', hd, hty⟩ := ih hvalue
      exact ⟨_, Expr.deduce_subscript_eq_ok.mpr ⟨value', _, hd, rfl, rfl⟩, hty⟩
    | element hvalue hτ =>
      obtain ⟨value', hd, hty⟩ := ih hvalue
      have helement := subscriptTy_eq_ok_iff.mpr ⟨_, τ, hty, hτ, rfl⟩
      exact ⟨_, Expr.deduce_subscript_eq_ok.mpr ⟨value', _, hd, helement, rfl⟩, rfl⟩
  | binary site op left right ihl ihr =>
    cases h with
    | binary hleft hright ha hb hc =>
      obtain ⟨left', hdl, htyl⟩ := ihl hleft
      obtain ⟨right', hdr, htyr⟩ := ihr hright
      have hty : binaryTy? op left'.ty right'.ty = some (some τ) := by
        rw [htyl, htyr]
        exact binaryTy?_eq_some_iff.mpr ⟨τ, rfl, ha, hb, hc⟩
      exact ⟨_, Expr.deduce_binary_eq_ok.mpr ⟨left', right', _, hdl, hdr, hty, rfl⟩, rfl⟩
  | compare site op left right ihl ihr =>
    cases h with
    | compare hleft hright hc =>
      obtain ⟨left', hdl, htyl⟩ := ihl hleft
      obtain ⟨right', hdr, htyr⟩ := ihr hright
      have hty : compareTy? left'.ty right'.ty = some (some τ) := by
        rw [htyl, htyr]
        exact compareTy?_eq_some_iff.mpr ⟨τ, rfl, hc⟩
      exact ⟨_, Expr.deduce_compare_eq_ok.mpr ⟨left', right', _, hdl, hdr, hty, rfl⟩, rfl⟩
  | unary site op operand ih =>
    cases h with
    | unary hoperand hsuits =>
      obtain ⟨operand', hd, hty⟩ := ih hoperand
      rw [← hty] at hsuits
      exact ⟨_, Expr.deduce_unary_eq_ok.mpr ⟨operand', hd, hsuits, rfl⟩, hty⟩
  | tuple site elements ih =>
    cases h with
    | tuple helements =>
      obtain ⟨elements', hds, htys⟩ :=
        exists_forall₂_deduce (fun e he _ => ih e he) (haveTypes_iff_forall₂.mp helements)
      exact ⟨_, Expr.deduce_tuple_eq_ok.mpr ⟨elements', hds, rfl⟩, tupleTy_eq_some htys⟩
  | call site callee args ihc iha =>
    cases h with
    | shift hcallee harg hshifted =>
      obtain ⟨callee', hdc, htyc⟩ := ihc hcallee
      obtain ⟨arg', hda, htya⟩ := iha _ List.mem_cons_self harg
      refine ⟨_, Expr.deduce_call_eq_ok.mpr ⟨callee', hdc,
        .inl ⟨_, _, [arg'], _, htyc, .cons hda .nil, ?_, rfl⟩⟩, rfl⟩
      exact shiftTy_eq_ok_iff.mpr ⟨arg', _, _, _, rfl, htya, hshifted, rfl⟩
    | call hcallee hargs =>
      obtain ⟨callee', hdc, htyc⟩ := ihc hcallee
      obtain ⟨args', hds, -⟩ :=
        exists_forall₂_deduce (fun e he _ => iha e he) (haveTypes_iff_forall₂.mp hargs)
      exact ⟨_, Expr.deduce_call_eq_ok.mpr ⟨callee', hdc,
        .inr ⟨_, _, _, args', htyc, hds, rfl⟩⟩, rfl⟩

/-- **Deduction decides the judgment.** -/
theorem hasType_iff {t : Table} {inShift : Bool} {e : Expr} {τ : Ty} :
    HasType t inShift e τ ↔ ∃ e', e.deduce t inShift = .ok e' ∧ e'.ty = some τ := by
  constructor
  · exact HasType.deduce
  · rintro ⟨e', hd, hty⟩
    obtain ⟨σ, hσ, hhas⟩ := hasType_of_deduce hd
    rw [hty] at hσ
    cases hσ
    exact hhas

theorem exists_deduce_iff {t : Table} {inShift : Bool} {e : Expr} :
    (∃ e', e.deduce t inShift = .ok e') ↔ ∃ τ, HasType t inShift e τ := by
  constructor
  · rintro ⟨e', h⟩
    obtain ⟨τ, -, hτ⟩ := hasType_of_deduce h
    exact ⟨τ, hτ⟩
  · rintro ⟨τ, hτ⟩
    obtain ⟨e', h, -⟩ := hτ.deduce
    exact ⟨e', h⟩

/-- An expression has one type at most. -/
theorem HasType.unique {t : Table} {inShift : Bool} {e : Expr} {σ τ : Ty}
    (hσ : HasType t inShift e σ) (hτ : HasType t inShift e τ) : σ = τ := by
  obtain ⟨e', he, hty⟩ := hσ.deduce
  obtain ⟨e'', he', hty'⟩ := hτ.deduce
  rw [he] at he'
  cases he'
  rw [hty] at hty'
  exact Option.some.inj hty'

section Operands

variable {t : Table} {inShift : Bool} {site : Site} {left right : Expr} {a b c : Ty}

/-- Once the types of its operands are known, only the rule for them is left of an operation. -/
theorem hasType_binary_iff {op : BinaryOp} (ha : HasType t inShift left a)
    (hb : HasType t inShift right b) :
    HasType t inShift (.binary site op left right) c ↔
      op.Suits a ∧ op.Suits b ∧ Combines a b c := by
  constructor
  · intro h
    cases h with
    | binary hleft hright hsuitsa hsuitsb hc =>
      cases hleft.unique ha
      cases hright.unique hb
      exact ⟨hsuitsa, hsuitsb, hc⟩
  · rintro ⟨hsuitsa, hsuitsb, hc⟩
    exact .binary ha hb hsuitsa hsuitsb hc

theorem hasType_compare_iff {op : CompareOp} (ha : HasType t inShift left a)
    (hb : HasType t inShift right b) :
    HasType t inShift (.compare site op left right) c ↔ Compares a b c := by
  constructor
  · intro h
    cases h with
    | compare hleft hright hc =>
      cases hleft.unique ha
      cases hright.unique hb
      exact hc
  · intro hc
    exact .compare ha hb hc

end Operands

end Operator

end FieldView
