import Mathlib.Data.List.Nodup
import Mathlib.Data.List.TakeDrop
import FieldView.Proofs.Typing.Agreement
import FieldView.Proofs.Typing.Comparison
import FieldView.Proofs.Typing.Shifting

/-!
# An expression combined with itself

A number or a field should combine with itself. It does unless its last dimension is named before:
the run that two lists are compared on ends at the first place of the last dimension, which is then
not the end of the list (`dimsFit_self_iff`).

Such lists come from shifts only. Where every declared field names its dimensions once, a type that
names one twice goes back to a shift that brought in a dimension twice, or one that the field had
already (`Expr.Repeats`). What one expression keeps is `distinctDims_of_deduce`, and what a run over
the statements of an operator keeps follows from it (`Reaches.distinctDims`).
-/

set_option autoImplicit false

namespace FieldView

namespace Deduced

/-! ## Lists that fit themselves -/

/-- The last dimension is not named before. -/
def LastOnce (names : List String) : Prop := ∀ d ∈ names.getLast?, d ∉ names.dropLast

theorem lastOnce_of_nodup {names : List String} (h : names.Nodup) : LastOnce names := by
  rcases List.eq_nil_or_concat names with rfl | ⟨init, y, rfl⟩
  · simp [LastOnce]
  · rw [List.concat_eq_append, List.nodup_append] at h
    simp only [LastOnce, List.concat_eq_append, List.getLast?_concat, List.dropLast_concat]
    rintro d hd hinit
    cases hd
    exact h.2.2 y hinit y List.mem_cons_self rfl

/-- A list stands in itself from its beginning to the first place of its last element. -/
theorem isRunOf_self_iff {names : List String} {last : Nat} (hnames : names ≠ [])
    (hlast : placeOf? names.getLast? names = some last) :
    isRunOf names names = true ↔ names.length ≤ last + 1 := by
  have hfirst : placeOf? names.head? names = some 0 := by
    obtain ⟨x, tail, rfl⟩ := List.exists_cons_of_ne_nil hnames
    exact placeOf?_append (List.not_mem_nil) tail
  unfold isRunOf
  simp [hfirst, hlast]

theorem dimsFit_self_iff (names : List String) : dimsFit names names = true ↔ LastOnce names := by
  rcases List.eq_nil_or_concat names with rfl | ⟨init, y, rfl⟩
  · simp [dimsFit, LastOnce]
  · rw [List.concat_eq_append]
    have hfits : dimsFit (init ++ [y]) (init ++ [y]) = isRunOf (init ++ [y]) (init ++ [y]) := by
      simp [dimsFit]
    have honce : LastOnce (init ++ [y]) ↔ y ∉ init := by simp [LastOnce]
    rw [hfits, honce]
    by_cases hy : y ∈ init
    · -- The run ends at an earlier place of `y`.
      obtain ⟨before, after, rfl, hbefore⟩ := List.eq_append_cons_of_mem hy
      have hlast : placeOf? ((before ++ y :: after) ++ [y]).getLast? ((before ++ y :: after) ++ [y]) =
          some before.length := by
        rw [List.getLast?_concat, List.append_assoc, List.cons_append]
        exact placeOf?_append hbefore _
      rw [isRunOf_self_iff (by simp) hlast]
      simp [hy]
    · have hlast : placeOf? (init ++ [y]).getLast? (init ++ [y]) = some init.length := by
        rw [List.getLast?_concat]
        exact placeOf?_append hy []
      rw [isRunOf_self_iff (by simp) hlast]
      simp [hy]

end Deduced

namespace Ty

/-- Nothing stands against combining the type with itself: it is no field with known dimensions, or
the last of them is not named before. -/
def FitsItself : Ty → Prop
  | field (.known names) _ => Deduced.LastOnce names
  | _ => True

/-- A number, or a field of numbers. -/
inductive Numeric : Ty → Prop
  | scalar {s : ScalarTy} : s.kind.isNumeric = true → Numeric (.scalar s)
  | field {dims : Dims} {s : ScalarTy} : s.kind.isNumeric = true → Numeric (.field dims s)

theorem Numeric.isArithmetic {τ : Ty} (h : τ.Numeric) : Deduced.isArithmetic (some τ) = true := by
  cases h with
  | scalar hs =>
    simp [Deduced.isArithmetic, Deduced.elementsMay, Deduced.isScalar, Deduced.constraint?,
      Constraint.of?, Deduced.dtype?, hs]
  | field hs =>
    simp [Deduced.isArithmetic, Deduced.elementsMay, Deduced.isField, Deduced.constraint?,
      Constraint.of?, Deduced.dtype?, hs]

end Ty

namespace Operator

theorem combines_self_iff {τ σ : Ty} : Combines τ τ σ ↔ τ.FitsItself ∧ σ = τ := by
  unfold Combines
  rw [Deduced.broadcast?_eq_some_iff, ite_self, Option.some.injEq, Deduced.broadcastable_iff]
  apply and_congr_left
  intro _
  cases τ with
  | field dims s =>
    cases dims with
    | any => simp [Ty.FitsItself, Deduced.dims?]
    | known names => simp [Ty.FitsItself, Deduced.dims?, Deduced.dimsFit_self_iff]
  | _ => simp [Ty.FitsItself, Deduced.dims?]

/-- The type of an expression combined with itself, where it has one. -/
theorem hasType_doubled_iff {t : Table} {inShift : Bool} {site : Site} {o : BinaryOp} {e : Expr}
    {τ σ : Ty} (ho : o.isArithmetic = true) (hτ : τ.Numeric) (he : HasType t inShift e τ) :
    HasType t inShift (.binary site o e e) σ ↔ τ.FitsItself ∧ σ = τ := by
  have hsuits : o.Suits τ := (BinaryOp.suits_iff_of_isArithmetic ho).mpr hτ.isArithmetic
  rw [hasType_binary_iff he he, ← combines_self_iff]
  simp [hsuits]

end Operator

/-! ## Types that name no dimension twice -/

/-- No field of the type names a dimension twice: not the type itself, not an element of it, and not
what a call of it returns. -/
inductive Ty.DistinctDims : Ty → Prop
  | deferred {c} : DistinctDims (.deferred c)
  | scalar {s} : DistinctDims (.scalar s)
  | anyField {s} : DistinctDims (.field .any s)
  | field {names s} : names.Nodup → DistinctDims (.field (.known names) s)
  | tuple {types} : (∀ τ ∈ types, DistinctDims τ) → DistinctDims (.tuple types)
  | function {args kwargs returns} : DistinctDims returns →
      DistinctDims (.function args kwargs returns)
  | offset {source target} : DistinctDims (.offset source target)
  | dimension {name} : DistinctDims (.dimension name)

theorem nodup_replaced {names : List String} {source : String} {target : List String}
    (h : names.Nodup) (htarget : target.Nodup) (hnew : ∀ d ∈ target, d ∈ names → d = source) :
    (Operator.replaced source target names).Nodup := by
  refine List.nodup_flatMap.mpr ⟨?_, ?_⟩
  · intro d _
    split
    · exact htarget
    · exact List.nodup_singleton d
  · -- Two dimensions leave disjoint lists: at most one of them is the source.
    refine h.imp_of_mem ?_
    intro d e hd he hne x hxd hxe
    rcases Operator.mem_replacement_iff.mp hxd with ⟨hdSource, hxTarget⟩ | ⟨hdSource, rfl⟩
    · rcases Operator.mem_replacement_iff.mp hxe with ⟨heSource, -⟩ | ⟨heSource, rfl⟩
      · exact hne (hdSource.trans heSource.symm)
      · exact heSource (hnew x hxTarget he)
    · rcases Operator.mem_replacement_iff.mp hxe with ⟨-, hxTarget⟩ | ⟨-, rfl⟩
      · exact hdSource (hnew x hxTarget hd)
      · exact hne rfl

namespace Ty.DistinctDims

theorem fitsItself {τ : Ty} (h : τ.DistinctDims) : τ.FitsItself := by
  cases h with
  | field hnames => exact Deduced.lastOnce_of_nodup hnames
  | _ => exact trivial

theorem boolified? {τ b : Ty} (h : τ.DistinctDims) (hb : Deduced.boolified? (some τ) = some b) :
    b.DistinctDims := by
  unfold Deduced.boolified? at hb
  split at hb
  · obtain rfl := Option.some.inj hb
    cases h with
    | field hnames => exact .field hnames
    | _ => exact .anyField
  · obtain rfl := Option.some.inj hb
    exact .scalar
  · cases hb

theorem combines {a b c : Ty} (ha : a.DistinctDims) (hb : b.DistinctDims)
    (h : Operator.Combines a b c) : c.DistinctDims := by
  rcases Deduced.eq_or_eq_of_broadcast? h with hc | hc
  · cases hc
    exact ha
  · cases hc
    exact hb

theorem compares {a b c : Ty} (ha : a.DistinctDims) (hb : b.DistinctDims)
    (h : Operator.Compares a b c) : c.DistinctDims := by
  obtain ⟨-, -, -, a', b', ha', hb', hc⟩ := h
  exact (ha.boolified? ha').combines (hb.boolified? hb') hc

theorem element? {τs : List Ty} {index : Int} {τ : Ty} (h : (Ty.tuple τs).DistinctDims)
    (hτ : Operator.element? τs index = some τ) : τ.DistinctDims := by
  cases h with
  | tuple hτs =>
    simp only [Operator.element?, Option.ite_none_left_eq_some] at hτ
    exact hτs τ (List.mem_of_getElem? hτ.2)

/-- A shift that brings in each target once, and none that the field has besides the source, leaves
no dimension named twice. -/
theorem shiftDims {names : List String} {source : String} {target : List String} {shifted : Dims}
    {s : ScalarTy} (h : names.Nodup) (htarget : target.Nodup)
    (hnew : ∀ d ∈ target, d ∈ names → d = source)
    (hshifted : Operator.shiftDims (.known names) source target = .ok shifted) :
    (Ty.field shifted s).DistinctDims := by
  rw [Operator.shiftDims_known (Operator.shiftable_of_shiftDims hshifted)] at hshifted
  cases hshifted
  exact .field (nodup_replaced h htarget hnew)

end Ty.DistinctDims

/-- Every name that the table has a type for has one that names no dimension twice. -/
def Table.DistinctDims (t : Table) : Prop := ∀ id τ, t.typeOf? id = some τ → τ.DistinctDims

theorem Table.distinctDims_ofSymbols {symbols : List Symbol}
    (h : ∀ s ∈ symbols, ∀ τ, s.ty = some τ → τ.DistinctDims) : (ofSymbols symbols).DistinctDims := by
  intro id τ hτ
  rw [typeOf?_ofSymbols] at hτ
  obtain ⟨s, hs, hty⟩ := Option.bind_eq_some_iff.mp hτ
  exact h s (List.mem_reverse.mp (List.mem_of_find?_eq_some hs)) τ hty

theorem Table.DistinctDims.declare {t : Table} (h : t.DistinctDims) (id : String) {τ : Ty}
    (hτ : τ.DistinctDims) : (t.declare id (some τ)).DistinctDims := by
  intro id' σ hσ
  rw [typeOf?_declare] at hσ
  split at hσ
  · cases hσ
    exact hτ
  · exact h id' σ hσ

namespace Operator

/-! ## Where a repeated dimension comes from -/

/-- None of the nodes carries a type that names a dimension twice. -/
def DistinctlyTyped (nodes : List Expr) : Prop := ∀ n ∈ nodes, ∀ τ, n.ty = some τ → τ.DistinctDims

theorem distinctlyTyped_of_untyped {nodes : List Expr} (h : ∀ n ∈ nodes, n.ty = none) :
    DistinctlyTyped nodes := by
  intro n hn τ hτ
  rw [h n hn] at hτ
  cases hτ

/-- The node is a shift that brings in a dimension twice, or one that the field has already and that
is not replaced. -/
def Expr.Repeats (n : Expr) : Prop :=
  ∃ site callee arg names s source target, n = .call site callee [arg] ∧
    callee.ty = some (.field (.known names) s) ∧ arg.ty = some (.offset source target) ∧
    ¬ (target.Nodup ∧ ∀ d ∈ target, d ∈ names → d = source)

theorem exists_of_mapM_ty {es : List Expr} {τs : List Ty} (h : es.mapM Expr.ty = some τs) :
    ∀ τ ∈ τs, ∃ e ∈ es, e.ty = some τ := by
  induction es generalizing τs with
  | nil =>
    cases h
    simp
  | cons e es ih =>
    simp only [List.mapM_cons, Option.bind_eq_bind, Option.bind_eq_some_iff] at h
    obtain ⟨σ, hσ, σs, hσs, h⟩ := h
    cases h
    intro τ hτ
    rcases List.mem_cons.mp hτ with rfl | hτ
    · exact ⟨e, List.mem_cons_self, hσ⟩
    · obtain ⟨e', he', hty⟩ := ih hσs τ hτ
      exact ⟨e', List.mem_cons_of_mem _ he', hty⟩

/-- Elements that name no dimension twice make a tuple that does not. -/
theorem DistinctlyTyped.tupleTy {es : List Expr} {τ : Ty} (h : DistinctlyTyped es)
    (hτ : Operator.tupleTy es = some τ) : τ.DistinctDims := by
  obtain ⟨τs, hτs, rfl⟩ := Option.map_eq_some_iff.mp hτ
  refine .tuple ?_
  intro σ hσ
  obtain ⟨e, he, hty⟩ := exists_of_mapM_ty hτs σ hσ
  exact h e he σ hty

/-- If each of some expressions is given such a type as long as it repeats no dimension, all are. -/
theorem distinctlyTyped_of_forall₂ {t : Table} {inShift : Bool} {es es' : List Expr}
    (ih : ∀ e ∈ es, ∀ e', Expr.deduce t inShift e = .ok e' → (∀ n ∈ e'.nodes, ¬ n.Repeats) →
      ∀ τ, e'.ty = some τ → τ.DistinctDims)
    (h : List.Forall₂ (fun e e' => Expr.deduce t inShift e = .ok e') es es')
    (hnew : ∀ e' ∈ es', ∀ n ∈ e'.nodes, ¬ n.Repeats) : DistinctlyTyped es' := by
  induction h with
  | nil => simp [DistinctlyTyped]
  | cons he _ ihes =>
    obtain ⟨hnewHead, hnewRest⟩ := List.forall_mem_cons.mp hnew
    refine List.forall_mem_cons.mpr ⟨ih _ List.mem_cons_self _ he hnewHead, ?_⟩
    exact ihes (fun e hm => ih e (List.mem_cons_of_mem _ hm)) hnewRest

/-- The type of a shift that repeats no dimension. -/
theorem distinctDims_of_shiftTy {site : Site} {callee : Expr} {dims : Dims} {dtype : ScalarTy}
    {args : List Expr} {loc : Location} {τ : Ty} (hcallee : callee.ty = some (.field dims dtype))
    (hdims : (Ty.field dims dtype).DistinctDims) (hnew : ¬ (Expr.call site callee args).Repeats)
    (h : shiftTy callee dims dtype args loc = .ok τ) : τ.DistinctDims := by
  obtain ⟨arg, source, target, shifted, rfl, harg, hshifted, rfl⟩ := shiftTy_eq_ok_iff.mp h
  cases hdims with
  | anyField =>
    cases hshifted
    exact .anyField
  | @field names _ hnames =>
    have htargets : target.Nodup ∧ ∀ d ∈ target, d ∈ names → d = source := by
      by_contra hrepeats
      exact hnew ⟨site, callee, arg, names, dtype, source, target, rfl, hcallee, harg, hrepeats⟩
    exact .shiftDims hnames htargets.1 htargets.2 hshifted

/-- **One expression.** Under a table that names no dimension twice, and without shifts that do,
deduction finds no type that does. -/
theorem distinctDims_of_deduce {t : Table} {inShift : Bool} {e e' : Expr} {τ : Ty}
    (ht : t.DistinctDims) (htyped : DistinctlyTyped e.nodes) (h : e.deduce t inShift = .ok e')
    (hnew : ∀ n ∈ e'.nodes, ¬ n.Repeats) (hτ : e'.ty = some τ) : τ.DistinctDims := by
  induction e using Expr.ind generalizing inShift e' τ with
  | name site id =>
    obtain ⟨σ, hσ, rfl⟩ := Expr.deduce_name_eq_ok.mp h
    cases hτ
    exact ht id τ hσ
  | const site value =>
    obtain ⟨-, rfl⟩ := Expr.deduce_const_eq_ok.mp h
    exact htyped _ (Expr.mem_nodes_self _) τ hτ
  | subscript site value index ih =>
    obtain ⟨value', ty, hvalue, hty, rfl⟩ := Expr.deduce_subscript_eq_ok.mp h
    have htypedValue := (List.forall_mem_cons.mp htyped).2
    have hnewValue := (List.forall_mem_cons.mp hnew).2
    cases inShift with
    | true =>
      obtain rfl : value'.ty = ty := Except.ok.inj hty
      exact ih htypedValue hvalue hnewValue hτ
    | false =>
      obtain ⟨τs, σ, hvalueTy, hσ, rfl⟩ := subscriptTy_eq_ok_iff.mp hty
      cases hτ
      exact (ih htypedValue hvalue hnewValue hvalueTy).element? hσ
  | binary site op left right ihl ihr =>
    obtain ⟨left', right', ty, hleft, hright, hty, rfl⟩ := Expr.deduce_binary_eq_ok.mp h
    obtain ⟨htypedLeft, htypedRight⟩ := List.forall_mem_append.mp (List.forall_mem_cons.mp htyped).2
    obtain ⟨hnewLeft, hnewRight⟩ := List.forall_mem_append.mp (List.forall_mem_cons.mp hnew).2
    obtain ⟨a, ha⟩ := exists_ty_of_deduce hleft
    obtain ⟨b, hb⟩ := exists_ty_of_deduce hright
    rw [ha, hb] at hty
    obtain ⟨c, rfl, -, -, hc⟩ := binaryTy?_eq_some_iff.mp hty
    cases hτ
    exact (ihl htypedLeft hleft hnewLeft ha).combines (ihr htypedRight hright hnewRight hb) hc
  | compare site op left right ihl ihr =>
    obtain ⟨left', right', ty, hleft, hright, hty, rfl⟩ := Expr.deduce_compare_eq_ok.mp h
    obtain ⟨htypedLeft, htypedRight⟩ := List.forall_mem_append.mp (List.forall_mem_cons.mp htyped).2
    obtain ⟨hnewLeft, hnewRight⟩ := List.forall_mem_append.mp (List.forall_mem_cons.mp hnew).2
    obtain ⟨a, ha⟩ := exists_ty_of_deduce hleft
    obtain ⟨b, hb⟩ := exists_ty_of_deduce hright
    rw [ha, hb] at hty
    obtain ⟨c, rfl, hc⟩ := compareTy?_eq_some_iff.mp hty
    cases hτ
    exact (ihl htypedLeft hleft hnewLeft ha).compares (ihr htypedRight hright hnewRight hb) hc
  | unary site op operand ih =>
    obtain ⟨operand', hoperand, -, rfl⟩ := Expr.deduce_unary_eq_ok.mp h
    exact ih (List.forall_mem_cons.mp htyped).2 hoperand (List.forall_mem_cons.mp hnew).2 hτ
  | tuple site elements ih =>
    obtain ⟨elements', helements, rfl⟩ := Expr.deduce_tuple_eq_ok.mp h
    have htypedElements := (List.forall_mem_cons.mp htyped).2
    have hnewElements := (List.forall_mem_cons.mp hnew).2
    rw [Expr.nodesOfAll_eq_flatMap, List.forall_mem_flatMap] at htypedElements hnewElements
    refine DistinctlyTyped.tupleTy (distinctlyTyped_of_forall₂ ?_ helements hnewElements) hτ
    intro e he e' hd hnew τ hτ
    exact ih e he (htypedElements e he) hd hnew hτ
  | call site callee args ihc iha =>
    obtain ⟨callee', hcallee, hcall⟩ := Expr.deduce_call_eq_ok.mp h
    have htypedCallee := (List.forall_mem_append.mp (List.forall_mem_cons.mp htyped).2).1
    rcases hcall with ⟨dims, dtype, args', σ, hty, -, hshift, rfl⟩ |
      ⟨params, kwargs, returns, args', hty, -, rfl⟩
    · obtain ⟨hnewCall, hnewParts⟩ := List.forall_mem_cons.mp hnew
      have hdims := ihc htypedCallee hcallee (List.forall_mem_append.mp hnewParts).1 hty
      cases hτ
      exact distinctDims_of_shiftTy hty hdims hnewCall hshift
    · have hnewParts := (List.forall_mem_cons.mp hnew).2
      have hfunction := ihc htypedCallee hcallee (List.forall_mem_append.mp hnewParts).1 hty
      cases hτ
      cases hfunction with
      | function hreturns => exact hreturns

/-- The value of an assignment, which is looked into only where its type is not complete. -/
theorem Settles.distinctDims {t : Table} {value value' : Expr} {τ : Ty}
    (h : Settles t value value') (ht : t.DistinctDims) (htyped : DistinctlyTyped value.nodes)
    (hnew : ∀ n ∈ value'.nodes, ¬ n.Repeats) (hτ : value'.ty = some τ) : τ.DistinctDims := by
  unfold Settles at h
  split at h
  · subst h
    exact htyped _ (Expr.mem_nodes_self _) τ hτ
  · exact distinctDims_of_deduce ht htyped h hnew hτ

/-- **One statement** declares no name with a type that names a dimension twice. -/
theorem Stmt.distinctDims_of_deduce {t t' : Table} {s s' : Stmt} (ht : t.DistinctDims)
    (htyped : DistinctlyTyped s.nodes) (h : s.deduce t = .ok (s', t'))
    (hnew : ∀ n ∈ s'.nodes, ¬ n.Repeats) : t'.DistinctDims := by
  cases s with
  | assign target value loc =>
    obtain ⟨value', τ, hvalue, hτ, -, heq⟩ := deduce_assign_eq_ok.mp h
    cases heq
    exact ht.declare target.id (hvalue.distinctDims ht htyped hnew hτ)
  | ret value loc =>
    obtain ⟨value', -, heq⟩ := deduce_ret_eq_ok.mp h
    cases heq
    exact ht
  | importSymbols symbols loc =>
    cases deduce_importSymbols_eq_ok.mp h
    exact ht

/-- **A run of statements** leaves a table that names no dimension twice. -/
theorem Reaches.distinctDims {t t' : Table} {body body' : List Stmt} (h : Reaches t body body' t')
    (ht : t.DistinctDims) (htyped : ∀ s ∈ body, DistinctlyTyped s.nodes)
    (hnew : ∀ s' ∈ body', ∀ n ∈ s'.nodes, ¬ n.Repeats) : t'.DistinctDims := by
  induction h with
  | nil => exact ht
  | cons hs _ ih =>
    obtain ⟨htypedHead, htypedRest⟩ := List.forall_mem_cons.mp htyped
    obtain ⟨hnewHead, hnewRest⟩ := List.forall_mem_cons.mp hnew
    exact ih (Stmt.distinctDims_of_deduce ht htypedHead hs hnewHead) htypedRest hnewRest

/-! ## Doubling -/

/-- No type that the operator declares, or that stands in its body already, names a dimension
twice. -/
structure DistinctDims (op : Operator) : Prop where
  declared : ∀ s ∈ op.declarations, ∀ τ, s.ty = some τ → τ.DistinctDims
  typed : ∀ s ∈ op.body, DistinctlyTyped s.nodes

/-- **When an expression combines with itself.** A number or a field of numbers is accepted as both
operands of an arithmetic operator exactly if its last dimension is not named before, and then the
result has its type. In an operator whose own types name each dimension once, at any statement of the
body, an expression that does not combine with itself goes back to a shift that repeated a dimension,
in the expression or in a statement before. -/
theorem doubled_iff_fitsItself (o : BinaryOp) (ho : o.isArithmetic = true) :
    (∀ (t : Table) (inShift : Bool) (site : Site) (e e' : Expr) (τ : Ty),
      e.deduce t inShift = .ok e' → e'.ty = some τ → τ.Numeric →
      ((∃ r, Expr.deduce t inShift (.binary site o e e) = .ok r) ↔ τ.FitsItself) ∧
      ∀ r, Expr.deduce t inShift (.binary site o e e) = .ok r → r.ty = some τ) ∧
    ∀ (op : Operator) (before before' after : List Stmt) (t : Table) (inShift : Bool) (e e' : Expr)
      (τ : Ty), op.DistinctDims → op.body = before ++ after →
      Reaches (Table.ofSymbols op.declarations) before before' t →
      DistinctlyTyped e.nodes → e.deduce t inShift = .ok e' → e'.ty = some τ → ¬ τ.FitsItself →
      ∃ n, (n ∈ e'.nodes ∨ ∃ s' ∈ before', n ∈ s'.nodes) ∧ n.Repeats := by
  constructor
  · intro t inShift site e e' τ he hτ hnumeric
    have htype : HasType t inShift e τ := hasType_iff.mpr ⟨e', he, hτ⟩
    constructor
    · rw [exists_deduce_iff]
      simp [hasType_doubled_iff ho hnumeric htype]
    · intro r hr
      obtain ⟨σ, hσ, hhas⟩ := hasType_of_deduce hr
      rw [hσ, ((hasType_doubled_iff ho hnumeric htype).mp hhas).2]
  · intro op before before' after t inShift e e' τ hop hbody hreaches htyped he hτ hfits
    by_contra hnone
    have hnew : ∀ n, (n ∈ e'.nodes ∨ ∃ s' ∈ before', n ∈ s'.nodes) → ¬ n.Repeats :=
      fun n hn hrepeats => hnone ⟨n, hn, hrepeats⟩
    have htable : t.DistinctDims := by
      refine hreaches.distinctDims (Table.distinctDims_ofSymbols hop.declared) ?_ ?_
      · intro s hs
        exact hop.typed s (hbody ▸ List.mem_append_left after hs)
      · intro s' hs' n hn
        exact hnew n (.inr ⟨s', hs', hn⟩)
    have hdistinct := distinctDims_of_deduce htable htyped he (fun n hn => hnew n (.inl hn)) hτ
    exact hfits hdistinct.fitsItself

section SecondNeighbours

private def meshSite : Site := { loc := { source := "ops.py", line := 1, column := 1 } }

/-- `f(C2C)(C2C)`, the neighbours of the neighbours of every cell. -/
def secondNeighbours : Expr :=
  .call meshSite (.call meshSite (.name meshSite "f") [.name meshSite "C2C"]) [.name meshSite "C2C"]

/-- `return f(C2C)(C2C) + f(C2C)(C2C)`, where `C2C` leads from a cell to its neighbours. -/
def sumOfSecondNeighbours : Operator :=
  { id := "sum_of_second_neighbours"
    params := [⟨"f", some (.field (.known ["Cell"]) { kind := .float64 }), SymbolSpace.local,
      meshSite.loc⟩]
    captured := [⟨"C2C", some (.offset "Cell" ["Cell", "Near"]), SymbolSpace.closure, meshSite.loc⟩]
    body := [.ret (.binary meshSite .add secondNeighbours secondNeighbours) meshSite.loc]
    loc := meshSite.loc }

theorem sumOfSecondNeighbours_distinctDims : sumOfSecondNeighbours.DistinctDims := by
  constructor
  · have hdeclared : sumOfSecondNeighbours.declarations.map Symbol.ty =
        [some (.field (.known ["Cell"]) { kind := .float64 }),
          some (.offset "Cell" ["Cell", "Near"])] := rfl
    intro s hs τ hτ
    have hmem : some τ ∈ sumOfSecondNeighbours.declarations.map Symbol.ty :=
      List.mem_map.mpr ⟨s, hs, hτ⟩
    rw [hdeclared] at hmem
    simp only [List.mem_cons, Option.some.injEq, List.not_mem_nil, or_false] at hmem
    rcases hmem with rfl | rfl
    · exact .field (List.nodup_singleton _)
    · exact .offset
  · have huntyped : ∀ s ∈ sumOfSecondNeighbours.body, ∀ n ∈ s.nodes, n.ty = none := by decide
    intro s hs
    exact distinctlyTyped_of_untyped (huntyped s hs)

/-- The second shift brings in `Near` once more, at the end, and the sum is refused. -/
theorem secondNeighbours_not_doubled :
    ∃ e', secondNeighbours.deduce (Table.ofSymbols sumOfSecondNeighbours.declarations) false =
        .ok e' ∧
      e'.ty = some (.field (.known ["Cell", "Near", "Near"]) { kind := .float64 }) ∧
      (¬ ∃ r, Expr.deduce (Table.ofSymbols sumOfSecondNeighbours.declarations) false
        (.binary meshSite .add secondNeighbours secondNeighbours) = .ok r) ∧
      ∃ n, n ∈ e'.nodes ∧ n.Repeats := by
  obtain ⟨hdouble, horigin⟩ := doubled_iff_fitsItself .add rfl
  have hfits : ¬ (Ty.field (.known ["Cell", "Near", "Near"]) { kind := .float64 }).FitsItself := by
    simp [Ty.FitsItself, Deduced.LastOnce]
  have huntyped : DistinctlyTyped secondNeighbours.nodes := distinctlyTyped_of_untyped (by decide)
  refine ⟨_, rfl, rfl, ?_, ?_⟩
  · intro hr
    exact hfits ((hdouble _ _ _ _ _ _ rfl rfl (.field rfl)).1.mp hr)
  · obtain ⟨n, hn | ⟨s', hs', -⟩, hrepeats⟩ := horigin sumOfSecondNeighbours [] [] _ _ false _ _ _
      sumOfSecondNeighbours_distinctDims rfl .nil huntyped rfl rfl hfits
    · exact ⟨n, hn, hrepeats⟩
    · cases hs'

end SecondNeighbours

end Operator

end FieldView
