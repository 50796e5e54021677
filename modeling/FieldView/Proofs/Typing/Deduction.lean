import Mathlib.Data.List.Forall2
import FieldView.Operator.Typing

/-!
# Runs of type deduction on operators

What a successful run of `Expr.deduce` consists of, form by form. The files after this one argue from
these equivalences (`deduce_binary_eq_ok` and its like) and never open the definition again.

The main fact about a run is `forall₂_nodes`: the nodes of the result stand to the nodes of the
expression one to one and in order, and each is what deducing its counterpart gives. Since nothing
that was deduced has an unknown type (`exists_ty_of_deduce`), no node of the result has.
-/

set_option autoImplicit false

namespace FieldView

theorem Typed.bind_eq_ok {α β : Type} {x : Typed α} {f : α → Typed β} {b : β} :
    (x >>= f) = .ok b ↔ ∃ a, x = .ok a ∧ f a = .ok b := by
  cases x with
  | error e => simp [bind, Except.bind]
  | ok a => simp [bind, Except.bind]

theorem Typed.bind_return_eq_ok {α β : Type} {x : Typed α} {f : α → β} {b : β} :
    (do
      let a ← x
      return f a) = .ok b ↔ ∃ a, x = .ok a ∧ b = f a := by
  rw [Typed.bind_eq_ok]
  constructor
  · rintro ⟨a, ha, h⟩
    exact ⟨a, ha, (Except.ok.inj h).symm⟩
  · rintro ⟨a, ha, rfl⟩
    exact ⟨a, ha, rfl⟩

/-- What follows a choice may stand in both branches of it. -/
theorem Typed.ite_bind {α β : Type} {c : Prop} [Decidable c] {x y : Typed α} {f : α → Typed β} :
    (if c then x >>= f else y >>= f) = (if c then x else y) >>= f := by
  split
  · rfl
  · rfl

/-- A function that goes through a list in order succeeds where it does on every element. -/
theorem Typed.all_eq_ok {α β : Type} {f : α → Typed β} {all : List α → Typed (List β)}
    (hnil : all [] = .ok [])
    (hcons : ∀ a as, all (a :: as) = do
      let b ← f a
      let bs ← all as
      return b :: bs)
    {as : List α} {bs : List β} :
    all as = .ok bs ↔ List.Forall₂ (fun a b => f a = .ok b) as bs := by
  induction as generalizing bs with
  | nil =>
    rw [hnil, List.forall₂_nil_left_iff]
    simp [eq_comm]
  | cons a as ih =>
    rw [hcons, Typed.bind_eq_ok, List.forall₂_cons_left_iff]
    constructor
    · rintro ⟨b, ha, h⟩
      obtain ⟨rest, has, h⟩ := Typed.bind_eq_ok.mp h
      cases h
      exact ⟨b, rest, ha, ih.mp has, rfl⟩
    · rintro ⟨b, rest, ha, has, rfl⟩
      exact ⟨b, ha, Typed.bind_eq_ok.mpr ⟨rest, ih.mpr has, rfl⟩⟩

@[simp]
theorem Typed.fail_ne_ok {α : Type} {fault : TypingFault} {loc : Location} {a : α} :
    (Typed.fail fault loc : Typed α) ≠ .ok a := by
  simp [Typed.fail]

theorem forall_mem_of_forall₂ {α β : Type} {R : α → β → Prop} {P : β → Prop}
    (hR : ∀ a b, R a b → P b) {as : List α} {bs : List β} (h : List.Forall₂ R as bs) :
    ∀ b ∈ bs, P b := by
  induction h with
  | nil => simp
  | cons hab _ ih =>
    intro b hb
    rcases List.mem_cons.mp hb with rfl | hb
    · exact hR _ _ hab
    · exact ih b hb

theorem map_eq_map_of_forall₂ {α β γ : Type} {f : α → γ} {g : β → γ} {as : List α} {bs : List β}
    (h : List.Forall₂ (fun a b => g b = f a) as bs) : bs.map g = as.map f := by
  induction h with
  | nil => rfl
  | cons hab _ ih => rw [List.map_cons, List.map_cons, hab, ih]

theorem filterMap_eq_filterMap_of_forall₂ {α β γ : Type} {f : α → Option γ} {g : β → Option γ}
    {as : List α} {bs : List β} (h : List.Forall₂ (fun a b => g b = f a) as bs) :
    bs.filterMap g = as.filterMap f := by
  induction h with
  | nil => rfl
  | cons hab _ ih => rw [List.filterMap_cons, List.filterMap_cons, hab, ih]

/-- The occurrence of a name has become one at the same place with the type that a rule gives to the
name. -/
def GivenBy (rule : String → Deduced) (o o' : Site × String) : Prop :=
  ∃ τ, rule o.2 = some τ ∧ o' = (o.1.withTy (some τ), o.2)

namespace Operator

namespace Expr

/-- Induction over an expression, with the hypothesis for every member of a list of parts. -/
@[elab_as_elim]
theorem ind {motive : Expr → Prop}
    (name : ∀ site id, motive (.name site id))
    (const : ∀ site value, motive (.const site value))
    (subscript : ∀ site value index, motive value → motive (.subscript site value index))
    (binary : ∀ site op left right, motive left → motive right →
      motive (.binary site op left right))
    (compare : ∀ site op left right, motive left → motive right →
      motive (.compare site op left right))
    (unary : ∀ site op operand, motive operand → motive (.unary site op operand))
    (tuple : ∀ site elements, (∀ e ∈ elements, motive e) → motive (.tuple site elements))
    (call : ∀ site callee args, motive callee → (∀ e ∈ args, motive e) →
      motive (.call site callee args))
    (e : Expr) : motive e := by
  refine @Expr.rec motive (fun es => ∀ e ∈ es, motive e)
    name const subscript binary compare unary tuple call ?_ ?_ e
  · intro e he
    cases he
  · intro e es ihe ihes e' he'
    rcases List.mem_cons.mp he' with rfl | he'
    · exact ihe
    · exact ihes e' he'

/-! ## The parts of a run -/

section Parts

variable {t : Table} {inShift : Bool} {site : Site} {r : Expr}

theorem deduceAll_eq_ok {es es' : List Expr} :
    deduceAll t inShift es = .ok es' ↔
      List.Forall₂ (fun e e' => deduce t inShift e = .ok e') es es' :=
  Typed.all_eq_ok (by rw [deduceAll]) fun e es => by rw [deduceAll]

theorem deduce_name_eq_ok {id : String} :
    deduce t inShift (.name site id) = .ok r ↔
      ∃ τ, t.typeOf? id = some τ ∧ r = .name (site.withTy (some τ)) id := by
  rw [deduce]
  cases t.typeOf? id with
  | none => simp
  | some τ => simp [eq_comm]

theorem deduce_const_eq_ok {value : String} :
    deduce t inShift (.const site value) = .ok r ↔
      (∃ τ, site.ty = some τ) ∧ r = .const site value := by
  rw [deduce]
  cases site.ty with
  | none => simp
  | some τ => simp [eq_comm]

theorem deduce_subscript_eq_ok {value : Expr} {index : Int} :
    deduce t inShift (.subscript site value index) = .ok r ↔
      ∃ value' ty, deduce t inShift value = .ok value' ∧
        subscriptTy inShift value' index = .ok ty ∧
        r = .subscript (site.withTy ty) value' index := by
  rw [deduce, Typed.bind_eq_ok]
  constructor
  · rintro ⟨value', hvalue, h⟩
    obtain ⟨ty, hty, h⟩ := Typed.bind_eq_ok.mp h
    cases h
    exact ⟨value', ty, hvalue, hty, rfl⟩
  · rintro ⟨value', ty, hvalue, hty, rfl⟩
    exact ⟨value', hvalue, Typed.bind_eq_ok.mpr ⟨ty, hty, rfl⟩⟩

/-- Two operands, a rule for their types, and a failure where the rule gives no type. -/
theorem combine_eq_ok {x y : Typed Expr} {rule : Deduced → Deduced → Option Deduced}
    {build : Deduced → Expr → Expr → Expr} {fault : Expr → Expr → TypingFault} {loc : Location} :
    (do
      let left ← x
      let right ← y
      match rule left.ty right.ty with
      | some ty => return build ty left right
      | none => Typed.fail (fault left right) loc) = .ok r ↔
      ∃ left right ty, x = .ok left ∧ y = .ok right ∧ rule left.ty right.ty = some ty ∧
        r = build ty left right := by
  rw [Typed.bind_eq_ok]
  constructor
  · rintro ⟨left, hleft, h⟩
    obtain ⟨right, hright, h⟩ := Typed.bind_eq_ok.mp h
    cases hty : rule left.ty right.ty with
    | none => simp [hty] at h
    | some ty =>
      rw [hty] at h
      cases h
      exact ⟨left, right, ty, hleft, hright, hty, rfl⟩
  · rintro ⟨left, right, ty, hleft, hright, hty, rfl⟩
    refine ⟨left, hleft, Typed.bind_eq_ok.mpr ⟨right, hright, ?_⟩⟩
    rw [hty]
    rfl

theorem deduce_binary_eq_ok {op : BinaryOp} {left right : Expr} :
    deduce t inShift (.binary site op left right) = .ok r ↔
      ∃ left' right' ty, deduce t inShift left = .ok left' ∧ deduce t inShift right = .ok right' ∧
        binaryTy? op left'.ty right'.ty = some ty ∧
        r = .binary (site.withTy ty) op left' right' := by
  rw [deduce]
  exact combine_eq_ok

theorem deduce_compare_eq_ok {op : CompareOp} {left right : Expr} :
    deduce t inShift (.compare site op left right) = .ok r ↔
      ∃ left' right' ty, deduce t inShift left = .ok left' ∧ deduce t inShift right = .ok right' ∧
        compareTy? left'.ty right'.ty = some ty ∧
        r = .compare (site.withTy ty) op left' right' := by
  rw [deduce]
  exact combine_eq_ok

theorem deduce_unary_eq_ok {op : UnaryOp} {operand : Expr} :
    deduce t inShift (.unary site op operand) = .ok r ↔
      ∃ operand', deduce t inShift operand = .ok operand' ∧ unarySuits op operand'.ty = true ∧
        r = .unary (site.withTy operand'.ty) op operand' := by
  rw [deduce, Typed.bind_eq_ok]
  constructor
  · rintro ⟨operand', hoperand, h⟩
    by_cases hsuits : unarySuits op operand'.ty = true
    · rw [if_pos hsuits] at h
      cases h
      exact ⟨operand', hoperand, hsuits, rfl⟩
    · rw [if_neg hsuits] at h
      exact absurd h Typed.fail_ne_ok
  · rintro ⟨operand', hoperand, hsuits, rfl⟩
    refine ⟨operand', hoperand, ?_⟩
    rw [if_pos hsuits]
    rfl

theorem deduce_tuple_eq_ok {elements : List Expr} :
    deduce t inShift (.tuple site elements) = .ok r ↔
      ∃ elements', List.Forall₂ (fun e e' => deduce t inShift e = .ok e') elements elements' ∧
        r = .tuple (site.withTy (tupleTy elements')) elements' := by
  rw [deduce, Typed.bind_return_eq_ok]
  simp only [deduceAll_eq_ok]

/-- A call is the shift of a field or the call of a function. Only the arguments of a shift are
deduced as such. -/
theorem deduce_call_eq_ok {callee : Expr} {args : List Expr} :
    deduce t inShift (.call site callee args) = .ok r ↔
      ∃ callee', deduce t inShift callee = .ok callee' ∧
        ((∃ dims dtype args' τ, callee'.ty = some (.field dims dtype) ∧
            List.Forall₂ (fun e e' => deduce t true e = .ok e') args args' ∧
            shiftTy callee' dims dtype args' site.loc = .ok τ ∧
            r = .call (site.withTy (some τ)) callee' args') ∨
          (∃ params kwargs returns args', callee'.ty = some (.function params kwargs returns) ∧
            List.Forall₂ (fun e e' => deduce t inShift e = .ok e') args args' ∧
            r = .call (site.withTy (some returns)) callee' args')) := by
  rw [deduce, Typed.bind_eq_ok]
  constructor
  · rintro ⟨callee', hcallee, h⟩
    refine ⟨callee', hcallee, ?_⟩
    split at h
    · rename_i dims dtype hty
      obtain ⟨args', hargs, h⟩ := Typed.bind_eq_ok.mp h
      obtain ⟨τ, hτ, h⟩ := Typed.bind_eq_ok.mp h
      cases h
      exact .inl ⟨dims, dtype, args', τ, hty, deduceAll_eq_ok.mp hargs, hτ, rfl⟩
    · rename_i params kwargs returns hty
      obtain ⟨args', hargs, h⟩ := Typed.bind_eq_ok.mp h
      cases h
      exact .inr ⟨params, kwargs, returns, args', hty, deduceAll_eq_ok.mp hargs, rfl⟩
    · exact absurd h Typed.fail_ne_ok
  · rintro ⟨callee', hcallee, hcall⟩
    refine ⟨callee', hcallee, ?_⟩
    rcases hcall with ⟨dims, dtype, args', τ, hty, hargs, hτ, rfl⟩ |
      ⟨params, kwargs, returns, args', hty, hargs, rfl⟩
    · rw [hty]
      refine Typed.bind_eq_ok.mpr ⟨args', deduceAll_eq_ok.mpr hargs, ?_⟩
      exact Typed.bind_eq_ok.mpr ⟨τ, hτ, rfl⟩
    · rw [hty]
      exact Typed.bind_eq_ok.mpr ⟨args', deduceAll_eq_ok.mpr hargs, rfl⟩

end Parts

/-! ## Nodes -/

mutual

/-- The expression and all that it is made of, every part before its own parts. -/
def nodes : Expr → List Expr
  | name site id => [name site id]
  | const site value => [const site value]
  | subscript site value index => subscript site value index :: value.nodes
  | binary site op left right => binary site op left right :: (left.nodes ++ right.nodes)
  | compare site op left right => compare site op left right :: (left.nodes ++ right.nodes)
  | unary site op operand => unary site op operand :: operand.nodes
  | tuple site elements => tuple site elements :: nodesOfAll elements
  | call site callee args => call site callee args :: (callee.nodes ++ nodesOfAll args)

/-- The nodes of several expressions, in order. -/
def nodesOfAll : List Expr → List Expr
  | [] => []
  | e :: es => e.nodes ++ nodesOfAll es

end

theorem nodesOfAll_eq_flatMap (es : List Expr) : nodesOfAll es = es.flatMap nodes := by
  induction es with
  | nil => rfl
  | cons e es ih => rw [nodesOfAll, ih, List.flatMap_cons]

theorem mem_nodes_self (e : Expr) : e ∈ e.nodes := by
  cases e <;> simp [nodes]

/-- One expression is what another becomes when its type is deduced, inside a shift or outside. -/
def BecomesUnder (t : Table) (e e' : Expr) : Prop := ∃ inShift, deduce t inShift e = .ok e'

/-- If deduction does something to every node of some expressions, it does so to the nodes of all of
them together. -/
theorem forall₂_nodesOfAll {t : Table} {inShift : Bool} {R : Expr → Expr → Prop}
    {es es' : List Expr}
    (ih : ∀ e ∈ es, ∀ (inShift : Bool) (e' : Expr), deduce t inShift e = .ok e' →
      List.Forall₂ R e.nodes e'.nodes)
    (h : List.Forall₂ (fun e e' => deduce t inShift e = .ok e') es es') :
    List.Forall₂ R (nodesOfAll es) (nodesOfAll es') := by
  rw [nodesOfAll_eq_flatMap, nodesOfAll_eq_flatMap]
  refine List.rel_flatMap ((List.forall₂_and_left _ _).mpr ⟨ih, h⟩) ?_
  rintro e e' ⟨ihe, he⟩
  exact ihe inShift e' he

/-- **Every node of the result was deduced**, from the node at the same place of the expression. -/
theorem forall₂_nodes {t : Table} {inShift : Bool} {e e' : Expr}
    (h : deduce t inShift e = .ok e') : List.Forall₂ (BecomesUnder t) e.nodes e'.nodes := by
  induction e using Expr.ind generalizing inShift e' with
  | name site id =>
    obtain ⟨τ, -, rfl⟩ := deduce_name_eq_ok.mp h
    exact .cons ⟨_, h⟩ .nil
  | const site value =>
    obtain ⟨-, rfl⟩ := deduce_const_eq_ok.mp h
    exact .cons ⟨_, h⟩ .nil
  | subscript site value index ih =>
    obtain ⟨value', ty, hvalue, -, rfl⟩ := deduce_subscript_eq_ok.mp h
    exact .cons ⟨_, h⟩ (ih hvalue)
  | binary site op left right ihl ihr =>
    obtain ⟨left', right', ty, hleft, hright, -, rfl⟩ := deduce_binary_eq_ok.mp h
    exact .cons ⟨_, h⟩ (List.rel_append (ihl hleft) (ihr hright))
  | compare site op left right ihl ihr =>
    obtain ⟨left', right', ty, hleft, hright, -, rfl⟩ := deduce_compare_eq_ok.mp h
    exact .cons ⟨_, h⟩ (List.rel_append (ihl hleft) (ihr hright))
  | unary site op operand ih =>
    obtain ⟨operand', hoperand, -, rfl⟩ := deduce_unary_eq_ok.mp h
    exact .cons ⟨_, h⟩ (ih hoperand)
  | tuple site elements ih =>
    obtain ⟨elements', helements, rfl⟩ := deduce_tuple_eq_ok.mp h
    exact .cons ⟨_, h⟩ (forall₂_nodesOfAll (fun e he _ _ => ih e he) helements)
  | call site callee args ihc iha =>
    obtain ⟨callee', hcallee, hcall⟩ := deduce_call_eq_ok.mp h
    have hparts := ihc hcallee
    -- The arguments of a shift are deduced in another context; their nodes do not care.
    rcases hcall with ⟨dims, dtype, args', τ, -, hargs, -, rfl⟩ |
      ⟨params, kwargs, returns, args', -, hargs, rfl⟩
    all_goals
      refine .cons ⟨_, h⟩ (List.rel_append hparts ?_)
      exact forall₂_nodesOfAll (fun e he _ _ => iha e he) hargs

end Expr

/-! ## Statements -/

namespace Stmt

/-- The nodes of all expressions of a statement. -/
def nodes : Stmt → List Expr
  | assign _ value _ => value.nodes
  | ret value _ => value.nodes
  | importSymbols _ _ => []

end Stmt

end Operator

end FieldView
