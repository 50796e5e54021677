import FieldView.Proofs.Typing.Scoping

/-!
# Tables that agree

Deduction asks a table only for the names that stand in an expression. Two tables that agree on
these give the same answer, failures included (`Expr.deduce_congr`), and a statement that succeeds
leaves tables that agree wherever they did before (`Stmt.deduce_congr`).
-/

set_option autoImplicit false

namespace FieldView.Operator

/-! ## Names -/

namespace Expr

/-- The names that an expression uses, from left to right. -/
def names (e : Expr) : List String := e.nodes.filterMap name?

section Forms

variable (site : Site)

@[simp]
theorem names_name (id : String) : (name site id).names = [id] := rfl

@[simp]
theorem names_const (value : String) : (const site value).names = [] := rfl

@[simp]
theorem names_subscript (value : Expr) (index : Int) :
    (subscript site value index).names = value.names := rfl

@[simp]
theorem names_binary (op : BinaryOp) (left right : Expr) :
    (binary site op left right).names = left.names ++ right.names := List.filterMap_append

@[simp]
theorem names_compare (op : CompareOp) (left right : Expr) :
    (compare site op left right).names = left.names ++ right.names := List.filterMap_append

@[simp]
theorem names_unary (op : UnaryOp) (operand : Expr) :
    (unary site op operand).names = operand.names := rfl

@[simp]
theorem names_tuple (elements : List Expr) :
    (tuple site elements).names = elements.flatMap names := by
  simp only [names, nodes, nodesOfAll_eq_flatMap, List.filterMap_cons, List.filterMap_flatMap]
  rfl

@[simp]
theorem names_call (callee : Expr) (args : List Expr) :
    (call site callee args).names = callee.names ++ args.flatMap names := by
  simp only [names, nodes, nodesOfAll_eq_flatMap, List.filterMap_cons, List.filterMap_append,
    List.filterMap_flatMap]
  rfl

end Forms

/-! ## Expressions -/

theorem deduceAll_congr {t u : Table} {inShift : Bool} {es : List Expr}
    (h : ∀ e ∈ es, deduce t inShift e = deduce u inShift e) :
    deduceAll t inShift es = deduceAll u inShift es := by
  induction es with
  | nil => rw [deduceAll, deduceAll]
  | cons e es ih =>
    have hrest := ih fun e' he' => h e' (List.mem_cons_of_mem _ he')
    rw [deduceAll, deduceAll, h e List.mem_cons_self, hrest]

/-- **Deduction depends on the names that are used, and on nothing else of the table.** -/
theorem deduce_congr {t u : Table} {inShift : Bool} {e : Expr}
    (h : ∀ id ∈ e.names, t.typeOf? id = u.typeOf? id) :
    deduce t inShift e = deduce u inShift e := by
  induction e using Expr.ind generalizing inShift with
  | name site id => rw [deduce, deduce, h id (by simp)]
  | const site value => rw [deduce, deduce]
  | subscript site value index ih => rw [deduce, deduce, ih h]
  | binary site op left right ihl ihr =>
    rw [names_binary] at h
    have hleft := @ihl inShift fun id hid => h id (List.mem_append_left _ hid)
    have hright := @ihr inShift fun id hid => h id (List.mem_append_right _ hid)
    rw [deduce, deduce, hleft, hright]
  | compare site op left right ihl ihr =>
    rw [names_compare] at h
    have hleft := @ihl inShift fun id hid => h id (List.mem_append_left _ hid)
    have hright := @ihr inShift fun id hid => h id (List.mem_append_right _ hid)
    rw [deduce, deduce, hleft, hright]
  | unary site op operand ih => rw [deduce, deduce, ih h]
  | tuple site elements ih =>
    rw [names_tuple] at h
    have helements : deduceAll t inShift elements = deduceAll u inShift elements := by
      apply deduceAll_congr
      intro e he
      exact ih e he fun id hid => h id (List.mem_flatMap.mpr ⟨e, he, hid⟩)
    rw [deduce, deduce, helements]
  | call site callee args ihc iha =>
    rw [names_call] at h
    have hcallee := @ihc inShift fun id hid => h id (List.mem_append_left _ hid)
    have hargs : ∀ inShift, deduceAll t inShift args = deduceAll u inShift args := by
      intro inShift
      apply deduceAll_congr
      intro e he
      refine iha e he fun id hid => h id (List.mem_append_right _ ?_)
      exact List.mem_flatMap.mpr ⟨e, he, hid⟩
    rw [deduce, deduce, hcallee, hargs, hargs]

end Expr

theorem HasType.congr {t u : Table} {inShift : Bool} {e : Expr} {τ : Ty}
    (h : HasType t inShift e τ) (hnames : ∀ id ∈ e.names, t.typeOf? id = u.typeOf? id) :
    HasType u inShift e τ := by
  rw [hasType_iff] at h ⊢
  rwa [← Expr.deduce_congr hnames]

/-! ## Statements -/

namespace Stmt

/-- The names that the expressions of a statement use. -/
def names (s : Stmt) : List String := s.nodes.filterMap Expr.name?

end Stmt

theorem Settles.congr {t u : Table} {value value' : Expr} (h : Settles t value value')
    (hnames : ∀ id ∈ value.names, t.typeOf? id = u.typeOf? id) : Settles u value value' := by
  unfold Settles at h ⊢
  rwa [← Expr.deduce_congr hnames]

/-- A statement does the same under tables that agree on its names. Afterwards they agree on what it
assigns to as well. -/
theorem Stmt.deduce_congr {t u t' : Table} {s s' : Stmt} (h : s.deduce t = .ok (s', t'))
    (hnames : ∀ id ∈ s.names, t.typeOf? id = u.typeOf? id) :
    ∃ u', s.deduce u = .ok (s', u') ∧
      ∀ id, (s.assigned? id = none → t.typeOf? id = u.typeOf? id) →
        t'.typeOf? id = u'.typeOf? id := by
  cases s with
  | assign target value loc =>
    obtain ⟨value', τ, hvalue, hτ, hrefines, heq⟩ := deduce_assign_eq_ok.mp h
    cases heq
    refine ⟨u.declare target.id (some τ), ?_, ?_⟩
    · exact deduce_assign_eq_ok.mpr ⟨value', τ, hvalue.congr hnames, hτ, hrefines, rfl⟩
    · intro id hid
      rw [Table.typeOf?_declare, Table.typeOf?_declare]
      by_cases htarget : target.id = id
      · rw [if_pos htarget, if_pos htarget]
      · rw [if_neg htarget, if_neg htarget]
        exact hid (if_neg htarget)
  | ret value loc =>
    obtain ⟨value', hvalue, heq⟩ := deduce_ret_eq_ok.mp h
    cases heq
    rw [Expr.deduce_congr hnames] at hvalue
    exact ⟨u, deduce_ret_eq_ok.mpr ⟨value', hvalue, rfl⟩, fun _ hid => hid rfl⟩
  | importSymbols symbols loc =>
    cases deduce_importSymbols_eq_ok.mp h
    exact ⟨u, deduce_importSymbols_eq_ok.mpr rfl, fun _ hid => hid rfl⟩

/-! ## Runs -/

/-- Statements become others one by one, from one table to the next. -/
inductive Reaches : Table → List Stmt → List Stmt → Table → Prop
  | nil {t} : Reaches t [] [] t
  | cons {t t' t'' s s' rest rest'} : Stmt.deduce t s = .ok (s', t') → Reaches t' rest rest' t'' →
      Reaches t (s :: rest) (s' :: rest') t''

/-- A body is deduced in two stretches, the second under the table that the first one leaves. -/
theorem deduceBody_append_eq_ok {t : Table} {before after body' : List Stmt} :
    deduceBody t (before ++ after) = .ok body' ↔
      ∃ before' t' after', Reaches t before before' t' ∧ deduceBody t' after = .ok after' ∧
        body' = before' ++ after' := by
  induction before generalizing t body' with
  | nil =>
    constructor
    · intro h
      exact ⟨[], t, body', .nil, h, rfl⟩
    · rintro ⟨before', t', after', hbefore, hafter, rfl⟩
      cases hbefore
      exact hafter
  | cons s before ih =>
    rw [List.cons_append, deduceBody_cons_eq_ok]
    constructor
    · rintro ⟨s', t', rest', hs, hrest, rfl⟩
      obtain ⟨before', t'', after', hbefore, hafter, rfl⟩ := ih.mp hrest
      exact ⟨s' :: before', t'', after', .cons hs hbefore, hafter, rfl⟩
    · rintro ⟨before', t'', after', hbefore, hafter, rfl⟩
      cases hbefore with
      | cons hs hbefore => exact ⟨_, _, _, hs, ih.mpr ⟨_, _, _, hbefore, hafter, rfl⟩, rfl⟩

theorem Reaches.deduceBody {t t' : Table} {body body' : List Stmt} (h : Reaches t body body' t') :
    deduceBody t body = .ok body' := by
  have happend : Operator.deduceBody t (body ++ []) = .ok (body' ++ []) :=
    deduceBody_append_eq_ok.mpr ⟨body', t', [], h, rfl, rfl⟩
  rwa [List.append_nil, List.append_nil] at happend

/-- Statements that use only some of the names do not see where tables differ on the others. -/
theorem Reaches.congr {t u t' : Table} {body body' : List Stmt} {visible : String → Prop}
    (h : Reaches t body body' t') (hnames : ∀ s ∈ body, ∀ id ∈ s.names, visible id)
    (hagree : ∀ id, visible id → t.typeOf? id = u.typeOf? id) :
    ∃ u', Reaches u body body' u' ∧ ∀ id, visible id → t'.typeOf? id = u'.typeOf? id := by
  induction h generalizing u with
  | nil => exact ⟨u, .nil, hagree⟩
  | cons hs _ ih =>
    have hstmt := hnames _ List.mem_cons_self
    obtain ⟨u₁, hs', hagree'⟩ := Stmt.deduce_congr hs fun id hid => hagree id (hstmt id hid)
    obtain ⟨u', hrest, hfinal⟩ := ih (fun s hm => hnames s (List.mem_cons_of_mem _ hm))
      fun id hid => hagree' id fun _ => hagree id hid
    exact ⟨u', .cons hs' hrest, hfinal⟩

end FieldView.Operator
