import FieldView.Proofs.Ty.Refinement
import FieldView.Proofs.Typing.Agreement

/-!
# Deducing twice

An operator that has its types is deduced to be itself, if every name is assigned before it is used.

The two runs do not start alike. In the second one the assigned symbols are declared with the types
that the first one found, so the tables differ on every name whose assignment is still to come. No
statement up to there asks for such a name, and the assignment itself makes the tables agree on it.
An expression under the table it was deduced under is left as it is, whether the assignment looks
into its value again or not.
-/

set_option autoImplicit false

namespace FieldView

namespace Operator

/-! ## Expressions -/

theorem forall₂_deduced {t : Table} {inShift : Bool} {es es' : List Expr}
    (ih : ∀ e ∈ es, ∀ e', Expr.deduce t inShift e = .ok e' → Expr.deduce t inShift e' = .ok e')
    (h : List.Forall₂ (fun e e' => Expr.deduce t inShift e = .ok e') es es') :
    List.Forall₂ (fun e e' => Expr.deduce t inShift e = .ok e') es' es' := by
  induction h with
  | nil => exact .nil
  | cons he _ ihes =>
    exact .cons (ih _ List.mem_cons_self _ he)
      (ihes fun e hm => ih e (List.mem_cons_of_mem _ hm))

/-- **What was deduced is deduced to be itself.** -/
theorem Expr.deduce_deduced {t : Table} {inShift : Bool} {e e' : Expr}
    (h : e.deduce t inShift = .ok e') : e'.deduce t inShift = .ok e' := by
  induction e using Expr.ind generalizing inShift e' with
  | name site id =>
    obtain ⟨τ, hτ, rfl⟩ := deduce_name_eq_ok.mp h
    exact deduce_name_eq_ok.mpr ⟨τ, hτ, rfl⟩
  | const site value =>
    obtain ⟨-, rfl⟩ := deduce_const_eq_ok.mp h
    exact h
  | subscript site value index ih =>
    obtain ⟨value', ty, hvalue, hty, rfl⟩ := deduce_subscript_eq_ok.mp h
    exact deduce_subscript_eq_ok.mpr ⟨value', ty, ih hvalue, hty, rfl⟩
  | binary site op left right ihl ihr =>
    obtain ⟨left', right', ty, hleft, hright, hty, rfl⟩ := deduce_binary_eq_ok.mp h
    exact deduce_binary_eq_ok.mpr ⟨left', right', ty, ihl hleft, ihr hright, hty, rfl⟩
  | compare site op left right ihl ihr =>
    obtain ⟨left', right', ty, hleft, hright, hty, rfl⟩ := deduce_compare_eq_ok.mp h
    exact deduce_compare_eq_ok.mpr ⟨left', right', ty, ihl hleft, ihr hright, hty, rfl⟩
  | unary site op operand ih =>
    obtain ⟨operand', hoperand, hsuits, rfl⟩ := deduce_unary_eq_ok.mp h
    exact deduce_unary_eq_ok.mpr ⟨operand', ih hoperand, hsuits, rfl⟩
  | tuple site elements ih =>
    obtain ⟨elements', helements, rfl⟩ := deduce_tuple_eq_ok.mp h
    exact deduce_tuple_eq_ok.mpr ⟨elements', forall₂_deduced (fun e he _ => ih e he) helements, rfl⟩
  | call site callee args ihc iha =>
    obtain ⟨callee', hcallee, hcall⟩ := deduce_call_eq_ok.mp h
    rcases hcall with ⟨dims, dtype, args', τ, hty, hargs, hshift, rfl⟩ |
      ⟨params, kwargs, returns, args', hty, hargs, rfl⟩
    · have hargs' := forall₂_deduced (fun e he _ => iha e he) hargs
      exact deduce_call_eq_ok.mpr ⟨callee', ihc hcallee,
        .inl ⟨dims, dtype, args', τ, hty, hargs', hshift, rfl⟩⟩
    · have hargs' := forall₂_deduced (fun e he _ => iha e he) hargs
      exact deduce_call_eq_ok.mpr ⟨callee', ihc hcallee,
        .inr ⟨params, kwargs, returns, args', hty, hargs', rfl⟩⟩

/-! ## Statements -/

/-- A value that is complete now is not looked into; one that is still deferred is deduced again. -/
theorem Settles.settled {t : Table} {value value' : Expr} (h : Settles t value value') :
    Settles t value' value' := by
  unfold Settles at h ⊢
  split
  · rfl
  · rename_i hincomplete
    split at h
    · rename_i hcomplete
      subst h
      exact absurd hcomplete hincomplete
    · exact Expr.deduce_deduced h

theorem Stmt.deduce_deduced {t t' : Table} {s s' : Stmt} (h : s.deduce t = .ok (s', t')) :
    s'.deduce t = .ok (s', t') := by
  cases s with
  | assign target value loc =>
    obtain ⟨value', τ, hvalue, hτ, -, heq⟩ := deduce_assign_eq_ok.mp h
    cases heq
    have hrefines := Deduced.canRefineTo_refl (some τ)
    exact deduce_assign_eq_ok.mpr ⟨value', τ, hvalue.settled, hτ, hrefines, rfl⟩
  | ret value loc =>
    obtain ⟨value', hvalue, heq⟩ := deduce_ret_eq_ok.mp h
    cases heq
    exact deduce_ret_eq_ok.mpr ⟨value', Expr.deduce_deduced hvalue, rfl⟩
  | importSymbols symbols loc =>
    cases deduce_importSymbols_eq_ok.mp h
    exact h

/-- What a statement imports and assigns to does not depend on its types. -/
theorem Stmt.declares_of_deduce {t t' : Table} {s s' : Stmt} (h : s.deduce t = .ok (s', t')) :
    s'.imported = s.imported ∧ ∀ id, s.assigned? id = none → s'.assigned? id = none := by
  cases s with
  | assign target value loc =>
    obtain ⟨value', τ, -, -, -, heq⟩ := deduce_assign_eq_ok.mp h
    cases heq
    refine ⟨rfl, ?_⟩
    intro id hid
    have htarget : target.id ≠ id := by simpa [assigned?] using hid
    exact if_neg htarget
  | ret value loc =>
    obtain ⟨value', -, heq⟩ := deduce_ret_eq_ok.mp h
    cases heq
    exact ⟨rfl, fun _ _ => rfl⟩
  | importSymbols symbols loc =>
    cases deduce_importSymbols_eq_ok.mp h
    exact ⟨rfl, fun _ _ => rfl⟩

theorem unassigned_of_deduceBody {t : Table} {body body' : List Stmt} {id : String}
    (h : deduceBody t body = .ok body') (hid : ∀ s ∈ body, s.assigned? id = none) :
    ∀ s' ∈ body', s'.assigned? id = none := by
  refine forall_mem_of_forall₂ ?_ ((List.forall₂_and_left _ _).mpr ⟨hid, forall₂_deduceBody h⟩)
  rintro s s' ⟨hs, t, t', hd⟩
  exact (Stmt.declares_of_deduce hd).2 id hs

/-! ## Bodies -/

/-- No statement uses a name that it assigns to itself or that a later one assigns to. -/
structure AssignedBeforeUse (body : List Stmt) : Prop where
  own : ∀ s ∈ body, ∀ id ∈ s.names, s.assigned? id = none
  later : body.Pairwise fun s s' => ∀ id ∈ s.names, s'.assigned? id = none

theorem AssignedBeforeUse.rest {s : Stmt} {rest : List Stmt} (h : AssignedBeforeUse (s :: rest)) :
    AssignedBeforeUse rest where
  own := fun s' hs' => h.own s' (List.mem_cons_of_mem _ hs')
  later := (List.pairwise_cons.mp h.later).2

theorem AssignedBeforeUse.unassigned {s : Stmt} {rest : List Stmt}
    (h : AssignedBeforeUse (s :: rest)) {id : String} (hid : id ∈ s.names) :
    ∀ s' ∈ s :: rest, s'.assigned? id = none := by
  intro s' hs'
  rcases List.mem_cons.mp hs' with rfl | hs'
  · exact h.own s' List.mem_cons_self id hid
  · exact (List.pairwise_cons.mp h.later).1 s' hs' id hid

/-- The tables of the two runs need not agree on what is still to be assigned. -/
theorem deduceBody_deduced {t u : Table} {body body' : List Stmt} (hbody : AssignedBeforeUse body)
    (h : deduceBody t body = .ok body')
    (hagree : ∀ id, (∀ s ∈ body, s.assigned? id = none) → t.typeOf? id = u.typeOf? id) :
    deduceBody u body' = .ok body' := by
  induction body generalizing t u body' with
  | nil =>
    cases h
    rfl
  | cons s rest ih =>
    obtain ⟨s', t', rest', hs, hrest, rfl⟩ := deduceBody_cons_eq_ok.mp h
    have hnames : ∀ id ∈ s.names, t.typeOf? id = u.typeOf? id :=
      fun id hid => hagree id (hbody.unassigned hid)
    obtain ⟨u', hs', hagree'⟩ := Stmt.deduce_congr hs hnames
    refine deduceBody_cons_eq_ok.mpr ⟨s', u', rest', Stmt.deduce_deduced hs', ?_, rfl⟩
    apply ih hbody.rest hrest
    intro id hid
    apply hagree'
    intro hsid
    apply hagree
    intro s'' hs''
    rcases List.mem_cons.mp hs'' with rfl | hs''
    · exact hsid
    · exact hid s'' hs''

/-! ## Operators -/

/-- Deduction changes what an operator declares only for the names that it assigns to. -/
theorem typeOf?_declarations_of_deduce {op op' : Operator} (h : op.deduce = .ok op') {id : String}
    (hid : ∀ s ∈ op.body, s.assigned? id = none) :
    (Table.ofSymbols op.declarations).typeOf? id =
      (Table.ofSymbols op'.declarations).typeOf? id := by
  obtain ⟨body', hbody, rfl⟩ := deduce_eq_ok_iff.mp h
  have himported : body'.map Stmt.imported = op.body.map Stmt.imported := by
    apply map_eq_map_of_forall₂
    refine (forall₂_deduceBody hbody).imp ?_
    rintro s s' ⟨t, t', hs⟩
    exact (Stmt.declares_of_deduce hs).1
  have hid' := unassigned_of_deduceBody hbody hid
  rw [Table.typeOf?_ofSymbols, Table.typeOf?_ofSymbols]
  unfold declarations
  rw [lastDeclared?_append, lastDeclared?_append (op.params ++ op.captured) (body'.flatMap _),
    lastDeclared?_body hid, lastDeclared?_body hid', List.flatMap_def, List.flatMap_def, himported]

/-- **Deducing a second time changes nothing** where names are assigned before they are used. It
does not matter here which nodes have types at first, nor that a name is declared more than once. -/
theorem deduce_idempotent {op op' : Operator} (hscoped : AssignedBeforeUse op.body)
    (h : op.deduce = .ok op') : op'.deduce = .ok op' := by
  have hagree := fun id => @typeOf?_declarations_of_deduce op op' h id
  obtain ⟨body', hbody, rfl⟩ := deduce_eq_ok_iff.mp h
  exact deduce_eq_ok_iff.mpr ⟨body', deduceBody_deduced hscoped hbody hagree, rfl⟩

/-- `a = x`, then `pair = (a, 1.0)` and `return pair[1] < c`, for some field `x`. The types of `a`
and `pair` are not known before; that of `a` stays deferred. -/
def deferredPair : Operator :=
  let loc : Location := { source := "ops.py", line := 1, column := 1 }
  let untyped : Site := { loc }
  let float : Site := { loc, ty := some (.scalar { kind := .float64 }) }
  { id := "deferred_pair"
    params := [⟨"x", some (.deferred (some .field)), SymbolSpace.local, loc⟩]
    captured := [⟨"c", some (.scalar { kind := .float64 }), SymbolSpace.closure, loc⟩]
    body := [
      .assign ⟨"a", some (.deferred (some .data)), SymbolSpace.local, loc⟩ (.name untyped "x") loc,
      .assign ⟨"pair", none, SymbolSpace.local, loc⟩
        (.tuple untyped [.name untyped "a", .const float "1.0"]) loc,
      .ret (.compare untyped .lt (.subscript untyped (.name untyped "pair") 1)
        (.name untyped "c")) loc]
    loc }

/-- The second run finds the deferred value of `a` again and passes over that of `pair`. -/
theorem deferredPair_idempotent :
    AssignedBeforeUse deferredPair.body ∧ ∃ op', deferredPair.deduce = .ok op' ∧
      op'.body.flatMap Stmt.declares ≠ deferredPair.body.flatMap Stmt.declares ∧
      op'.deduce = .ok op' := by
  have hscoped : AssignedBeforeUse deferredPair.body := ⟨by decide, by decide⟩
  have hok : ∃ op', deferredPair.deduce = .ok op' ∧
      op'.body.flatMap Stmt.declares ≠ deferredPair.body.flatMap Stmt.declares :=
    ⟨_, rfl, by decide⟩
  obtain ⟨op', h, hrefined⟩ := hok
  exact ⟨hscoped, op', h, hrefined, deduce_idempotent hscoped h⟩

end Operator

end FieldView
