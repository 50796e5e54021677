import FieldView.Proofs.Typing.Body

/-!
# Deduction changes types only

`erase` forgets the types of the expressions and of the assigned symbols, and nothing else. What
deduction makes of a body has the erasure of the body, and its literals are the same with their
types. Nothing is asked of the types that are there before: a value that counts as complete is kept as
it stands, whatever it consists of.
-/

set_option autoImplicit false

namespace FieldView.Operator

/-! ## Erasure -/

namespace Expr

mutual

/-- The expression without the types of its nodes. -/
def erase : Expr → Expr
  | name site id => name (site.withTy none) id
  | const site value => const (site.withTy none) value
  | subscript site value index => subscript (site.withTy none) value.erase index
  | binary site op left right => binary (site.withTy none) op left.erase right.erase
  | compare site op left right => compare (site.withTy none) op left.erase right.erase
  | unary site op operand => unary (site.withTy none) op operand.erase
  | tuple site elements => tuple (site.withTy none) (eraseAll elements)
  | call site callee args => call (site.withTy none) callee.erase (eraseAll args)

/-- The expressions without types, in order. -/
def eraseAll : List Expr → List Expr
  | [] => []
  | e :: es => e.erase :: eraseAll es

end

/-- A literal with its type, its place and its text. -/
def literal? : Expr → Option (Site × String)
  | const site value => some (site, value)
  | _ => none

/-- The literals of an expression from left to right. -/
def literals (e : Expr) : List (Site × String) := e.nodes.filterMap literal?

theorem eraseAll_eq_of_forall₂ {R : Expr → Expr → Prop} {es es' : List Expr}
    (hR : ∀ e ∈ es, ∀ e', R e e' → e'.erase = e.erase) (h : List.Forall₂ R es es') :
    eraseAll es' = eraseAll es := by
  induction h with
  | nil => rfl
  | cons he _ ih =>
    rw [eraseAll, eraseAll, hR _ List.mem_cons_self _ he,
      ih fun e hm => hR e (List.mem_cons_of_mem _ hm)]

/-- **Deducing an expression changes its types only.** -/
theorem erase_of_deduce {t : Table} {inShift : Bool} {e e' : Expr}
    (h : e.deduce t inShift = .ok e') : e'.erase = e.erase := by
  induction e using Expr.ind generalizing inShift e' with
  | name site id =>
    obtain ⟨τ, -, rfl⟩ := deduce_name_eq_ok.mp h
    rfl
  | const site value =>
    obtain ⟨-, rfl⟩ := deduce_const_eq_ok.mp h
    rfl
  | subscript site value index ih =>
    obtain ⟨value', ty, hvalue, -, rfl⟩ := deduce_subscript_eq_ok.mp h
    rw [erase, erase, ih hvalue]
    rfl
  | binary site op left right ihl ihr =>
    obtain ⟨left', right', ty, hleft, hright, -, rfl⟩ := deduce_binary_eq_ok.mp h
    rw [erase, erase, ihl hleft, ihr hright]
    rfl
  | compare site op left right ihl ihr =>
    obtain ⟨left', right', ty, hleft, hright, -, rfl⟩ := deduce_compare_eq_ok.mp h
    rw [erase, erase, ihl hleft, ihr hright]
    rfl
  | unary site op operand ih =>
    obtain ⟨operand', hoperand, -, rfl⟩ := deduce_unary_eq_ok.mp h
    rw [erase, erase, ih hoperand]
    rfl
  | tuple site elements ih =>
    obtain ⟨elements', helements, rfl⟩ := deduce_tuple_eq_ok.mp h
    rw [erase, erase, eraseAll_eq_of_forall₂ (fun e he _ => ih e he) helements]
    rfl
  | call site callee args ihc iha =>
    obtain ⟨callee', hcallee, hcall⟩ := deduce_call_eq_ok.mp h
    rcases hcall with ⟨dims, dtype, args', τ, -, hargs, -, rfl⟩ |
      ⟨params, kwargs, returns, args', -, hargs, rfl⟩
    all_goals
      rw [erase, erase, ihc hcallee, eraseAll_eq_of_forall₂ (fun e he _ => iha e he) hargs]
      rfl

/-- A literal becomes itself, and nothing else becomes a literal. -/
theorem BecomesUnder.literal? {t : Table} {n n' : Expr} (h : BecomesUnder t n n') :
    n'.literal? = n.literal? := by
  obtain ⟨inShift, hd⟩ := h
  have herase := erase_of_deduce hd
  cases n with
  | const site value =>
    obtain ⟨-, rfl⟩ := deduce_const_eq_ok.mp hd
    rfl
  | _ =>
    cases n' with
    | const _ _ => simp [erase] at herase
    | _ => rfl

theorem literals_of_deduce {t : Table} {inShift : Bool} {e e' : Expr}
    (h : e.deduce t inShift = .ok e') : e'.literals = e.literals :=
  filterMap_eq_filterMap_of_forall₂ ((forall₂_nodes h).imp fun _ _ hn => hn.literal?)

end Expr

/-! ## Statements and operators -/

namespace Stmt

/-- The statement without the types of its expressions and of what it assigns to. -/
def erase : Stmt → Stmt
  | assign target value loc => assign { target with ty := none } value.erase loc
  | ret value loc => ret value.erase loc
  | importSymbols symbols loc => importSymbols symbols loc

def literals : Stmt → List (Site × String)
  | assign _ value _ => value.literals
  | ret value _ => value.literals
  | importSymbols _ _ => []

theorem erase_of_deduce {t t' : Table} {s s' : Stmt} (h : s.deduce t = .ok (s', t')) :
    s'.erase = s.erase ∧ s'.literals = s.literals := by
  cases s with
  | assign target value loc =>
    obtain ⟨value', τ, hvalue, -, -, heq⟩ := deduce_assign_eq_ok.mp h
    cases heq
    unfold Settles at hvalue
    split at hvalue
    · subst hvalue
      exact ⟨rfl, rfl⟩
    · simp only [erase, literals]
      rw [Expr.erase_of_deduce hvalue, Expr.literals_of_deduce hvalue]
      exact ⟨rfl, rfl⟩
  | ret value loc =>
    obtain ⟨value', hvalue, heq⟩ := deduce_ret_eq_ok.mp h
    cases heq
    simp only [erase, literals]
    rw [Expr.erase_of_deduce hvalue, Expr.literals_of_deduce hvalue]
    exact ⟨rfl, rfl⟩
  | importSymbols symbols loc =>
    cases deduce_importSymbols_eq_ok.mp h
    exact ⟨rfl, rfl⟩

end Stmt

/-- **Deduction changes types only.** The result differs from the operator in its body alone; the two
bodies are the same once types are erased, and their literals are the same with their types. -/
theorem deduce_changes_only_types {op op' : Operator} (h : op.deduce = .ok op') :
    op' = { op with body := op'.body } ∧
      op'.body.map Stmt.erase = op.body.map Stmt.erase ∧
      op'.body.map Stmt.literals = op.body.map Stmt.literals := by
  obtain ⟨body', hbody, rfl⟩ := deduce_eq_ok_iff.mp h
  have hrun : List.Forall₂ (fun s s' => Stmt.erase s' = Stmt.erase s ∧
      Stmt.literals s' = Stmt.literals s) op.body body' := by
    refine (forall₂_deduceBody hbody).imp ?_
    rintro s s' ⟨t, t', hs⟩
    exact Stmt.erase_of_deduce hs
  refine ⟨rfl, ?_, ?_⟩
  · exact map_eq_map_of_forall₂ (hrun.imp fun _ _ hs => hs.1)
  · exact map_eq_map_of_forall₂ (hrun.imp fun _ _ hs => hs.2)

/-- `c = nowhere + 1.0`, which counts as complete although `nowhere` is not declared, then an import
and `return -c`. -/
def completeSum : Operator :=
  let loc : Location := { source := "ops.py", line := 1, column := 1 }
  let untyped : Site := { loc }
  let float : Site := { loc, ty := some (.scalar { kind := .float64 }) }
  { id := "complete_sum"
    params := []
    captured := []
    body := [
      .assign ⟨"c", none, SymbolSpace.local, loc⟩
        (.binary float .add (.name untyped "nowhere") (.const float "1.0")) loc,
      .importSymbols [⟨"m", none, SymbolSpace.external, loc⟩] loc,
      .ret (.unary untyped .minus (.name untyped "c")) loc]
    loc }

theorem completeSum_erase :
    ∃ op', completeSum.deduce = .ok op' ∧
      op'.returnTy = some (.scalar { kind := .float64 }) ∧
      op'.body.map Stmt.erase = completeSum.body.map Stmt.erase ∧
      op'.body.map Stmt.literals = completeSum.body.map Stmt.literals := by
  have hok : ∃ op', completeSum.deduce = .ok op' ∧
      op'.returnTy = some (.scalar { kind := .float64 }) := ⟨_, rfl, rfl⟩
  obtain ⟨op', h, hreturn⟩ := hok
  exact ⟨op', h, hreturn, (deduce_changes_only_types h).2⟩

end FieldView.Operator
