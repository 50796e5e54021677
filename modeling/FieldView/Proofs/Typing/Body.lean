import FieldView.Proofs.Typing.Judgment

/-!
# Typing of bodies

What a successful run of deduction over the statements of an operator consists of, and the judgment
for bodies, `WellTyped`. An assignment does not look into a value whose type is complete already. In
a body whose literals alone carry types such a value is a literal, which deduction would leave as it
is (`settles_iff_deduce`); so there the run goes through every expression, and it succeeds exactly on
the well-typed bodies (`exists_deduceBody_iff`).

After a successful run every node has a type, and every assigned symbol has the type of its value.
-/

set_option autoImplicit false

namespace FieldView.Operator

/-! ## Statements -/

/-- The value of an assignment after deduction: itself where its type is complete, and else what it
is deduced as. -/
def Settles (t : Table) (value value' : Expr) : Prop :=
  if Deduced.isComplete value.ty then value' = value else value.deduce t false = .ok value'

theorem Settles.exists_ty {t : Table} {value value' : Expr} (h : Settles t value value') :
    ∃ τ, value'.ty = some τ := by
  unfold Settles at h
  split at h
  · rename_i hcomplete
    subst h
    cases hty : value'.ty with
    | none => simp [hty, Deduced.isComplete] at hcomplete
    | some τ => exact ⟨τ, rfl⟩
  · exact exists_ty_of_deduce h

theorem refine_eq_ok_iff {target target' : Symbol} {τ : Ty} :
    refine target τ = .ok target' ↔
      Deduced.canRefineTo target.ty (some τ) = true ∧ target' = { target with ty := some τ } := by
  unfold refine
  split
  · rename_i hrefines
    simp [hrefines, eq_comm]
  · rename_i hrefines
    simp [hrefines]

theorem ite_eq_ok_iff_settles {t : Table} {value value' : Expr} :
    (if Deduced.isComplete value.ty then .ok value else value.deduce t false) =
      (.ok value' : Typed Expr) ↔ Settles t value value' := by
  unfold Settles
  split
  · simp [eq_comm]
  · rfl

namespace Stmt

variable {t : Table} {loc : Location} {result : Stmt × Table}

/-- An assignment gives its target the type of the value, which must suit what the target was
declared as, and declares it anew. -/
theorem deduce_assign_eq_ok {target : Symbol} {value : Expr} :
    deduce t (.assign target value loc) = .ok result ↔
      ∃ value' τ, Settles t value value' ∧ value'.ty = some τ ∧
        Deduced.canRefineTo target.ty (some τ) = true ∧
        result = (.assign { target with ty := some τ } value' loc,
          t.declare target.id (some τ)) := by
  rw [deduce, Typed.ite_bind, Typed.bind_eq_ok]
  constructor
  · rintro ⟨value', hvalue, h⟩
    have hvalue := ite_eq_ok_iff_settles.mp hvalue
    obtain ⟨τ, hτ⟩ := hvalue.exists_ty
    simp only [hτ] at h
    obtain ⟨target', htarget, h⟩ := Typed.bind_eq_ok.mp h
    obtain ⟨hrefines, rfl⟩ := refine_eq_ok_iff.mp htarget
    cases h
    exact ⟨value', τ, hvalue, hτ, hrefines, rfl⟩
  · rintro ⟨value', τ, hvalue, hτ, hrefines, rfl⟩
    refine ⟨value', ite_eq_ok_iff_settles.mpr hvalue, ?_⟩
    simp only [hτ]
    exact Typed.bind_eq_ok.mpr ⟨_, refine_eq_ok_iff.mpr ⟨hrefines, rfl⟩, rfl⟩

theorem deduce_ret_eq_ok {value : Expr} :
    deduce t (.ret value loc) = .ok result ↔
      ∃ value', value.deduce t false = .ok value' ∧ result = (.ret value' loc, t) := by
  rw [deduce]
  exact Typed.bind_return_eq_ok

theorem deduce_importSymbols_eq_ok {symbols : List Symbol} :
    deduce t (.importSymbols symbols loc) = .ok result ↔
      result = (.importSymbols symbols loc, t) := by
  rw [deduce]
  simp [eq_comm]

end Stmt

/-! ## Bodies -/

theorem deduceBody_cons_eq_ok {t : Table} {s : Stmt} {rest body' : List Stmt} :
    deduceBody t (s :: rest) = .ok body' ↔
      ∃ s' t' rest', s.deduce t = .ok (s', t') ∧ deduceBody t' rest = .ok rest' ∧
        body' = s' :: rest' := by
  rw [deduceBody, Typed.bind_eq_ok]
  constructor
  · rintro ⟨⟨s', t'⟩, hs, h⟩
    obtain ⟨rest', hrest, h⟩ := Typed.bind_eq_ok.mp h
    cases h
    exact ⟨s', t', rest', hs, hrest, rfl⟩
  · rintro ⟨s', t', rest', hs, hrest, rfl⟩
    exact ⟨(s', t'), hs, Typed.bind_eq_ok.mpr ⟨rest', hrest, rfl⟩⟩

/-- Every statement of the result was deduced from the one at its place, under some table. -/
theorem forall₂_deduceBody {t : Table} {body body' : List Stmt} (h : deduceBody t body = .ok body') :
    List.Forall₂ (fun s s' => ∃ t t', Stmt.deduce t s = .ok (s', t')) body body' := by
  induction body generalizing t body' with
  | nil =>
    cases h
    exact .nil
  | cons s rest ih =>
    obtain ⟨s', t', rest', hs, hrest, rfl⟩ := deduceBody_cons_eq_ok.mp h
    exact .cons ⟨t, t', hs⟩ (ih hrest)

theorem deduce_eq_ok_iff {op op' : Operator} :
    op.deduce = .ok op' ↔
      ∃ body', deduceBody (Table.ofSymbols op.declarations) op.body = .ok body' ∧
        op' = { op with body := body' } := by
  unfold deduce
  exact Typed.bind_return_eq_ok

/-! ## Bodies whose literals alone carry types -/

def Expr.isLiteral : Expr → Bool
  | .const _ _ => true
  | _ => false

/-- No node but the literals has a type yet. -/
def OnlyLiterals (nodes : List Expr) : Prop := ∀ n ∈ nodes, n.ty = none ∨ n.isLiteral = true

instance (nodes : List Expr) : Decidable (OnlyLiterals nodes) :=
  inferInstanceAs (Decidable (∀ n ∈ nodes, n.ty = none ∨ n.isLiteral = true))

/-- No expression of the operator but the literals has a type yet. -/
def OnlyLiteralsTyped (op : Operator) : Prop := ∀ s ∈ op.body, OnlyLiterals s.nodes

instance (op : Operator) : Decidable op.OnlyLiteralsTyped :=
  inferInstanceAs (Decidable (∀ s ∈ op.body, OnlyLiterals s.nodes))

/-- Where literals alone have types, it makes no difference that complete values are not looked
into. -/
theorem settles_iff_deduce {t : Table} {value value' : Expr} (h : OnlyLiterals value.nodes) :
    Settles t value value' ↔ value.deduce t false = .ok value' := by
  unfold Settles
  split
  · rename_i hcomplete
    rcases h value value.mem_nodes_self with hnone | hliteral
    · simp [hnone, Deduced.isComplete] at hcomplete
    · cases value with
      | const site text =>
        have hty : ∃ τ, site.ty = some τ := by
          cases hsite : site.ty with
          | none => simp [Expr.ty, Expr.site, hsite, Deduced.isComplete] at hcomplete
          | some τ => exact ⟨τ, rfl⟩
        rw [Expr.deduce_const_eq_ok]
        simp [hty]
      | _ => cases hliteral
  · rfl

/-! ## The judgment for bodies -/

/-- Every statement has a type, an assigned symbol may take that of its value, and it has it in the
statements after. -/
inductive WellTyped : Table → List Stmt → Prop
  | nil {t} : WellTyped t []
  | assign {t target value loc τ rest} : HasType t false value τ →
      Deduced.canRefineTo target.ty (some τ) = true →
      WellTyped (t.declare target.id (some τ)) rest →
      WellTyped t (.assign target value loc :: rest)
  | ret {t value loc τ rest} : HasType t false value τ → WellTyped t rest →
      WellTyped t (.ret value loc :: rest)
  | importSymbols {t symbols loc rest} : WellTyped t rest →
      WellTyped t (.importSymbols symbols loc :: rest)

theorem wellTyped_of_deduceBody {t : Table} {body body' : List Stmt}
    (hbody : ∀ s ∈ body, OnlyLiterals s.nodes) (h : deduceBody t body = .ok body') :
    WellTyped t body := by
  induction body generalizing t body' with
  | nil => exact .nil
  | cons s rest ih =>
    obtain ⟨s', t', rest', hs, hrest, -⟩ := deduceBody_cons_eq_ok.mp h
    have hrest := ih (fun s' hs' => hbody s' (List.mem_cons_of_mem _ hs')) hrest
    cases s with
    | assign target value loc =>
      obtain ⟨value', τ, hvalue, hτ, hrefines, heq⟩ := Stmt.deduce_assign_eq_ok.mp hs
      cases heq
      have hvalue := (settles_iff_deduce (hbody _ List.mem_cons_self)).mp hvalue
      exact .assign (hasType_iff.mpr ⟨value', hvalue, hτ⟩) hrefines hrest
    | ret value loc =>
      obtain ⟨value', hvalue, heq⟩ := Stmt.deduce_ret_eq_ok.mp hs
      cases heq
      obtain ⟨τ, -, hτ⟩ := hasType_of_deduce hvalue
      exact .ret hτ hrest
    | importSymbols symbols loc =>
      cases Stmt.deduce_importSymbols_eq_ok.mp hs
      exact .importSymbols hrest

theorem exists_deduceBody_cons {t t' : Table} {s s' : Stmt} {rest : List Stmt}
    (hs : s.deduce t = .ok (s', t')) (hrest : ∃ rest', deduceBody t' rest = .ok rest') :
    ∃ body', deduceBody t (s :: rest) = .ok body' := by
  obtain ⟨rest', hrest⟩ := hrest
  exact ⟨s' :: rest', deduceBody_cons_eq_ok.mpr ⟨s', t', rest', hs, hrest, rfl⟩⟩

theorem WellTyped.exists_deduceBody {t : Table} {body : List Stmt} (h : WellTyped t body)
    (hbody : ∀ s ∈ body, OnlyLiterals s.nodes) : ∃ body', deduceBody t body = .ok body' := by
  induction h with
  | nil => exact ⟨[], rfl⟩
  | assign hvalue hrefines _ ih =>
    have hrest := ih fun s hs => hbody s (List.mem_cons_of_mem _ hs)
    obtain ⟨value', hd, hτ⟩ := hvalue.deduce
    have hsettles := (settles_iff_deduce (hbody _ List.mem_cons_self)).mpr hd
    exact exists_deduceBody_cons
      (Stmt.deduce_assign_eq_ok.mpr ⟨value', _, hsettles, hτ, hrefines, rfl⟩) hrest
  | ret hvalue _ ih =>
    have hrest := ih fun s hs => hbody s (List.mem_cons_of_mem _ hs)
    obtain ⟨value', hd, -⟩ := hvalue.deduce
    exact exists_deduceBody_cons (Stmt.deduce_ret_eq_ok.mpr ⟨value', hd, rfl⟩) hrest
  | importSymbols _ ih =>
    have hrest := ih fun s hs => hbody s (List.mem_cons_of_mem _ hs)
    exact exists_deduceBody_cons (Stmt.deduce_importSymbols_eq_ok.mpr rfl) hrest

/-- **Deduction decides which bodies are well typed.** -/
theorem exists_deduceBody_iff {t : Table} {body : List Stmt}
    (hbody : ∀ s ∈ body, OnlyLiterals s.nodes) :
    (∃ body', deduceBody t body = .ok body') ↔ WellTyped t body := by
  constructor
  · rintro ⟨body', h⟩
    exact wellTyped_of_deduceBody hbody h
  · intro h
    exact h.exists_deduceBody hbody

/-! ## Nothing is left untyped -/

/-- Every node of a statement has a type, and an assigned symbol has that of its value. -/
def Stmt.FullyTyped (s : Stmt) : Prop :=
  (∀ n ∈ s.nodes, ∃ τ, n.ty = some τ) ∧
    match s with
    | .assign target value _ => ∃ τ, target.ty = some τ ∧ value.ty = some τ
    | _ => True

/-- A node carries a type that the judgment gives to another under some table. -/
def TypedAs (n n' : Expr) : Prop :=
  ∃ t inShift τ, n'.ty = some τ ∧ HasType t inShift n τ

theorem forall₂_typedAs {t : Table} {inShift : Bool} {e e' : Expr}
    (h : e.deduce t inShift = .ok e') : List.Forall₂ TypedAs e.nodes e'.nodes := by
  refine (Expr.forall₂_nodes h).imp ?_
  rintro n n' ⟨inShift', hn⟩
  obtain ⟨τ, hτ, hhas⟩ := hasType_of_deduce hn
  exact ⟨t, inShift', τ, hτ, hhas⟩

theorem TypedAs.exists_ty {ns ns' : List Expr} (h : List.Forall₂ TypedAs ns ns') :
    ∀ n' ∈ ns', ∃ τ, n'.ty = some τ := by
  refine forall_mem_of_forall₂ ?_ h
  rintro n n' ⟨-, -, τ, hτ, -⟩
  exact ⟨τ, hτ⟩

/-- One statement: each node gets a type of the judgment, and the target that of the value. -/
theorem Stmt.fullyTyped_of_deduce {t t' : Table} {s s' : Stmt} (hs : OnlyLiterals s.nodes)
    (h : s.deduce t = .ok (s', t')) :
    s'.FullyTyped ∧ List.Forall₂ TypedAs s.nodes s'.nodes := by
  cases s with
  | assign target value loc =>
    obtain ⟨value', τ, hvalue, hτ, -, heq⟩ := deduce_assign_eq_ok.mp h
    cases heq
    have hnodes := forall₂_typedAs ((settles_iff_deduce hs).mp hvalue)
    exact ⟨⟨TypedAs.exists_ty hnodes, τ, rfl, hτ⟩, hnodes⟩
  | ret value loc =>
    obtain ⟨value', hvalue, heq⟩ := deduce_ret_eq_ok.mp h
    cases heq
    have hnodes := forall₂_typedAs hvalue
    exact ⟨⟨TypedAs.exists_ty hnodes, trivial⟩, hnodes⟩
  | importSymbols symbols loc =>
    cases deduce_importSymbols_eq_ok.mp h
    exact ⟨⟨by simp [nodes], trivial⟩, .nil⟩

/-- **Deduction leaves nothing untyped.** On an operator whose literals alone carry types it succeeds
exactly when the judgment holds of the body; then every node of the result has a type, one that the
judgment gives to the node at its place, and every assigned symbol has the type of its value. The
judgment has no rule for unknown types, and nothing deduced on the way has one, whether or not the
operator as a whole is well typed. -/
theorem deduce_types_everything (op : Operator) (hop : op.OnlyLiteralsTyped) :
    ((∃ op', op.deduce = .ok op') ↔ WellTyped (Table.ofSymbols op.declarations) op.body) ∧
      (∀ op', op.deduce = .ok op' → (∀ s' ∈ op'.body, s'.FullyTyped) ∧
        List.Forall₂ (fun s s' => List.Forall₂ TypedAs s.nodes s'.nodes) op.body op'.body) ∧
      (∀ s ∈ op.body, ∀ t s' t', s.deduce t = .ok (s', t') → s'.FullyTyped) ∧
      (∀ t inShift e e', Expr.deduce t inShift e = .ok e' →
        ∃ τ, e'.ty = some τ ∧ HasType t inShift e τ) := by
  refine ⟨?_, ?_, ?_, fun t inShift e e' => hasType_of_deduce⟩
  · rw [← exists_deduceBody_iff hop]
    constructor
    · rintro ⟨op', h⟩
      obtain ⟨body', hbody, -⟩ := deduce_eq_ok_iff.mp h
      exact ⟨body', hbody⟩
    · rintro ⟨body', hbody⟩
      exact ⟨_, deduce_eq_ok_iff.mpr ⟨body', hbody, rfl⟩⟩
  · intro op' h
    obtain ⟨body', hbody, rfl⟩ := deduce_eq_ok_iff.mp h
    have hrun : List.Forall₂ (fun s s' => Stmt.FullyTyped s' ∧
        List.Forall₂ TypedAs s.nodes s'.nodes) op.body body' := by
      refine ((List.forall₂_and_left _ _).mpr ⟨hop, forall₂_deduceBody hbody⟩).imp ?_
      rintro s s' ⟨hs, t, t', hd⟩
      exact Stmt.fullyTyped_of_deduce hs hd
    exact ⟨forall_mem_of_forall₂ (fun _ _ h => h.1) hrun, hrun.imp fun _ _ h => h.2⟩
  · intro s hs t s' t' hd
    exact (Stmt.fullyTyped_of_deduce (hop s hs) hd).1

/-- `pair = (e(E2V[0]), 1.0)` and `return pair[0] < 2.0`, where nothing is known of `pair` yet. -/
def shiftedPair : Operator :=
  let loc : Location := { source := "ops.py", line := 1, column := 1 }
  let untyped : Site := { loc }
  let float : Site := { loc, ty := some (.scalar { kind := .float64 }) }
  let shifted : Expr := .call untyped (.name untyped "e")
    [.subscript untyped (.name untyped "E2V") 0]
  { id := "shifted_pair"
    params := [⟨"e", some (.field (.known ["Vertex"]) { kind := .float64 }), SymbolSpace.local, loc⟩]
    captured := [⟨"E2V", some (.offset "Vertex" ["Edge"]), SymbolSpace.closure, loc⟩]
    body := [
      .assign ⟨"pair", none, SymbolSpace.local, loc⟩
        (.tuple untyped [shifted, .const float "1.0"]) loc,
      .ret (.compare untyped .lt (.subscript untyped (.name untyped "pair") 0)
        (.const float "2.0")) loc]
    loc }

theorem shiftedPair_fullyTyped :
    shiftedPair.OnlyLiteralsTyped ∧ ∃ op', shiftedPair.deduce = .ok op' ∧
      op'.returnTy = some (.field (.known ["Edge"]) { kind := .bool }) ∧
      ∀ s' ∈ op'.body, s'.FullyTyped := by
  have honly : shiftedPair.OnlyLiteralsTyped := by decide
  have hok : ∃ op', shiftedPair.deduce = .ok op' ∧
      op'.returnTy = some (.field (.known ["Edge"]) { kind := .bool }) := ⟨_, rfl, rfl⟩
  obtain ⟨op', h, hreturn⟩ := hok
  exact ⟨honly, op', h, hreturn, ((deduce_types_everything shiftedPair honly).2.1 op' h).1⟩

end FieldView.Operator
