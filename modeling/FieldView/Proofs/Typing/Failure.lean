import FieldView.Proofs.Typing.Agreement

/-!
# Where deduction fails

Deduction ends at the first thing without a type. In a body that is in one statement: the statements
before it are deduced and hand on their tables, and it fails under the table that they leave
(`deduceBody_eq_error`). The error points into that statement, at a node of its expression or at the
symbol that it assigns to (`Stmt.points_of_deduce`). Errors are raised at the place of the node that
has no type, or at that of a part which has been deduced already; deducing a part does not move it
(`Expr.loc_of_deduce`).

Of the declarations a run sees no more than the types that were declared last for the names in its
expressions. So two operators with one body and the same such types get the same types, or fail with
the same error (`deduce_of_same_types`).
-/

set_option autoImplicit false

namespace FieldView

/-! ## Failing steps -/

theorem Typed.bind_eq_error {α β : Type} {x : Typed α} {f : α → Typed β} {err : TypingError} :
    (x >>= f) = .error err ↔ x = .error err ∨ ∃ a, x = .ok a ∧ f a = .error err := by
  cases x with
  | error e => simp [bind, Except.bind]
  | ok a => simp [bind, Except.bind]

theorem Typed.fail_eq_error {α : Type} {fault : TypingFault} {loc : Location} {err : TypingError} :
    (Typed.fail fault loc : Typed α) = .error err ↔ err = { fault, loc } := by
  simp [Typed.fail, eq_comm]

/-- What only builds a result does not fail. -/
theorem Typed.bind_return_eq_error {α β : Type} {x : Typed α} {f : α → β} {err : TypingError} :
    (do
      let a ← x
      return f a) = .error err ↔ x = .error err := by
  rw [Typed.bind_eq_error]
  constructor
  · rintro (hx | ⟨a, -, h⟩)
    · exact hx
    · cases h
  · intro hx
    exact .inl hx

namespace Operator

/-! ## Expressions -/

namespace Expr

theorem loc_erase (e : Expr) : e.erase.loc = e.loc := by
  cases e with
  | _ => rfl

/-- An expression stays where it is. -/
theorem loc_of_deduce {t : Table} {inShift : Bool} {e e' : Expr}
    (h : e.deduce t inShift = .ok e') : e'.loc = e.loc := by
  rw [← loc_erase e', erase_of_deduce h, loc_erase]

/-- The error points at a node of the expression. -/
def Points (err : TypingError) (e : Expr) : Prop := ∃ n ∈ e.nodes, err.loc = n.loc

theorem Points.self {err : TypingError} {e : Expr} (h : err.loc = e.loc) : Points err e :=
  ⟨e, mem_nodes_self e, h⟩

theorem Points.mono {err : TypingError} {e part : Expr} (h : Points err part)
    (hpart : part.nodes ⊆ e.nodes) : Points err e := by
  obtain ⟨n, hn, hloc⟩ := h
  exact ⟨n, hpart hn, hloc⟩

section Forms

variable {t : Table} {inShift : Bool} {site : Site} {err : TypingError}

theorem nodes_subset_nodesOfAll {e : Expr} {es : List Expr} (h : e ∈ es) :
    e.nodes ⊆ nodesOfAll es := by
  intro n hn
  rw [nodesOfAll_eq_flatMap]
  exact List.mem_flatMap.mpr ⟨e, h, hn⟩

theorem deduceAll_eq_error {es : List Expr} (h : deduceAll t inShift es = .error err) :
    ∃ e ∈ es, deduce t inShift e = .error err := by
  induction es with
  | nil =>
    rw [deduceAll] at h
    cases h
  | cons e es ih =>
    rw [deduceAll, Typed.bind_eq_error] at h
    rcases h with he | ⟨e', -, h⟩
    · exact ⟨e, List.mem_cons_self, he⟩
    · obtain ⟨e'', hmem, he''⟩ := ih (Typed.bind_return_eq_error.mp h)
      exact ⟨e'', List.mem_cons_of_mem _ hmem, he''⟩

/-- An element that does not exist, or an element of what is no tuple: the error is at the value. -/
theorem loc_of_subscriptTy {value : Expr} {index : Int}
    (h : subscriptTy inShift value index = .error err) : err.loc = value.loc := by
  unfold subscriptTy at h
  split at h
  · cases h
  · split at h
    · split at h
      · cases h
      · rw [Typed.fail_eq_error.mp h]
    · rw [Typed.fail_eq_error.mp h]

/-- What is wrong with a shift is at its argument or at the shift itself. -/
theorem loc_of_shiftTy {callee : Expr} {dims : Dims} {dtype : ScalarTy} {args : List Expr}
    {loc : Location} (h : shiftTy callee dims dtype args loc = .error err) :
    err.loc = loc ∨ err.loc ∈ args.map Expr.loc := by
  unfold shiftTy at h
  split at h
  · split at h
    · split at h
      · cases h
      · rw [Typed.fail_eq_error.mp h]
        exact .inl rfl
    · rw [Typed.fail_eq_error.mp h]
      exact .inr List.mem_cons_self
  · rw [Typed.fail_eq_error.mp h]
    exact .inl rfl

/-- Two operands, a rule for their types, and a failure where the rule gives no type. -/
theorem combine_eq_error {x y : Typed Expr} {rule : Deduced → Deduced → Option Deduced}
    {build : Deduced → Expr → Expr → Expr} {fault : Expr → Expr → TypingFault} {loc : Location}
    (h : (do
      let left ← x
      let right ← y
      match rule left.ty right.ty with
      | some ty => return build ty left right
      | none => Typed.fail (fault left right) loc) = .error err) :
    x = .error err ∨ y = .error err ∨ err.loc = loc := by
  rcases Typed.bind_eq_error.mp h with hleft | ⟨left, -, h⟩
  · exact .inl hleft
  rcases Typed.bind_eq_error.mp h with hright | ⟨right, -, h⟩
  · exact .inr (.inl hright)
  cases hty : rule left.ty right.ty with
  | some ty =>
    rw [hty] at h
    cases h
  | none =>
    rw [hty] at h
    rw [Typed.fail_eq_error.mp h]
    exact .inr (.inr rfl)

/-- The error of two operands points into one of them, or at the operation. -/
theorem points_of_operands {e left right : Expr} {loc : Location} (hloc : e.loc = loc)
    (hleft : left.nodes ⊆ e.nodes) (hright : right.nodes ⊆ e.nodes)
    (ihl : deduce t inShift left = .error err → Points err left)
    (ihr : deduce t inShift right = .error err → Points err right)
    (h : deduce t inShift left = .error err ∨ deduce t inShift right = .error err ∨
      err.loc = loc) : Points err e := by
  rcases h with h | h | h
  · exact (ihl h).mono hleft
  · exact (ihr h).mono hright
  · exact .self (h.trans hloc.symm)

end Forms

/-- **The error of an expression points at one of its nodes.** -/
theorem points_of_deduce {t : Table} {inShift : Bool} {e : Expr} {err : TypingError}
    (h : e.deduce t inShift = .error err) : Points err e := by
  induction e using Expr.ind generalizing inShift with
  | name site id =>
    rw [deduce] at h
    split at h
    · cases h
    · rw [Typed.fail_eq_error.mp h]
      exact .self rfl
  | const site value =>
    rw [deduce] at h
    split at h
    · cases h
    · rw [Typed.fail_eq_error.mp h]
      exact .self rfl
  | subscript site value index ih =>
    have hvalue : value.nodes ⊆ (subscript site value index).nodes := List.subset_cons_self _ _
    rw [deduce, Typed.bind_eq_error] at h
    rcases h with h | ⟨value', hdeduced, h⟩
    · exact (ih h).mono hvalue
    · have hloc := loc_of_subscriptTy (Typed.bind_return_eq_error.mp h)
      rw [loc_of_deduce hdeduced] at hloc
      exact (Points.self hloc).mono hvalue
  | binary site op left right ihl ihr =>
    rw [deduce] at h
    refine points_of_operands rfl ?_ ?_ ihl ihr (combine_eq_error h)
    · exact List.subset_cons_of_subset _ (List.subset_append_left _ _)
    · exact List.subset_cons_of_subset _ (List.subset_append_right _ _)
  | compare site op left right ihl ihr =>
    rw [deduce] at h
    refine points_of_operands rfl ?_ ?_ ihl ihr (combine_eq_error h)
    · exact List.subset_cons_of_subset _ (List.subset_append_left _ _)
    · exact List.subset_cons_of_subset _ (List.subset_append_right _ _)
  | unary site op operand ih =>
    rw [deduce, Typed.bind_eq_error] at h
    rcases h with h | ⟨operand', -, h⟩
    · exact (ih h).mono (List.subset_cons_self _ _)
    · split at h
      · cases h
      · rw [Typed.fail_eq_error.mp h]
        exact .self rfl
  | tuple site elements ih =>
    rw [deduce, Typed.bind_return_eq_error] at h
    obtain ⟨e, he, h⟩ := deduceAll_eq_error h
    exact (ih e he h).mono (List.subset_cons_of_subset _ (nodes_subset_nodesOfAll he))
  | call site callee args ihc iha =>
    have hcallee : callee.nodes ⊆ (call site callee args).nodes :=
      List.subset_cons_of_subset _ (List.subset_append_left _ _)
    have harg : ∀ arg ∈ args, arg.nodes ⊆ (call site callee args).nodes := fun arg harg =>
      List.subset_cons_of_subset _
        (List.subset_append_of_subset_right _ (nodes_subset_nodesOfAll harg))
    have hargs : ∀ inShift, deduceAll t inShift args = .error err →
        Points err (call site callee args) := by
      intro inShift h
      obtain ⟨arg, hmem, h⟩ := deduceAll_eq_error h
      exact (iha arg hmem h).mono (harg arg hmem)
    rw [deduce, Typed.bind_eq_error] at h
    rcases h with h | ⟨callee', -, h⟩
    · exact (ihc h).mono hcallee
    split at h
    · -- A shift can fail after its arguments have been deduced, at one of them.
      rcases Typed.bind_eq_error.mp h with h | ⟨args', hdeduced, h⟩
      · exact hargs _ h
      · have hlocs : args'.map Expr.loc = args.map Expr.loc :=
          map_eq_map_of_forall₂ ((deduceAll_eq_ok.mp hdeduced).imp fun _ _ => loc_of_deduce)
        rcases loc_of_shiftTy (Typed.bind_return_eq_error.mp h) with hloc | hloc
        · exact .self hloc
        · rw [hlocs] at hloc
          obtain ⟨arg, hmem, hloc⟩ := List.mem_map.mp hloc
          exact (Points.self hloc.symm).mono (harg arg hmem)
    · exact hargs _ (Typed.bind_return_eq_error.mp h)
    · rw [Typed.fail_eq_error.mp h]
      exact .self rfl

end Expr

/-! ## Statements -/

theorem refine_eq_error {target : Symbol} {τ : Ty} {err : TypingError}
    (h : refine target τ = .error err) : err.loc = target.loc := by
  unfold refine at h
  split at h
  · cases h
  · rw [Typed.fail_eq_error.mp h]

namespace Stmt

/-- The error points at a node of the statement's expression, or at the symbol that the statement
assigns to. -/
def Points (err : TypingError) (s : Stmt) : Prop :=
  (∃ n ∈ s.nodes, err.loc = n.loc) ∨
    ∃ target value loc, s = .assign target value loc ∧ err.loc = target.loc

/-- An assignment fails in its value, or because the target cannot take the type of the value. -/
theorem deduce_assign_eq_error {t : Table} {target : Symbol} {value : Expr} {loc : Location}
    {err : TypingError} :
    deduce t (.assign target value loc) = .error err ↔
      (Deduced.isComplete value.ty = false ∧ value.deduce t false = .error err) ∨
        ∃ value' τ, Settles t value value' ∧ value'.ty = some τ ∧
          refine target τ = .error err := by
  have hvalue : (if Deduced.isComplete value.ty then .ok value else value.deduce t false) =
      (.error err : Typed Expr) ↔
        Deduced.isComplete value.ty = false ∧ value.deduce t false = .error err := by
    split
    · next hcomplete => simp [hcomplete]
    · next hcomplete => simp [hcomplete]
  rw [deduce, Typed.ite_bind, Typed.bind_eq_error, hvalue]
  apply or_congr_right
  constructor
  · rintro ⟨value', hvalue', h⟩
    have hsettles := ite_eq_ok_iff_settles.mp hvalue'
    obtain ⟨τ, hτ⟩ := hsettles.exists_ty
    simp only [hτ] at h
    exact ⟨value', τ, hsettles, hτ, Typed.bind_return_eq_error.mp h⟩
  · rintro ⟨value', τ, hsettles, hτ, h⟩
    refine ⟨value', ite_eq_ok_iff_settles.mpr hsettles, ?_⟩
    simp only [hτ]
    exact Typed.bind_return_eq_error.mpr h

theorem points_of_deduce {t : Table} {s : Stmt} {err : TypingError}
    (h : s.deduce t = .error err) : Points err s := by
  cases s with
  | assign target value loc =>
    rcases deduce_assign_eq_error.mp h with ⟨-, h⟩ | ⟨value', τ, -, -, h⟩
    · exact .inl (Expr.points_of_deduce h)
    · exact .inr ⟨target, value, loc, rfl, refine_eq_error h⟩
  | ret value loc =>
    rw [deduce, Typed.bind_return_eq_error] at h
    exact .inl (Expr.points_of_deduce h)
  | importSymbols symbols loc =>
    rw [deduce] at h
    cases h

/-- A statement fails in the same way under tables that agree on its names. -/
theorem deduce_error_congr {t u : Table} {s : Stmt} {err : TypingError}
    (h : s.deduce t = .error err) (hnames : ∀ id ∈ s.names, t.typeOf? id = u.typeOf? id) :
    s.deduce u = .error err := by
  cases s with
  | assign target value loc =>
    have hvalue : value.deduce t false = value.deduce u false := Expr.deduce_congr hnames
    rw [deduce_assign_eq_error] at h ⊢
    rw [← hvalue]
    refine h.imp_right ?_
    rintro ⟨value', τ, hsettles, hτ, h⟩
    exact ⟨value', τ, hsettles.congr hnames, hτ, h⟩
  | ret value loc =>
    have hvalue : value.deduce t false = value.deduce u false := Expr.deduce_congr hnames
    rw [deduce, Typed.bind_return_eq_error] at h ⊢
    rwa [← hvalue]
  | importSymbols symbols loc =>
    rw [deduce] at h
    cases h

end Stmt

/-! ## Bodies -/

/-- **A body fails in one statement**, under the table that the statements before it leave. -/
theorem deduceBody_eq_error {t : Table} {body : List Stmt} {err : TypingError} :
    deduceBody t body = .error err ↔
      ∃ before s after before' t', body = before ++ s :: after ∧ Reaches t before before' t' ∧
        s.deduce t' = .error err := by
  induction body generalizing t with
  | nil => simp [deduceBody]
  | cons s rest ih =>
    rw [deduceBody, Typed.bind_eq_error]
    constructor
    · rintro (h | ⟨⟨s', t'⟩, hs, h⟩)
      · exact ⟨[], s, rest, [], t, rfl, .nil, h⟩
      · obtain ⟨before, s'', after, before', t'', rfl, hbefore, h⟩ :=
          ih.mp (Typed.bind_return_eq_error.mp h)
        exact ⟨s :: before, s'', after, s' :: before', t'', rfl, .cons hs hbefore, h⟩
    · rintro ⟨before, s'', after, before', t'', hbody, hbefore, h⟩
      cases hbefore with
      | nil =>
        obtain ⟨rfl, rfl⟩ := List.cons.inj hbody
        exact .inl h
      | @cons _ t' _ _ s' before before' hs hbefore =>
        obtain ⟨rfl, rfl⟩ := List.cons.inj hbody
        refine .inr ⟨(s', t'), hs, Typed.bind_return_eq_error.mpr ?_⟩
        exact ih.mpr ⟨before, s'', after, before', t'', rfl, hbefore, h⟩

theorem reaches_of_deduceBody {t : Table} {body body' : List Stmt}
    (h : deduceBody t body = .ok body') : ∃ t', Reaches t body body' t' := by
  rw [← List.append_nil body] at h
  obtain ⟨before', t', after', hreaches, hafter, rfl⟩ := deduceBody_append_eq_ok.mp h
  cases hafter
  rw [List.append_nil]
  exact ⟨t', hreaches⟩

theorem deduce_eq_error_iff {op : Operator} {err : TypingError} :
    op.deduce = .error err ↔
      deduceBody (Table.ofSymbols op.declarations) op.body = .error err := by
  unfold deduce
  exact Typed.bind_return_eq_error

/-- **Errors point into the statement that fails.** Deduction fails exactly where it comes to a
statement that fails under the table which the ones before it leave, and the error is at a node of
that statement or at the symbol it assigns to. -/
theorem deduce_fails_iff_statement_fails (op : Operator) (err : TypingError) :
    op.deduce = .error err ↔
      ∃ k s typed t, Reaches (Table.ofSymbols op.declarations) (op.body.take k) typed t ∧
        op.body[k]? = some s ∧ s.deduce t = .error err ∧
        ((∃ n ∈ s.nodes, err.loc = n.loc ∧ err.span = n.loc.span) ∨
          ∃ target value loc, s = .assign target value loc ∧ err.loc = target.loc ∧
            err.span = target.loc.span) := by
  rw [deduce_eq_error_iff, deduceBody_eq_error]
  constructor
  · rintro ⟨before, s, after, typed, t, hbody, hbefore, h⟩
    have htake : op.body.take before.length = before := by rw [hbody, List.take_left]
    have hget : op.body[before.length]? = some s := by rw [hbody]; simp
    refine ⟨before.length, s, typed, t, htake.symm ▸ hbefore, hget, h, ?_⟩
    rcases Stmt.points_of_deduce h with ⟨n, hn, hloc⟩ | ⟨target, value, loc, hs, hloc⟩
    · exact .inl ⟨n, hn, hloc, congrArg Location.span hloc⟩
    · exact .inr ⟨target, value, loc, hs, hloc, congrArg Location.span hloc⟩
  · rintro ⟨k, s, typed, t, hbefore, hget, h, -⟩
    obtain ⟨hk, rfl⟩ := List.getElem?_eq_some_iff.mp hget
    refine ⟨op.body.take k, op.body[k], op.body.drop (k + 1), typed, t, ?_, hbefore, h⟩
    rw [List.getElem_cons_drop, List.take_append_drop]

/-! ## Declarations that are not used -/

/-- **Only the types that the names of a body were declared with last matter.** -/
theorem deduce_of_same_types (op₁ op₂ : Operator) (hbody : op₁.body = op₂.body)
    (hdeclared : ∀ s ∈ op₁.body, ∀ id ∈ s.names,
      (lastDeclared? op₁.declarations id).bind Symbol.ty =
        (lastDeclared? op₂.declarations id).bind Symbol.ty) :
    (∃ body', op₁.deduce = .ok { op₁ with body := body' } ∧
        op₂.deduce = .ok { op₂ with body := body' }) ∨
      ∃ err, op₁.deduce = .error err ∧ op₂.deduce = .error err := by
  have hagree : ∀ id, (∃ s ∈ op₁.body, id ∈ s.names) →
      (Table.ofSymbols op₁.declarations).typeOf? id =
        (Table.ofSymbols op₂.declarations).typeOf? id := by
    rintro id ⟨s, hs, hid⟩
    rw [Table.typeOf?_ofSymbols, Table.typeOf?_ofSymbols]
    exact hdeclared s hs id hid
  cases hrun : deduceBody (Table.ofSymbols op₁.declarations) op₁.body with
  | ok body' =>
    left
    obtain ⟨t, hreaches⟩ := reaches_of_deduceBody hrun
    obtain ⟨u, hreaches', -⟩ := hreaches.congr (fun s hs id hid => ⟨s, hs, hid⟩) hagree
    rw [hbody] at hreaches'
    exact ⟨body', deduce_eq_ok_iff.mpr ⟨body', hrun, rfl⟩,
      deduce_eq_ok_iff.mpr ⟨body', hreaches'.deduceBody, rfl⟩⟩
  | error err =>
    right
    obtain ⟨before, s, after, typed, t, hcut, hbefore, h⟩ := deduceBody_eq_error.mp hrun
    have hmem : ∀ s' ∈ before, s' ∈ op₁.body := fun s' hs' => hcut ▸ List.mem_append_left _ hs'
    have hs : s ∈ op₁.body := hcut ▸ List.mem_append_right _ List.mem_cons_self
    obtain ⟨u, hbefore', hleft⟩ :=
      hbefore.congr (fun s' hs' id hid => ⟨s', hmem s' hs', hid⟩) hagree
    have h' := Stmt.deduce_error_congr h fun id hid => hleft id ⟨s, hs, hid⟩
    refine ⟨err, deduce_eq_error_iff.mpr hrun, deduce_eq_error_iff.mpr ?_⟩
    exact deduceBody_eq_error.mpr ⟨before, s, after, typed, u, hbody ▸ hcut, hbefore', h'⟩

/-- The body of `shiftedPair` among other declarations: `e` is a captured field that hides a scalar
parameter of its name, and `spare` is used nowhere. -/
def crowdedPair : Operator :=
  let loc : Location := { source := "ops.py", line := 1, column := 1 }
  { shiftedPair with
    params := [⟨"spare", none, SymbolSpace.local, loc⟩,
      ⟨"e", some (.scalar { kind := .int32 }), SymbolSpace.local, loc⟩]
    captured := shiftedPair.captured ++ shiftedPair.params }

theorem crowdedPair_same_types :
    crowdedPair.declarations.map Symbol.id ≠ shiftedPair.declarations.map Symbol.id ∧
      ∃ body', shiftedPair.deduce = .ok { shiftedPair with body := body' } ∧
        crowdedPair.deduce = .ok { crowdedPair with body := body' } := by
  have hdiffer : crowdedPair.declarations.map Symbol.id ≠
      shiftedPair.declarations.map Symbol.id := by decide
  have hok : ∃ op', shiftedPair.deduce = .ok op' := ⟨_, rfl⟩
  obtain ⟨op', hop'⟩ := hok
  rcases deduce_of_same_types shiftedPair crowdedPair rfl (by decide) with h | ⟨err, herr, -⟩
  · exact ⟨hdiffer, h⟩
  · rw [hop'] at herr
    cases herr

end Operator

end FieldView
