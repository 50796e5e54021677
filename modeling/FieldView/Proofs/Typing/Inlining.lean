import FieldView.Proofs.Typing.Idempotence

/-!
# Inlining an assignment

Where a name stands for a value that is assigned to it once, the value may stand in its place: the
assignment goes, every later use of the name becomes the value, and the types of all that is left
stay as they were.

Two things can come in between. The value must mean the same where it is put, so nothing it uses may
be assigned on the way. And its type must not depend on where it is put: the arguments of a shift
are typed by rules of their own, in which a subscript picks an offset. A value without subscripts
has the same type under both (`HasType.anywhere`); any other must stay out of the arguments of
calls. -/

set_option autoImplicit false

namespace FieldView.Operator

/-! ## Substitution -/

namespace Expr

mutual

/-- The expression with a value in place of a name. -/
def subst (e : Expr) (x : String) (v : Expr) : Expr :=
  match e with
  | name site id => if id = x then v else name site id
  | const site value => const site value
  | subscript site value index => subscript site (value.subst x v) index
  | binary site op left right => binary site op (left.subst x v) (right.subst x v)
  | compare site op left right => compare site op (left.subst x v) (right.subst x v)
  | unary site op operand => unary site op (operand.subst x v)
  | tuple site elements => tuple site (substAll elements x v)
  | call site callee args => call site (callee.subst x v) (substAll args x v)

/-- The expressions with a value in place of a name, in order. -/
def substAll (es : List Expr) (x : String) (v : Expr) : List Expr :=
  match es with
  | [] => []
  | e :: es => e.subst x v :: substAll es x v

end

theorem substAll_eq_map (es : List Expr) (x : String) (v : Expr) :
    substAll es x v = es.map (subst · x v) := by
  induction es with
  | nil => rfl
  | cons e es ih => rw [substAll, ih, List.map_cons]

theorem substAll_eq_self {x : String} {v : Expr} {es : List Expr}
    (h : ∀ e ∈ es, e.subst x v = e) : substAll es x v = es := by
  rw [substAll_eq_map]
  exact (List.map_congr_left h).trans (List.map_id es)

/-- Where the name is not used, nothing changes. -/
theorem subst_eq_self {x : String} {v e : Expr} (h : x ∉ e.names) : e.subst x v = e := by
  induction e using Expr.ind with
  | name site id =>
    rw [subst, if_neg]
    rintro rfl
    exact h List.mem_cons_self
  | const site value => rw [subst]
  | subscript site value index ih => rw [subst, ih h]
  | binary site op left right ihl ihr =>
    rw [names_binary, List.mem_append, not_or] at h
    rw [subst, ihl h.1, ihr h.2]
  | compare site op left right ihl ihr =>
    rw [names_compare, List.mem_append, not_or] at h
    rw [subst, ihl h.1, ihr h.2]
  | unary site op operand ih => rw [subst, ih h]
  | tuple site elements ih =>
    rw [names_tuple] at h
    have helements : substAll elements x v = elements := by
      apply substAll_eq_self
      intro e he
      exact ih e he fun hx => h (List.mem_flatMap.mpr ⟨e, he, hx⟩)
    rw [subst, helements]
  | call site callee args ihc iha =>
    rw [names_call, List.mem_append, not_or] at h
    have hargs : substAll args x v = args := by
      apply substAll_eq_self
      intro e he
      exact iha e he fun hx => h.2 (List.mem_flatMap.mpr ⟨e, he, hx⟩)
    rw [subst, ihc h.1, hargs]

/-! ## Names inside arguments -/

/-- The arguments of a call. -/
def args : Expr → List Expr
  | call _ _ args => args
  | _ => []

/-- The names that stand inside the arguments of some call in the expression. -/
def argNames (e : Expr) : List String := e.nodes.flatMap fun n => n.args.flatMap names

def isSubscript : Expr → Bool
  | subscript _ _ _ => true
  | _ => false

theorem argNames_binary (site : Site) (op : BinaryOp) (left right : Expr) :
    (binary site op left right).argNames = left.argNames ++ right.argNames := List.flatMap_append

theorem argNames_compare (site : Site) (op : CompareOp) (left right : Expr) :
    (compare site op left right).argNames = left.argNames ++ right.argNames := List.flatMap_append

theorem argNames_tuple (site : Site) (elements : List Expr) :
    (tuple site elements).argNames = elements.flatMap argNames := by
  rw [argNames, nodes, nodesOfAll_eq_flatMap, List.flatMap_cons, List.flatMap_assoc]
  rfl

theorem argNames_call (site : Site) (callee : Expr) (args : List Expr) :
    (call site callee args).argNames =
      args.flatMap names ++ (callee.argNames ++ args.flatMap argNames) := by
  rw [argNames, nodes, nodesOfAll_eq_flatMap, List.flatMap_cons, List.flatMap_append,
    List.flatMap_assoc]
  rfl

end Expr

/-! ## Types of substituted expressions -/

theorem HaveTypes.map {t u : Table} {inShift inShift' : Bool} {f : Expr → Expr} {es : List Expr}
    {τs : List Ty} (h : HaveTypes t inShift es τs)
    (hf : ∀ e ∈ es, ∀ τ, HasType t inShift e τ → HasType u inShift' (f e) τ) :
    HaveTypes u inShift' (es.map f) τs := by
  rw [haveTypes_iff_forall₂] at h ⊢
  induction h with
  | nil => exact .nil
  | cons he _ ih =>
    exact .cons (hf _ List.mem_cons_self _ he) (ih fun e hm => hf e (List.mem_cons_of_mem _ hm))

/-- Without subscripts, an expression has the same type in the arguments of a shift and outside. -/
theorem HasType.anywhere {t : Table} {inShift inShift' : Bool} {e : Expr} {τ : Ty}
    (h : HasType t inShift e τ) (hno : ∀ n ∈ e.nodes, n.isSubscript = false) :
    HasType t inShift' e τ := by
  induction e using Expr.ind generalizing τ with
  | name site id =>
    cases h with
    | name hτ => exact .name hτ
  | const site value =>
    cases h with
    | const hτ => exact .const hτ
  | subscript site value index ih =>
    have hself := hno _ (Expr.mem_nodes_self _)
    cases hself
  | binary site op left right ihl ihr =>
    simp only [Expr.nodes, List.mem_cons, List.mem_append] at hno
    cases h with
    | binary hleft hright ha hb hc =>
      have hleft := ihl hleft fun n hn => hno n (.inr (.inl hn))
      have hright := ihr hright fun n hn => hno n (.inr (.inr hn))
      exact .binary hleft hright ha hb hc
  | compare site op left right ihl ihr =>
    simp only [Expr.nodes, List.mem_cons, List.mem_append] at hno
    cases h with
    | compare hleft hright hc =>
      have hleft := ihl hleft fun n hn => hno n (.inr (.inl hn))
      have hright := ihr hright fun n hn => hno n (.inr (.inr hn))
      exact .compare hleft hright hc
  | unary site op operand ih =>
    cases h with
    | unary hoperand hsuits =>
      exact .unary (ih hoperand fun n hn => hno n (List.mem_cons_of_mem _ hn)) hsuits
  | tuple site elements ih =>
    simp only [Expr.nodes, Expr.nodesOfAll_eq_flatMap, List.mem_cons, List.mem_flatMap] at hno
    cases h with
    | tuple helements =>
      have helements := helements.map (f := fun e => e) fun e he τ hτ =>
        ih e he hτ fun n hn => hno n (.inr ⟨e, he, hn⟩)
      rw [List.map_id'] at helements
      exact .tuple helements
  | call site callee args ihc iha =>
    simp only [Expr.nodes, Expr.nodesOfAll_eq_flatMap, List.mem_cons, List.mem_append,
      List.mem_flatMap] at hno
    have hcallee : ∀ σ, HasType t inShift callee σ → HasType t inShift' callee σ :=
      fun σ hσ => ihc hσ fun n hn => hno n (.inr (.inl hn))
    cases h with
    | shift hfield harg hshifted => exact .shift (hcallee _ hfield) harg hshifted
    | call hfunction hargs =>
      have hargs := hargs.map (f := fun e => e) fun e he τ hτ =>
        iha e he hτ fun n hn => hno n (.inr (.inr ⟨e, he, hn⟩))
      rw [List.map_id'] at hargs
      exact .call (hcallee _ hfunction) hargs

/-- **Substitution keeps types.** The value has the type that the table has for the name, where the
expression stands; and if the name occurs in an argument, the value has it in a shift as well. -/
theorem HasType.subst {t u : Table} {inShift : Bool} {x : String} {v e : Expr} {τ σ : Ty}
    (h : HasType t inShift e σ) (hx : t.typeOf? x = some τ)
    (hagree : ∀ id, id ≠ x → t.typeOf? id = u.typeOf? id) (hv : HasType u inShift v τ)
    (hshift : HasType u true v τ ∨ x ∉ e.argNames) : HasType u inShift (e.subst x v) σ := by
  induction e using Expr.ind generalizing inShift σ with
  | name site id =>
    cases h with
    | name hσ =>
      rw [Expr.subst]
      by_cases hid : id = x
      · rw [hid, hx] at hσ
        cases hσ
        rw [if_pos hid]
        exact hv
      · rw [if_neg hid]
        rw [hagree id hid] at hσ
        exact .name hσ
  | const site value =>
    cases h with
    | const hσ =>
      rw [Expr.subst]
      exact .const hσ
  | subscript site value index ih =>
    rw [Expr.subst]
    cases h with
    | offset hvalue => exact .offset (ih hvalue hv hshift)
    | element hvalue hσ => exact .element (ih hvalue hv hshift) hσ
  | binary site op left right ihl ihr =>
    rw [Expr.argNames_binary, List.mem_append, not_or] at hshift
    rw [Expr.subst]
    cases h with
    | binary hleft hright ha hb hc =>
      have hleft := ihl hleft hv (hshift.imp_right And.left)
      have hright := ihr hright hv (hshift.imp_right And.right)
      exact .binary hleft hright ha hb hc
  | compare site op left right ihl ihr =>
    rw [Expr.argNames_compare, List.mem_append, not_or] at hshift
    rw [Expr.subst]
    cases h with
    | compare hleft hright hc =>
      have hleft := ihl hleft hv (hshift.imp_right And.left)
      have hright := ihr hright hv (hshift.imp_right And.right)
      exact .compare hleft hright hc
  | unary site op operand ih =>
    rw [Expr.subst]
    cases h with
    | unary hoperand hsuits => exact .unary (ih hoperand hv hshift) hsuits
  | tuple site elements ih =>
    rw [Expr.argNames_tuple] at hshift
    rw [Expr.subst, Expr.substAll_eq_map]
    cases h with
    | tuple helements =>
      refine .tuple (helements.map ?_)
      intro e he σ hσ
      refine ih e he hσ hv (hshift.imp_right ?_)
      intro hnot hx
      exact hnot (List.mem_flatMap.mpr ⟨e, he, hx⟩)
  | call site callee args ihc iha =>
    rw [Expr.argNames_call, List.mem_append, List.mem_append, not_or, not_or] at hshift
    have hcallee : ∀ σ, HasType t inShift callee σ → HasType u inShift (callee.subst x v) σ :=
      fun σ hσ => ihc hσ hv (hshift.imp_right fun hnot => hnot.2.1)
    -- An argument either does not use the name, or may hold the value in a shift too.
    have hargs : ∀ a ∈ args, ∀ inShift, (HasType u true v τ → HasType u inShift v τ) →
        ∀ σ, HasType t inShift a σ → HasType u inShift (a.subst x v) σ := by
      intro a ha inShift hv' σ hσ
      rcases hshift with htrue | ⟨hnot, -⟩
      · exact iha a ha hσ (hv' htrue) (.inl htrue)
      · have hxa : x ∉ a.names := fun hx => hnot (List.mem_flatMap.mpr ⟨a, ha, hx⟩)
        rw [Expr.subst_eq_self hxa]
        apply hσ.congr
        intro id hid
        apply hagree
        rintro rfl
        exact hxa hid
    rw [Expr.subst, Expr.substAll_eq_map]
    cases h with
    | shift hfield harg hshifted =>
      exact .shift (hcallee _ hfield) (hargs _ List.mem_cons_self true (fun h => h) _ harg) hshifted
    | call hfunction hargTypes =>
      exact .call (hcallee _ hfunction)
        (hargTypes.map fun a ha => hargs a ha inShift fun _ => hv)

theorem onlyLiterals_cons {n : Expr} {ns : List Expr} :
    OnlyLiterals (n :: ns) ↔ (n.ty = none ∨ n.isLiteral = true) ∧ OnlyLiterals ns :=
  List.forall_mem_cons

theorem onlyLiterals_append {ns ms : List Expr} :
    OnlyLiterals (ns ++ ms) ↔ OnlyLiterals ns ∧ OnlyLiterals ms :=
  List.forall_mem_append

theorem onlyLiterals_nodesOfAll {es : List Expr} :
    OnlyLiterals (Expr.nodesOfAll es) ↔ ∀ e ∈ es, OnlyLiterals e.nodes := by
  rw [Expr.nodesOfAll_eq_flatMap]
  exact List.forall_mem_flatMap

theorem onlyLiterals_substAll {x : String} {v : Expr} {es : List Expr}
    (ih : ∀ e ∈ es, OnlyLiterals e.nodes → OnlyLiterals (e.subst x v).nodes)
    (hes : OnlyLiterals (Expr.nodesOfAll es)) :
    OnlyLiterals (Expr.nodesOfAll (Expr.substAll es x v)) := by
  rw [onlyLiterals_nodesOfAll] at hes ⊢
  rw [Expr.substAll_eq_map, List.forall_mem_map]
  exact fun e he => ih e he (hes e he)

/-- Putting a value in place of a name gives types to no node but literals. -/
theorem onlyLiterals_subst {x : String} {v e : Expr} (hv : OnlyLiterals v.nodes)
    (he : OnlyLiterals e.nodes) : OnlyLiterals (e.subst x v).nodes := by
  induction e using Expr.ind with
  | name site id =>
    rw [Expr.subst]
    split
    · exact hv
    · exact he
  | const site value => exact he
  | subscript site value index ih =>
    obtain ⟨hself, hvalue⟩ := onlyLiterals_cons.mp he
    exact onlyLiterals_cons.mpr ⟨hself, ih hvalue⟩
  | binary site op left right ihl ihr =>
    obtain ⟨hself, hparts⟩ := onlyLiterals_cons.mp he
    obtain ⟨hleft, hright⟩ := onlyLiterals_append.mp hparts
    exact onlyLiterals_cons.mpr ⟨hself, onlyLiterals_append.mpr ⟨ihl hleft, ihr hright⟩⟩
  | compare site op left right ihl ihr =>
    obtain ⟨hself, hparts⟩ := onlyLiterals_cons.mp he
    obtain ⟨hleft, hright⟩ := onlyLiterals_append.mp hparts
    exact onlyLiterals_cons.mpr ⟨hself, onlyLiterals_append.mpr ⟨ihl hleft, ihr hright⟩⟩
  | unary site op operand ih =>
    obtain ⟨hself, hoperand⟩ := onlyLiterals_cons.mp he
    exact onlyLiterals_cons.mpr ⟨hself, ih hoperand⟩
  | tuple site elements ih =>
    obtain ⟨hself, helements⟩ := onlyLiterals_cons.mp he
    exact onlyLiterals_cons.mpr ⟨hself, onlyLiterals_substAll ih helements⟩
  | call site callee args ihc iha =>
    obtain ⟨hself, hparts⟩ := onlyLiterals_cons.mp he
    obtain ⟨hcallee, hargs⟩ := onlyLiterals_append.mp hparts
    have hargs := onlyLiterals_substAll iha hargs
    exact onlyLiterals_cons.mpr ⟨hself, onlyLiterals_append.mpr ⟨ihc hcallee, hargs⟩⟩

/-! ## Statements -/

namespace Stmt

/-- The statement with a value in place of a name. What it assigns to stays. -/
def subst (s : Stmt) (x : String) (v : Expr) : Stmt :=
  match s with
  | assign target value loc => assign target (value.subst x v) loc
  | ret value loc => ret (value.subst x v) loc
  | importSymbols symbols loc => importSymbols symbols loc

/-- The symbol that a statement assigns to. -/
def target? : Stmt → Option Symbol
  | assign target _ _ => some target
  | _ => none

/-- The names that stand inside the arguments of some call in the statement. -/
def argNames (s : Stmt) : List String := s.nodes.flatMap fun n => n.args.flatMap Expr.names

/-- Two statements assign to the same symbol and return a value of the same type, if they do so. -/
def SameTypes (s s' : Stmt) : Prop := s'.target? = s.target? ∧ s'.returnTy = s.returnTy

theorem declares_subst (s : Stmt) (x : String) (v : Expr) :
    (s.subst x v).declares = s.declares := by
  cases s with
  | assign target value loc => rfl
  | ret value loc => rfl
  | importSymbols symbols loc => rfl

end Stmt

/-- The tables of a run and of the one with the value in place of the name: the first has the type
of the value for the name, and elsewhere they agree. -/
structure Inlines (x : String) (v : Expr) (τ : Ty) (t u : Table) : Prop where
  bound : t.typeOf? x = some τ
  agree : ∀ id, id ≠ x → t.typeOf? id = u.typeOf? id
  value : HasType u false v τ

section Run

variable {x : String} {v : Expr} {τ : Ty} {t u : Table}

/-- Declaring a name that the value does not use changes nothing for the value. -/
theorem Inlines.declare (h : Inlines x v τ t u) {id : String} (hx : id ≠ x) (hv : id ∉ v.names)
    (ty : Deduced) : Inlines x v τ (t.declare id ty) (u.declare id ty) where
  bound := by rw [Table.typeOf?_declare, if_neg hx, h.bound]
  agree := by
    intro id' hid'
    rw [Table.typeOf?_declare, Table.typeOf?_declare, h.agree id' hid']
  value := by
    apply h.value.congr
    intro id' hid'
    rw [Table.typeOf?_declare, if_neg]
    rintro rfl
    exact hv hid'

theorem Inlines.deduce_subst (h : Inlines x v τ t u) {e e' : Expr}
    (hshift : (∀ n ∈ v.nodes, n.isSubscript = false) ∨ x ∉ e.argNames)
    (he : e.deduce t false = .ok e') :
    ∃ e'', (e.subst x v).deduce u false = .ok e'' ∧ e''.ty = e'.ty := by
  obtain ⟨σ, hσ, hhas⟩ := hasType_of_deduce he
  rw [hσ]
  apply HasType.deduce
  exact hhas.subst h.bound h.agree h.value (hshift.imp_left h.value.anywhere)

/-- One statement: with the value in place of the name it does the same, and what follows may be
read in the same way. -/
theorem Inlines.stmt_deduce_subst (h : Inlines x v τ t u) (hv : OnlyLiterals v.nodes) {s s' : Stmt}
    {t' : Table} (hs : OnlyLiterals s.nodes) (hx : s.assigned? x = none)
    (hfixed : ∀ id ∈ v.names, s.assigned? id = none)
    (hshift : (∀ n ∈ v.nodes, n.isSubscript = false) ∨ x ∉ s.argNames)
    (hd : s.deduce t = .ok (s', t')) :
    ∃ s'' u', (s.subst x v).deduce u = .ok (s'', u') ∧ s'.SameTypes s'' ∧ Inlines x v τ t' u' := by
  cases s with
  | assign target value loc =>
    obtain ⟨value', σ, hvalue, hσ, hrefines, heq⟩ := Stmt.deduce_assign_eq_ok.mp hd
    cases heq
    obtain ⟨value'', hvalue'', hty⟩ := h.deduce_subst hshift ((settles_iff_deduce hs).mp hvalue)
    have hsettles := (settles_iff_deduce (onlyLiterals_subst hv hs)).mpr hvalue''
    rw [hσ] at hty
    have htargetX : target.id ≠ x := by simpa [Stmt.assigned?] using hx
    have htargetV : target.id ∉ v.names := by
      intro hid
      simpa [Stmt.assigned?] using hfixed _ hid
    exact ⟨_, _, Stmt.deduce_assign_eq_ok.mpr ⟨value'', σ, hsettles, hty, hrefines, rfl⟩,
      ⟨rfl, rfl⟩, h.declare htargetX htargetV _⟩
  | ret value loc =>
    obtain ⟨value', hvalue, heq⟩ := Stmt.deduce_ret_eq_ok.mp hd
    cases heq
    obtain ⟨value'', hvalue'', hty⟩ := h.deduce_subst hshift hvalue
    exact ⟨_, _, Stmt.deduce_ret_eq_ok.mpr ⟨value'', hvalue'', rfl⟩, ⟨rfl, hty⟩, h⟩
  | importSymbols symbols loc =>
    cases Stmt.deduce_importSymbols_eq_ok.mp hd
    exact ⟨_, _, Stmt.deduce_importSymbols_eq_ok.mpr rfl, ⟨rfl, rfl⟩, h⟩

/-- A run of the statements after the assignment. -/
theorem Inlines.deduceBody_subst (h : Inlines x v τ t u) (hv : OnlyLiterals v.nodes)
    {body body' : List Stmt} (hbody : ∀ s ∈ body, OnlyLiterals s.nodes)
    (hx : ∀ s ∈ body, s.assigned? x = none)
    (hfixed : ∀ s ∈ body, ∀ id ∈ v.names, s.assigned? id = none)
    (hshift : (∀ n ∈ v.nodes, n.isSubscript = false) ∨ ∀ s ∈ body, x ∉ s.argNames)
    (hd : deduceBody t body = .ok body') :
    ∃ body'', deduceBody u (body.map (·.subst x v)) = .ok body'' ∧
      List.Forall₂ Stmt.SameTypes body' body'' := by
  induction body generalizing t u body' with
  | nil =>
    cases hd
    exact ⟨[], rfl, .nil⟩
  | cons s rest ih =>
    rw [List.forall_mem_cons] at hbody hx hfixed
    simp only [List.forall_mem_cons] at hshift
    obtain ⟨s', t', rest', hs, hrest, rfl⟩ := deduceBody_cons_eq_ok.mp hd
    obtain ⟨s'', u', hs'', hsame, h'⟩ := h.stmt_deduce_subst hv hbody.1 hx.1 hfixed.1
      (hshift.imp_right And.left) hs
    obtain ⟨rest'', hrest'', hsames⟩ := ih h' hbody.2 hx.2 hfixed.2
      (hshift.imp_right And.right) hrest
    exact ⟨s'' :: rest'', deduceBody_cons_eq_ok.mpr ⟨s'', u', rest'', hs'', hrest'', rfl⟩,
      .cons hsame hsames⟩

end Run

/-! ## Operators -/

/-- The symbols that an operator assigns to, in order. -/
def targets (op : Operator) : List Symbol := op.body.filterMap Stmt.target?

/-- The operator without an assignment, and with its value in place of its target in the statements
after it. -/
def inlined (op : Operator) (before : List Stmt) (target : Symbol) (value : Expr)
    (after : List Stmt) : Operator :=
  { op with body := before ++ after.map (·.subst target.id value) }

/-- When the assignment of a value to a target may be inlined: nothing else declares the target; it
is not used before or in the value; what the value uses is not assigned afterwards; and the value
has no subscripts, or the target does not stand in the arguments of a call. -/
structure Inlinable (op : Operator) (before : List Stmt) (target : Symbol) (value : Expr)
    (loc : Location) (after : List Stmt) : Prop where
  body : op.body = before ++ .assign target value loc :: after
  once : (op.declarations.map Symbol.id).count target.id = 1
  unused : ∀ s ∈ before, target.id ∉ s.names
  unusedByValue : target.id ∉ value.names
  fixed : ∀ s ∈ after, ∀ id ∈ value.names, s.assigned? id = none
  shift : (∀ n ∈ value.nodes, n.isSubscript = false) ∨ ∀ s ∈ after, target.id ∉ s.argNames

theorem Stmt.assigned?_eq_none {s : Stmt} {id : String} (h : id ∉ s.declares.map Symbol.id) :
    s.assigned? id = none := by
  cases s with
  | assign target value loc =>
    apply if_neg
    rintro rfl
    exact h List.mem_cons_self
  | ret value loc => rfl
  | importSymbols symbols loc => rfl

theorem unassigned_of_count {body : List Stmt} {id : String}
    (h : ((body.flatMap Stmt.declares).map Symbol.id).count id = 0) :
    ∀ s ∈ body, s.assigned? id = none := by
  intro s hs
  rw [List.count_eq_zero, List.map_flatMap] at h
  apply Stmt.assigned?_eq_none
  intro hid
  exact h (List.mem_flatMap.mpr ⟨s, hs, hid⟩)

section Inlinable

variable {op : Operator} {before after : List Stmt} {target : Symbol} {value : Expr}
  {loc : Location}

theorem Inlinable.unassigned (h : Inlinable op before target value loc after) :
    (∀ s ∈ before, s.assigned? target.id = none) ∧ ∀ s ∈ after, s.assigned? target.id = none := by
  have hcount := h.once
  simp only [declarations, h.body, List.flatMap_append, List.flatMap_cons, List.map_append,
    List.count_append, Stmt.declares, List.map_cons, List.map_nil, List.count_singleton_self]
    at hcount
  exact ⟨unassigned_of_count (by omega), unassigned_of_count (by omega)⟩

/-- Without the assignment the table starts with the same entries for all other names. -/
theorem Inlinable.agree (h : Inlinable op before target value loc after) {id : String}
    (hid : id ≠ target.id) :
    (Table.ofSymbols op.declarations).typeOf? id =
      (Table.ofSymbols (op.inlined before target value after).declarations).typeOf? id := by
  have hafter : (after.map (·.subst target.id value)).flatMap Stmt.declares =
      after.flatMap Stmt.declares := by
    rw [List.flatMap_map]
    exact List.flatMap_congr fun s _ => s.declares_subst _ _
  have htarget : lastDeclared? [target] id = none := by
    simpa [lastDeclared?] using hid.symm
  rw [Table.typeOf?_ofSymbols, Table.typeOf?_ofSymbols]
  unfold declarations inlined
  rw [h.body, List.flatMap_append, List.flatMap_cons, List.flatMap_append, hafter]
  simp only [lastDeclared?_append, Stmt.declares, htarget, Option.or_none]

/-- The tables right after the assignment, in the one run, and in its place, in the other. -/
theorem Inlinable.inlines (h : Inlinable op before target value loc after) {t u : Table} {τ : Ty}
    (hagree : ∀ id, id ≠ target.id → t.typeOf? id = u.typeOf? id)
    (hvalue : HasType t false value τ) :
    Inlines target.id value τ (t.declare target.id (some τ)) u where
  bound := by rw [Table.typeOf?_declare, if_pos rfl]
  agree := by
    intro id hid
    rw [Table.typeOf?_declare, if_neg hid.symm, hagree id hid]
  value := by
    apply hvalue.congr
    intro id hid
    apply hagree
    rintro rfl
    exact h.unusedByValue hid

theorem findSome?_returnTy_inlined {before' after' after'' : List Stmt} {target' : Symbol}
    {value' : Expr} (h : List.Forall₂ Stmt.SameTypes after' after'') :
    (before' ++ after'').reverse.findSome? Stmt.returnTy =
      (before' ++ .assign target' value' loc :: after').reverse.findSome? Stmt.returnTy := by
  have hafter : after''.reverse.findSome? Stmt.returnTy =
      after'.reverse.findSome? Stmt.returnTy := by
    have hmap := map_eq_map_of_forall₂ (h.imp fun _ _ hs => hs.2)
    have hfind := congrArg (fun tys => tys.reverse.findSome? fun ty : Deduced => ty) hmap
    simpa only [← List.map_reverse, List.findSome?_map, Function.comp_def] using hfind
  simp only [List.reverse_append, List.reverse_cons, List.findSome?_append, hafter]
  simp [Stmt.returnTy]

theorem Stmt.ne_of_target? {s : Stmt} {id : String} (h : s.assigned? id = none) {symbol : Symbol}
    (hs : s.target? = some symbol) : symbol.id ≠ id := by
  cases s with
  | assign target value loc =>
    cases hs
    simpa [assigned?] using h
  | _ => cases hs

theorem filter_targets {body : List Stmt} {id : String} (h : ∀ s ∈ body, s.assigned? id = none) :
    (body.filterMap Stmt.target?).filter (·.id ≠ id) = body.filterMap Stmt.target? := by
  rw [List.filter_eq_self]
  intro symbol hsymbol
  obtain ⟨s, hs, htarget⟩ := List.mem_filterMap.mp hsymbol
  exact decide_eq_true (Stmt.ne_of_target? (h s hs) htarget)

/-- Only the inlined target is missing from the symbols assigned to. -/
theorem filterMap_target?_inlined {before' after' after'' : List Stmt} {target' : Symbol}
    {value' : Expr} {id : String} (htarget : target'.id = id)
    (hbefore : ∀ s ∈ before', s.assigned? id = none) (hafter : ∀ s ∈ after', s.assigned? id = none)
    (h : List.Forall₂ Stmt.SameTypes after' after'') :
    (before' ++ after'').filterMap Stmt.target? =
      ((before' ++ .assign target' value' loc :: after').filterMap Stmt.target?).filter
        (·.id ≠ id) := by
  have hdrop : List.filter (fun s : Symbol => s.id ≠ id) [target'] = [] := by simp [htarget]
  have hsame := filterMap_eq_filterMap_of_forall₂ (h.imp fun _ _ hs => hs.1)
  calc (before' ++ after'').filterMap Stmt.target?
      = before'.filterMap Stmt.target? ++ after'.filterMap Stmt.target? := by
        rw [List.filterMap_append, hsame]
    _ = (before'.filterMap Stmt.target? ++ ([target'] ++ after'.filterMap Stmt.target?)).filter
          (·.id ≠ id) := by
        rw [List.filter_append, List.filter_append, hdrop, filter_targets hbefore,
          filter_targets hafter, List.nil_append]
    _ = _ := by
        rw [List.filterMap_append]
        rfl

end Inlinable

/-- **Inlining an assignment keeps all other types.** If an operator whose literals alone carry
types is well typed, so is the one in which an assignment that may be inlined has been; it returns a
value of the same type, and every symbol that is still assigned to gets the type it had before. -/
theorem deduce_inlined {op op' : Operator} {before after : List Stmt} {target : Symbol}
    {value : Expr} {loc : Location} (hop : op.OnlyLiteralsTyped)
    (hin : Inlinable op before target value loc after) (h : op.deduce = .ok op') :
    ∃ op'', (op.inlined before target value after).deduce = .ok op'' ∧
      op''.returnTy = op'.returnTy ∧
      op''.targets = op'.targets.filter (·.id ≠ target.id) := by
  have hliterals := hop
  unfold OnlyLiteralsTyped at hliterals
  rw [hin.body, List.forall_mem_append, List.forall_mem_cons] at hliterals
  obtain ⟨-, hvalueLiterals, hafterLiterals⟩ := hliterals
  obtain ⟨hbeforeFree, hafterFree⟩ := hin.unassigned
  -- The run, cut at the assignment.
  obtain ⟨body', hbody, rfl⟩ := deduce_eq_ok_iff.mp h
  rw [hin.body] at hbody
  obtain ⟨before', t, tail', hbefore, htail, rfl⟩ := deduceBody_append_eq_ok.mp hbody
  obtain ⟨s', t', after', hassign, hafter, rfl⟩ := deduceBody_cons_eq_ok.mp htail
  obtain ⟨value', τ, hvalue, hτ, -, heq⟩ := Stmt.deduce_assign_eq_ok.mp hassign
  cases heq
  have hvalueTy := hasType_iff.mpr ⟨value', (settles_iff_deduce hvalueLiterals).mp hvalue, hτ⟩
  -- The same statements before it, and the others with the value in place of the target.
  have hvisible : ∀ s ∈ before, ∀ id ∈ s.names, id ≠ target.id := by
    rintro s hs id hid rfl
    exact hin.unused s hs hid
  obtain ⟨u, hbefore'', hagree⟩ := hbefore.congr hvisible fun id hid => hin.agree hid
  obtain ⟨after'', hafter'', hsame⟩ := (hin.inlines hagree hvalueTy).deduceBody_subst
    hvalueLiterals hafterLiterals hafterFree hin.fixed hin.shift hafter
  refine ⟨_, deduce_eq_ok_iff.mpr ⟨before' ++ after'', ?_, rfl⟩, ?_, ?_⟩
  · exact deduceBody_append_eq_ok.mpr ⟨before', u, after'', hbefore'', hafter'', rfl⟩
  · exact findSome?_returnTy_inlined hsame
  · have hbeforeFree' := unassigned_of_deduceBody hbefore.deduceBody hbeforeFree
    have hafterFree' := unassigned_of_deduceBody hafter hafterFree
    exact filterMap_target?_inlined rfl hbeforeFree' hafterFree' hsame

/-- `w = 2.0`, then `pair = (e(E2V[0]), w)`, `s = pair[0] + w` and `return s < 1.0`. -/
def pairedSum : Operator :=
  let loc : Location := { source := "ops.py", line := 1, column := 1 }
  let untyped : Site := { loc }
  let float : Site := { loc, ty := some (.scalar { kind := .float64 }) }
  { id := "paired_sum"
    params := [
      ⟨"e", some (.field (.known ["Vertex"]) { kind := .float64 }), SymbolSpace.local, loc⟩]
    captured := [⟨"E2V", some (.offset "Vertex" ["Edge"]), SymbolSpace.closure, loc⟩]
    body := [
      .assign ⟨"w", none, SymbolSpace.local, loc⟩ (.const float "2.0") loc,
      .assign ⟨"pair", none, SymbolSpace.local, loc⟩
        (.tuple untyped [.call untyped (.name untyped "e")
          [.subscript untyped (.name untyped "E2V") 0], .name untyped "w"]) loc,
      .assign ⟨"s", some (.deferred (some .field)), SymbolSpace.local, loc⟩
        (.binary untyped .add (.subscript untyped (.name untyped "pair") 0)
          (.name untyped "w")) loc,
      .ret (.compare untyped .lt (.name untyped "s") (.const float "1.0")) loc]
    loc }

/-- The value of `pair` has a subscript, but `pair` is not used in an argument. -/
theorem pairedSum_inlined :
    pairedSum.OnlyLiteralsTyped ∧ ∃ before target value loc after op'',
      Inlinable pairedSum before target value loc after ∧ target.id = "pair" ∧
      (pairedSum.inlined before target value after).deduce = .ok op'' ∧
      op''.returnTy = some (.field (.known ["Edge"]) { kind := .bool }) ∧
      op''.targets.map (fun s => (s.id, s.ty)) =
        [("w", some (.scalar { kind := .float64 })),
          ("s", some (.field (.known ["Edge"]) { kind := .float64 }))] := by
  have honly : pairedSum.OnlyLiteralsTyped := by decide
  have hok : ∃ op', pairedSum.deduce = .ok op' ∧
      op'.returnTy = some (.field (.known ["Edge"]) { kind := .bool }) ∧
      (op'.targets.filter (·.id ≠ "pair")).map (fun s => (s.id, s.ty)) =
        [("w", some (.scalar { kind := .float64 })),
          ("s", some (.field (.known ["Edge"]) { kind := .float64 }))] :=
    ⟨_, rfl, rfl, by decide⟩
  obtain ⟨op', h, hreturn, htargets⟩ := hok
  have hin : Inlinable pairedSum (pairedSum.body.take 1) _ _ _ (pairedSum.body.drop 2) :=
    { body := rfl
      once := by decide
      unused := by decide
      unusedByValue := by decide
      fixed := by decide
      shift := .inr (by decide) }
  obtain ⟨op'', h'', hreturn'', htargets''⟩ := deduce_inlined honly hin h
  exact ⟨honly, _, _, _, _, _, op'', hin, rfl, h'', hreturn''.trans hreturn,
    htargets'' ▸ htargets⟩

end FieldView.Operator
