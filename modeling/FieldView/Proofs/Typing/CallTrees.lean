import FieldView.Proofs.Typing.Scoping

/-!
# Well-formed call trees

A program is accepted exactly if each of its nodes is in order by itself (`Expr.WellFormed`): a name
has a known type; a call is of a function and fits it. What a node is asked depends on the types of
its parts, and these can be told without deduction, since a call has the type that its callee
returns (`Expr.typeBy`). So the order in which deduction looks at parts and makes its checks decides
which fault is found first, but not whether there is one.

Deduction works on all nodes alike (`forall₂_nodes`) and leaves alone what it has typed
(`deduce_deduced`); what is said here about the nodes of a result follows from these two.
-/

set_option autoImplicit false

namespace FieldView

/-- A list is related to some other if each of its elements is related to something. -/
theorem exists_forall₂_iff {α β : Type} {R : α → β → Prop} {as : List α} :
    (∃ bs, List.Forall₂ R as bs) ↔ ∀ a ∈ as, ∃ b, R a b := by
  induction as with
  | nil => simp
  | cons a as ih =>
    rw [List.forall_mem_cons, ← ih]
    constructor
    · rintro ⟨bs, h⟩
      cases h with
      | cons hab hrest => exact ⟨⟨_, hab⟩, _, hrest⟩
    · rintro ⟨⟨b, hb⟩, bs, hbs⟩
      exact ⟨b :: bs, .cons hb hbs⟩

/-- What follows for the members of a list may be drawn for the list. -/
theorem forall₂_imp_of_mem {α β : Type} {R S : α → β → Prop} {as : List α} {bs : List β}
    (hRS : ∀ a ∈ as, ∀ b, R a b → S a b) (h : List.Forall₂ R as bs) : List.Forall₂ S as bs :=
  ((List.forall₂_and_left _ _).mpr ⟨hRS, h⟩).imp fun _ b hab => hab.1 b hab.2

namespace Program

namespace Expr

/-! ## Nodes and types -/

mutual

/-- The expression and all that it is made of, every part before its own parts. -/
def nodes : Expr → List Expr
  | name site id => [name site id]
  | call site callee args kwargs =>
    call site callee args kwargs :: (callee.nodes ++ nodesOfAll args ++ nodesOfNamed kwargs)

/-- The nodes of several expressions, in order. -/
def nodesOfAll : List Expr → List Expr
  | [] => []
  | e :: es => e.nodes ++ nodesOfAll es

/-- The nodes of keyword arguments, in order. -/
def nodesOfNamed : List (String × Expr) → List Expr
  | [] => []
  | (_, e) :: es => e.nodes ++ nodesOfNamed es

end

theorem nodesOfAll_eq_flatMap (es : List Expr) : nodesOfAll es = es.flatMap nodes := by
  induction es with
  | nil => rfl
  | cons e es ih => rw [nodesOfAll, ih, List.flatMap_cons]

theorem nodesOfNamed_eq_flatMap (kvs : List (String × Expr)) :
    nodesOfNamed kvs = kvs.flatMap fun kv => kv.2.nodes := by
  induction kvs with
  | nil => rfl
  | cons kv kvs ih => rw [nodesOfNamed, ih, List.flatMap_cons]

/-- Something holds of all nodes of a call if it holds of the call and of all nodes of its parts. -/
theorem forall_mem_nodes_call {P : Expr → Prop} {site : Site} {callee : Expr} {args : List Expr}
    {kwargs : List (String × Expr)} :
    (∀ n ∈ (call site callee args kwargs).nodes, P n) ↔
      P (call site callee args kwargs) ∧ (∀ n ∈ callee.nodes, P n) ∧
        (∀ e ∈ args, ∀ n ∈ e.nodes, P n) ∧ ∀ kv ∈ kwargs, ∀ n ∈ kv.2.nodes, P n := by
  rw [nodes, List.forall_mem_cons, List.forall_mem_append, List.forall_mem_append,
    nodesOfAll_eq_flatMap, nodesOfNamed_eq_flatMap, List.forall_mem_flatMap,
    List.forall_mem_flatMap, and_assoc]

mutual

/-- The expression without the types of its nodes. -/
def erase : Expr → Expr
  | name site id => name (site.withTy none) id
  | call site callee args kwargs =>
    call (site.withTy none) callee.erase (eraseAll args) (eraseNamed kwargs)

/-- The expressions without types, in order. -/
def eraseAll : List Expr → List Expr
  | [] => []
  | e :: es => e.erase :: eraseAll es

/-- The keyword arguments without types, in order. -/
def eraseNamed : List (String × Expr) → List (String × Expr)
  | [] => []
  | (key, e) :: es => (key, e.erase) :: eraseNamed es

end

theorem eraseAll_eq_map (es : List Expr) : eraseAll es = es.map erase := by
  induction es with
  | nil => rfl
  | cons e es ih => rw [eraseAll, ih, List.map_cons]

theorem eraseNamed_eq_map (kvs : List (String × Expr)) :
    eraseNamed kvs = kvs.map fun kv => (kv.1, kv.2.erase) := by
  induction kvs with
  | nil => rfl
  | cons kv kvs ih => rw [eraseNamed, ih, List.map_cons]

/-- The type of an expression by a rule for the types of names. A call has the type that its callee
returns, whatever it is called with. -/
def typeBy (rule : String → Deduced) : Expr → Deduced
  | name _ id => rule id
  | call _ callee _ _ =>
    match callee.typeBy rule with
    | some (.function _ _ returns) => some returns
    | _ => none

theorem typeBy_call {rule : String → Deduced} {site : Site} {callee : Expr} {args : List Expr}
    {kwargs : List (String × Expr)} {params : List Ty} {keywords : List (String × Ty)}
    {returns : Ty} (h : callee.typeBy rule = some (.function params keywords returns)) :
    (call site callee args kwargs).typeBy rule = some returns := by
  rw [typeBy, h]

/-- A result of the second type may go where the first type is: the two are the same unless one of
them is deferred. -/
def Receives (out : Deduced) (returns : Ty) : Prop :=
  ∀ τ ∈ out, τ = returns ∨ τ.isDeferred = true ∨ returns.isDeferred = true

/-- A call is in order and returns the type, where the types of expressions are told by a function:
its callee is a function that takes as many arguments as are given; `out` is given and nothing else
by keyword, and the first `out` receives what is returned. -/
structure CallFits (typeOf : Expr → Deduced) (callee : Expr) (args : List Expr)
    (kwargs : List (String × Expr)) (returns : Ty) : Prop where
  function : ∃ params keywords,
    typeOf callee = some (.function params keywords returns) ∧ args.length = params.length
  keywords : ∀ kv ∈ kwargs, kv.1 = "out"
  out : ∃ out, kwargs.lookup "out" = some out ∧ Receives (typeOf out) returns

/-- What is asked of a node by itself: a known type of a name, and of a call that it is in order. -/
inductive WellFormed (rule : String → Deduced) : Expr → Prop
  | name {site id τ} : rule id = some τ → WellFormed rule (.name site id)
  | call {site callee args kwargs returns} :
      CallFits (typeBy rule) callee args kwargs returns →
      WellFormed rule (.call site callee args kwargs)

/-- What a typed node carries: a name the type of the rule, and a call what its callee returns. -/
inductive TypedBy (rule : String → Deduced) : Expr → Prop
  | name {site id τ} : rule id = some τ → site.ty = some τ → TypedBy rule (.name site id)
  | call {site callee args kwargs params keywords returns} :
      callee.ty = some (.function params keywords returns) → site.ty = some returns →
      TypedBy rule (.call site callee args kwargs)

/-! ## The rule for calls -/

/-- Where all keywords are the same, the first is the one that is found. -/
theorem lookup_of_forall_eq {kwargs : List (String × Expr)} {key : String}
    (h : ∀ kv ∈ kwargs, kv.1 = key) : kwargs.lookup key = kwargs.head?.map Prod.snd := by
  cases kwargs with
  | nil => rfl
  | cons kv kwargs =>
    obtain rfl := h kv List.mem_cons_self
    exact List.lookup_cons_self

/-- Only two complete types that differ keep a result from its place. -/
theorem receives_iff {out : Deduced} {returns : Ty} :
    Receives out returns ↔
      ¬ (Deduced.isComplete out && !returns.isDeferred && out != some returns) = true := by
  cases out with
  | none => simp [Receives, Deduced.isComplete]
  | some τ =>
    simp only [Receives, Deduced.isComplete, Option.mem_some, forall_eq', Option.any_some]
    by_cases heq : τ = returns <;> cases τ.isDeferred <;> cases returns.isDeferred <;> simp [heq]

/-- **The rule for calls** checks that the call is in order. -/
theorem callTy_eq_ok_iff {callee : Expr} {args : List Expr} {kwargs : List (String × Expr)}
    {loc : Location} {returns : Ty} :
    callTy callee.ty args.length kwargs loc = .ok returns ↔
      CallFits Expr.ty callee args kwargs returns := by
  have honly : kwargs.find? (·.1 != "out") = none ↔ ∀ kv ∈ kwargs, kv.1 = "out" := by simp
  unfold callTy
  constructor
  · intro h
    split at h
    swap
    · exact absurd h Typed.fail_ne_ok
    rename_i params keywords returns' hcallee
    split at h
    · exact absurd h Typed.fail_ne_ok
    rename_i harity
    split at h
    · exact absurd h Typed.fail_ne_ok
    rename_i hfind
    split at h
    · exact absurd h Typed.fail_ne_ok
    rename_i key out hhead
    split at h
    · exact absurd h Typed.fail_ne_ok
    rename_i hfits
    obtain rfl := Except.ok.inj h
    have hout : kwargs.lookup "out" = some out := by
      rw [lookup_of_forall_eq (honly.mp hfind), hhead]
      rfl
    exact ⟨⟨params, keywords, hcallee, (not_not.mp harity).symm⟩, honly.mp hfind, out, hout,
      receives_iff.mpr hfits⟩
  · rintro ⟨⟨params, keywords, hcallee, harity⟩, hall, out, hout, hreceives⟩
    rw [lookup_of_forall_eq hall] at hout
    obtain ⟨⟨key, out⟩, hhead, rfl⟩ := Option.map_eq_some_iff.mp hout
    have hfits := receives_iff.mp hreceives
    simp only [hcallee, harity, ne_eq, not_true_eq_false, if_false, honly.mpr hall, hhead]
    rw [if_neg hfits]

/-! ## Acceptance -/

/-- A keyword argument has become one of the same keyword, whose value was deduced. -/
def NamedBecomes (t : Table) (kv kv' : String × Expr) : Prop :=
  ∃ e', deduce t kv.2 = .ok e' ∧ kv' = (kv.1, e')

section Acceptance

variable {t : Table} {site : Site} {callee callee' r : Expr} {args args' : List Expr}
  {kwargs kwargs' : List (String × Expr)}

/-- What a run on a call consists of. -/
theorem deduce_call_iff :
    deduce t (.call site callee args kwargs) = .ok r ↔
      ∃ callee' args' kwargs' returns, deduce t callee = .ok callee' ∧
        List.Forall₂ (fun e e' => deduce t e = .ok e') args args' ∧
        List.Forall₂ (NamedBecomes t) kwargs kwargs' ∧
        CallFits Expr.ty callee' args' kwargs' returns ∧
        r = .call (site.withTy (some returns)) callee' args' kwargs' := by
  rw [deduce_call_eq_ok]
  simp only [deduceAll_eq_ok, deduceNamed_eq_ok, callTy_eq_ok_iff]
  exact Iff.rfl

/-- The type that deduction finds is the one told without it. -/
theorem typeBy_of_deduce {e e' : Expr} (h : e.deduce t = .ok e') : e.typeBy t.typeOf? = e'.ty := by
  induction e using Expr.ind generalizing e' with
  | name site id =>
    obtain ⟨τ, hτ, rfl⟩ := deduce_name_eq_ok.mp h
    exact hτ
  | call site callee args kwargs ihc _ _ =>
    obtain ⟨callee', args', kwargs', returns, hcallee, -, -, hfits, rfl⟩ := deduce_call_iff.mp h
    obtain ⟨params, keywords, hty, -⟩ := hfits.function
    exact typeBy_call ((ihc hcallee).trans hty)

/-- A keyword argument and what it has become are found under the same keyword. -/
theorem lookup_of_forall₂ (h : List.Forall₂ (NamedBecomes t) kwargs kwargs') (key : String) :
    Option.Rel (fun e e' => deduce t e = .ok e') (kwargs.lookup key) (kwargs'.lookup key) := by
  induction h with
  | nil => exact .none
  | @cons kv kv' _ _ hkv _ ih =>
    obtain ⟨e', he', rfl⟩ := hkv
    rw [List.lookup_cons, List.lookup_cons]
    cases key == kv.1 with
    | true => exact .some he'
    | false => exact ih

/-- Whether a call is in order is the same before and after its parts were deduced. -/
theorem callFits_iff {returns : Ty} (hcallee : deduce t callee = .ok callee')
    (hargs : List.Forall₂ (fun e e' => deduce t e = .ok e') args args')
    (hkwargs : List.Forall₂ (NamedBecomes t) kwargs kwargs') :
    CallFits (typeBy t.typeOf?) callee args kwargs returns ↔
      CallFits Expr.ty callee' args' kwargs' returns := by
  have hkeys : kwargs'.map Prod.fst = kwargs.map Prod.fst := by
    apply map_eq_map_of_forall₂
    refine hkwargs.imp ?_
    rintro kv kv' ⟨e', -, rfl⟩
    rfl
  have hkeywords : (∀ kv ∈ kwargs, kv.1 = "out") ↔ ∀ kv' ∈ kwargs', kv'.1 = "out" := by
    have hall : ∀ kvs : List (String × Expr),
        (∀ kv ∈ kvs, kv.1 = "out") ↔ ∀ key ∈ kvs.map Prod.fst, key = "out" :=
      fun kvs => by rw [List.forall_mem_map]
    rw [hall, hall, hkeys]
  have hout : (∃ out, kwargs.lookup "out" = some out ∧ Receives (out.typeBy t.typeOf?) returns) ↔
      ∃ out', kwargs'.lookup "out" = some out' ∧ Receives out'.ty returns := by
    have hfound := lookup_of_forall₂ hkwargs "out"
    generalize kwargs.lookup "out" = found at hfound ⊢
    generalize kwargs'.lookup "out" = found' at hfound ⊢
    cases hfound with
    | none => simp
    | some hd => simp [typeBy_of_deduce hd]
  have hfunction := typeBy_of_deduce hcallee
  have hlength := hargs.length_eq
  constructor
  · rintro ⟨hcall, honly, hreceives⟩
    rw [hfunction, hlength] at hcall
    exact ⟨hcall, hkeywords.mp honly, hout.mp hreceives⟩
  · rintro ⟨hcall, honly, hreceives⟩
    rw [← hfunction, ← hlength] at hcall
    exact ⟨hcall, hkeywords.mpr honly, hout.mpr hreceives⟩

/-- **What was deduced is well formed.** -/
theorem wellFormed_of_deduce {n n' : Expr} (h : n.deduce t = .ok n') : n.WellFormed t.typeOf? := by
  cases n with
  | name site id =>
    obtain ⟨τ, hτ, -⟩ := deduce_name_eq_ok.mp h
    exact .name hτ
  | call site callee args kwargs =>
    obtain ⟨callee', args', kwargs', returns, hcallee, hargs, hkwargs, hfits, -⟩ :=
      deduce_call_iff.mp h
    exact .call ((callFits_iff hcallee hargs hkwargs).mpr hfits)

/-- **An expression whose nodes are all well formed can be deduced.** -/
theorem exists_deduce_of_wellFormed {e : Expr} (h : ∀ n ∈ e.nodes, n.WellFormed t.typeOf?) :
    ∃ e', e.deduce t = .ok e' := by
  induction e using Expr.ind with
  | name site id =>
    cases h _ List.mem_cons_self with
    | name hτ => exact ⟨_, deduce_name_eq_ok.mpr ⟨_, hτ, rfl⟩⟩
  | call site callee args kwargs ihc iha ihk =>
    obtain ⟨hown, hcallee, hargs, hkwargs⟩ := forall_mem_nodes_call.mp h
    obtain ⟨callee', hcallee'⟩ := ihc hcallee
    obtain ⟨args', hargs'⟩ := exists_forall₂_iff.mpr fun e he => iha e he (hargs e he)
    have hnamed : ∃ kwargs', List.Forall₂ (NamedBecomes t) kwargs kwargs' := by
      refine exists_forall₂_iff.mpr ?_
      intro kv hkv
      obtain ⟨e', he'⟩ := ihk kv hkv (hkwargs kv hkv)
      exact ⟨(kv.1, e'), e', he', rfl⟩
    obtain ⟨kwargs', hkwargs'⟩ := hnamed
    cases hown with
    | call hfits =>
      have hfits' := (callFits_iff hcallee' hargs' hkwargs').mp hfits
      exact ⟨_, deduce_call_iff.mpr ⟨callee', args', kwargs', _, hcallee', hargs', hkwargs', hfits',
        rfl⟩⟩

end Acceptance

/-! ## The nodes of a result -/

section Results

variable {t : Table}

/-- Every node of the result was deduced, from the node at the same place of the expression. -/
theorem forall₂_nodes {e e' : Expr} (h : e.deduce t = .ok e') :
    List.Forall₂ (fun n n' => deduce t n = .ok n') e.nodes e'.nodes := by
  induction e using Expr.ind generalizing e' with
  | name site id =>
    obtain ⟨τ, -, rfl⟩ := deduce_name_eq_ok.mp h
    exact .cons h .nil
  | call site callee args kwargs ihc iha ihk =>
    obtain ⟨callee', args', kwargs', returns, hcallee, hargs, hkwargs, -, rfl⟩ :=
      deduce_call_iff.mp h
    refine .cons h (List.rel_append (List.rel_append (ihc hcallee) ?_) ?_)
    · rw [nodesOfAll_eq_flatMap, nodesOfAll_eq_flatMap]
      exact List.rel_flatMap (forall₂_imp_of_mem (fun e he _ => iha e he) hargs) fun _ _ hn => hn
    · rw [nodesOfNamed_eq_flatMap, nodesOfNamed_eq_flatMap]
      refine List.rel_flatMap (forall₂_imp_of_mem ?_ hkwargs) fun _ _ hn => hn
      rintro kv hkv kv' ⟨e', he, rfl⟩
      exact ihk kv hkv he

/-- **What was deduced is deduced to be itself.** -/
theorem deduce_deduced {e e' : Expr} (h : e.deduce t = .ok e') : e'.deduce t = .ok e' := by
  induction e using Expr.ind generalizing e' with
  | name site id =>
    obtain ⟨τ, hτ, rfl⟩ := deduce_name_eq_ok.mp h
    exact deduce_name_eq_ok.mpr ⟨τ, hτ, rfl⟩
  | call site callee args kwargs ihc iha ihk =>
    obtain ⟨callee', args', kwargs', returns, hcallee, hargs, hkwargs, hfits, rfl⟩ :=
      deduce_call_iff.mp h
    have hargs' : ∀ e' ∈ args', deduce t e' = .ok e' := by
      refine forall_mem_of_forall₂ ?_ (forall₂_imp_of_mem (fun e he _ => iha e he) hargs)
      exact fun _ _ he => he
    have hkwargs' : ∀ kv' ∈ kwargs', NamedBecomes t kv' kv' := by
      refine forall_mem_of_forall₂ ?_ ((List.forall₂_and_left _ _).mpr ⟨ihk, hkwargs⟩)
      rintro kv kv' ⟨ih, e', he, rfl⟩
      exact ⟨e', ih he, rfl⟩
    exact deduce_call_iff.mpr ⟨callee', args', kwargs', returns, ihc hcallee,
      List.forall₂_same.mpr hargs', List.forall₂_same.mpr hkwargs', hfits, rfl⟩

/-- A node that was deduced carries the type that it should. -/
theorem typedBy_of_deduce {n n' : Expr} (h : n.deduce t = .ok n') : n'.TypedBy t.typeOf? := by
  cases n with
  | name site id =>
    obtain ⟨τ, hτ, rfl⟩ := deduce_name_eq_ok.mp h
    exact .name hτ rfl
  | call site callee args kwargs =>
    obtain ⟨callee', args', kwargs', returns, -, -, -, hfits, rfl⟩ := deduce_call_iff.mp h
    obtain ⟨params, keywords, hty, -⟩ := hfits.function
    exact .call hty rfl

/-- **An expression is accepted exactly if all its nodes are well formed.** -/
theorem exists_deduce_iff {e : Expr} :
    (∃ e', e.deduce t = .ok e') ↔ ∀ n ∈ e.nodes, n.WellFormed t.typeOf? := by
  constructor
  · rintro ⟨e', h⟩
    intro n hn
    obtain ⟨n', hn'⟩ := exists_forall₂_iff.mp ⟨_, forall₂_nodes h⟩ n hn
    exact wellFormed_of_deduce hn'
  · exact exists_deduce_of_wellFormed

/-- **Deducing an expression changes its types only.** -/
theorem erase_of_deduce {e e' : Expr} (h : e.deduce t = .ok e') : e'.erase = e.erase := by
  induction e using Expr.ind generalizing e' with
  | name site id =>
    obtain ⟨τ, -, rfl⟩ := deduce_name_eq_ok.mp h
    rfl
  | call site callee args kwargs ihc iha ihk =>
    obtain ⟨callee', args', kwargs', returns, hcallee, hargs, hkwargs, -, rfl⟩ :=
      deduce_call_iff.mp h
    have hargs' : eraseAll args' = eraseAll args := by
      rw [eraseAll_eq_map, eraseAll_eq_map]
      exact map_eq_map_of_forall₂ (forall₂_imp_of_mem (fun e he _ => iha e he) hargs)
    have hkwargs' : eraseNamed kwargs' = eraseNamed kwargs := by
      rw [eraseNamed_eq_map, eraseNamed_eq_map]
      refine map_eq_map_of_forall₂ (forall₂_imp_of_mem ?_ hkwargs)
      rintro kv hkv kv' ⟨e', he, rfl⟩
      rw [ihk kv hkv he]
    rw [erase, erase, ihc hcallee, hargs', hkwargs']
    rfl

end Results

end Expr

theorem typeOf?_table (p : Program) : p.table.typeOf? = p.tableTy := by
  funext id
  exact Table.typeOf?_ofSymbols _ _

/-- **A program is accepted exactly if every node of its body is well formed** under its table,
where the last symbol of a name counts. Then each name has the type of the table and each call the
type that its callee returns, which is the type told without deduction; nothing but types has
changed; and deducing a second time changes nothing. -/
theorem deduce_iff_wellFormed (p : Program) :
    ((∃ p', p.deduce = .ok p') ↔ ∀ e ∈ p.body, ∀ n ∈ e.nodes, n.WellFormed p.tableTy) ∧
    ∀ p', p.deduce = .ok p' →
      (∀ e ∈ p'.body, ∀ n ∈ e.nodes, n.TypedBy p.tableTy ∧ n.ty = n.typeBy p.tableTy) ∧
      p' = { p with body := p'.body } ∧ p'.body.map Expr.erase = p.body.map Expr.erase ∧
      p'.deduce = .ok p' := by
  rw [← typeOf?_table]
  constructor
  · calc (∃ p', p.deduce = .ok p')
        ↔ ∃ body', List.Forall₂ (fun e e' => Expr.deduce p.table e = .ok e') p.body body' := by
          simp only [deduce_eq_ok_iff, Expr.deduceAll_eq_ok]
          rw [exists_comm]
          simp
      _ ↔ ∀ e ∈ p.body, ∃ e', e.deduce p.table = .ok e' := exists_forall₂_iff
      _ ↔ ∀ e ∈ p.body, ∀ n ∈ e.nodes, n.WellFormed p.table.typeOf? := by
          simp only [Expr.exists_deduce_iff]
  · intro p' h
    obtain ⟨body', hbody, rfl⟩ := deduce_eq_ok_iff.mp h
    rw [Expr.deduceAll_eq_ok] at hbody
    have hself : ∀ e' ∈ body', e'.deduce p.table = .ok e' := by
      refine forall_mem_of_forall₂ ?_ hbody
      intro e e' he
      exact Expr.deduce_deduced he
    refine ⟨?_, rfl, ?_, ?_⟩
    · intro e he n hn
      have hn' := List.forall₂_same.mp (Expr.forall₂_nodes (hself e he)) n hn
      exact ⟨Expr.typedBy_of_deduce hn', (Expr.typeBy_of_deduce hn').symm⟩
    · exact map_eq_map_of_forall₂ (hbody.imp fun _ _ => Expr.erase_of_deduce)
    · refine deduce_eq_ok_iff.mpr ⟨body', Expr.deduceAll_eq_ok.mpr ?_, rfl⟩
      exact List.forall₂_same.mpr hself

/-- `pick(out=slot)(copy(inp, out=res), out=res, out=flag)`, where `pick` returns a function into
something of unknown type. The captured `pick` hides a parameter of its name. -/
def nestedCalls : Program :=
  let loc : Location := { source := "prog.py", line := 4, column := 5 }
  let field : Ty := .field (.known ["I"]) { kind := .float64 }
  let function : Ty := .function [field] [] field
  let name (id : String) : Expr := .name { loc } id
  let copied : Expr := .call { loc } (name "copy") [name "inp"] [("out", name "res")]
  { id := "nested_calls"
    params := [
      ⟨"pick", some (.scalar { kind := .int32 }), SymbolSpace.local, loc⟩,
      ⟨"inp", some field, SymbolSpace.local, loc⟩,
      ⟨"res", some field, SymbolSpace.local, loc⟩,
      ⟨"slot", some (.deferred none), SymbolSpace.local, loc⟩,
      ⟨"flag", some (.scalar { kind := .bool }), SymbolSpace.local, loc⟩]
    captured := [
      ⟨"copy", some function, SymbolSpace.closure, loc⟩,
      ⟨"pick", some (.function [] [] function), SymbolSpace.closure, loc⟩]
    body := [.call { loc } (.call { loc } (name "pick") [] [("out", name "slot")]) [copied]
      [("out", name "res"), ("out", name "flag")]]
    loc }

/-- All nodes are well formed. The second `out` could not receive the result but is not asked. -/
theorem nestedCalls_wellFormed :
    (∀ e ∈ nestedCalls.body, ∀ n ∈ e.nodes, n.WellFormed nestedCalls.tableTy) ∧
      ∃ p', nestedCalls.deduce = .ok p' ∧
        p'.body.map Expr.ty = [some (.field (.known ["I"]) { kind := .float64 })] ∧
        (∀ e ∈ p'.body, ∀ n ∈ e.nodes,
          n.TypedBy nestedCalls.tableTy ∧ n.ty = n.typeBy nestedCalls.tableTy) ∧
        p'.body.map Expr.erase = nestedCalls.body.map Expr.erase ∧ p'.deduce = .ok p' := by
  have hok : ∃ p', nestedCalls.deduce = .ok p' ∧
      p'.body.map Expr.ty = [some (.field (.known ["I"]) { kind := .float64 })] := ⟨_, rfl, rfl⟩
  obtain ⟨p', h, hty⟩ := hok
  obtain ⟨hiff, hresult⟩ := deduce_iff_wellFormed nestedCalls
  obtain ⟨htyped, -, herase, hagain⟩ := hresult p' h
  exact ⟨hiff.mp ⟨p', h⟩, p', h, hty, htyped, herase, hagain⟩

end Program

end FieldView
