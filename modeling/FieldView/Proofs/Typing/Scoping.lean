import FieldView.Proofs.Typing.Calls
import FieldView.Proofs.Typing.Erasure

/-!
# Which declaration a name means

Deduction keeps one table, of which the latest entry counts. So a name has the type of the value last
assigned to it in a statement before; and where there is none, the type of the symbol declared last
under this name anywhere in the operator, be that in a statement still to come (`tableTy`). In a
program nothing is assigned, and the symbol declared last counts.

This is not lexical scoping (`lexicalTy`), where parameters go before captured symbols and later
statements do not matter. A captured symbol hides a parameter of its name, as in `hiddenParam`, and
the target of a later assignment hides both, as in `laterAssigned`. The two rules agree on every name
that was assigned before, and on every name that nothing assigns to and that is not a parameter and
captured or imported as well (`Operator.Unhidden`).
-/

set_option autoImplicit false

namespace FieldView

/-! ## Tables -/

/-- The symbol declared last under a name. -/
def lastDeclared? (symbols : List Symbol) (id : String) : Option Symbol :=
  symbols.reverse.find? fun s => s.id == id

theorem lastDeclared?_append (before after : List Symbol) (id : String) :
    lastDeclared? (before ++ after) id =
      (lastDeclared? after id).or (lastDeclared? before id) := by
  unfold lastDeclared?
  rw [List.reverse_append, List.find?_append]

namespace Table

theorem lookup_map_symbols (symbols : List Symbol) (id : String) :
    (symbols.map fun s => (s.id, s.ty)).lookup id =
      (symbols.find? fun s => s.id == id).map Symbol.ty := by
  induction symbols with
  | nil => rfl
  | cons s rest ih =>
    by_cases hs : s.id = id
    · simp [hs]
    · have hs' : (id == s.id) = false := by simpa using Ne.symm hs
      simp [List.lookup_cons, hs, hs', ih]

/-- In the table of some symbols the one declared last counts. -/
theorem typeOf?_ofSymbols (symbols : List Symbol) (id : String) :
    (ofSymbols symbols).typeOf? id = (lastDeclared? symbols id).bind Symbol.ty := by
  unfold typeOf? ofSymbols lastDeclared?
  rw [← List.map_reverse, lookup_map_symbols]
  cases symbols.reverse.find? fun s => s.id == id with
  | none => rfl
  | some s => rfl

theorem typeOf?_declare (t : Table) (id id' : String) (ty : Deduced) :
    (t.declare id ty).typeOf? id' = if id = id' then ty else t.typeOf? id' := by
  unfold typeOf? declare
  by_cases h : id = id'
  · simp [h]
  · have h' : (id' == id) = false := by simpa using Ne.symm h
    simp [List.lookup_cons, h, h']

end Table

/-- Among parameters and other symbols, the symbol that a name means where parameters go first. -/
def lexical? (params others : List Symbol) (id : String) : Option Symbol :=
  (lastDeclared? params id).or (lastDeclared? others id)

/-- The last declaration is the lexical one if the name is not declared on both sides. -/
theorem lexical?_eq_lastDeclared? {params others : List Symbol} {id : String}
    (h : lastDeclared? params id = none ∨ lastDeclared? others id = none) :
    lexical? params others id = lastDeclared? (params ++ others) id := by
  unfold lexical?
  rw [lastDeclared?_append]
  rcases h with h | h
  · simp [h]
  · simp [h]

namespace Operator

/-! ## Assignments and imports -/

/-- The value that a statement assigns to a name. -/
def Stmt.assigned? (id : String) : Stmt → Option Expr
  | assign target value _ => if target.id = id then some value else none
  | _ => none

/-- The symbols that a statement imports. -/
def Stmt.imported : Stmt → List Symbol
  | importSymbols symbols _ => symbols
  | _ => []

/-- The value that some statements assign to a name last. -/
def lastAssigned? (body : List Stmt) (id : String) : Option Expr :=
  body.reverse.findSome? (Stmt.assigned? id)

theorem lastAssigned?_snoc (body : List Stmt) (s : Stmt) (id : String) :
    lastAssigned? (body ++ [s]) id = (s.assigned? id).or (lastAssigned? body id) := by
  unfold lastAssigned?
  rw [List.reverse_append, List.reverse_singleton, List.singleton_append, List.findSome?_cons]
  cases s.assigned? id with
  | none => rfl
  | some value => rfl

/-- Where nothing assigns to a name, the body declares it by imports only. -/
theorem lastDeclared?_body {body : List Stmt} {id : String}
    (h : ∀ s ∈ body, s.assigned? id = none) :
    lastDeclared? (body.flatMap Stmt.declares) id =
      lastDeclared? (body.flatMap Stmt.imported) id := by
  induction body with
  | nil => rfl
  | cons s rest ih =>
    have hs := h s List.mem_cons_self
    have hrest := ih fun s' hs' => h s' (List.mem_cons_of_mem _ hs')
    rw [List.flatMap_cons, List.flatMap_cons, lastDeclared?_append, lastDeclared?_append, hrest]
    cases s with
    | assign target value loc =>
      have hid : target.id ≠ id := by simpa [Stmt.assigned?] using hs
      simp [Stmt.declares, Stmt.imported, lastDeclared?, hid]
    | ret value loc => rfl
    | importSymbols symbols loc => rfl

/-! ## The two rules -/

/-- What a name is taken to be after some statements: the value assigned last, and else the symbol
that the operator declares last. -/
def tableTy (op : Operator) (before : List Stmt) (id : String) : Deduced :=
  (lastAssigned? before id).elim ((lastDeclared? op.declarations id).bind Symbol.ty) Expr.ty

/-- What a name means lexically: the value assigned last, else the parameter, and else the captured
or imported symbol. -/
def lexicalTy (op : Operator) (before : List Stmt) (id : String) : Deduced :=
  (lastAssigned? before id).elim
    ((lexical? op.params (op.captured ++ op.body.flatMap Stmt.imported) id).bind Symbol.ty) Expr.ty

/-- The name was assigned before, or nothing assigns to it and it is not a parameter and captured or
imported as well. -/
def Unhidden (op : Operator) (before : List Stmt) (id : String) : Prop :=
  lastAssigned? before id ≠ none ∨
    (∀ s ∈ op.body, s.assigned? id = none) ∧
      (lastDeclared? op.params id = none ∨
        lastDeclared? (op.captured ++ op.body.flatMap Stmt.imported) id = none)

theorem Unhidden.tableTy_eq {op : Operator} {before : List Stmt} {id : String}
    (h : op.Unhidden before id) : op.tableTy before id = op.lexicalTy before id := by
  unfold tableTy lexicalTy
  rcases h with hassigned | ⟨hfree, honce⟩
  · obtain ⟨value, hvalue⟩ := Option.ne_none_iff_exists'.mp hassigned
    rw [hvalue]
    rfl
  · have hdeclared : lastDeclared? op.declarations id =
        lexical? op.params (op.captured ++ op.body.flatMap Stmt.imported) id := by
      rw [lexical?_eq_lastDeclared? honce]
      unfold declarations
      simp only [lastDeclared?_append, lastDeclared?_body hfree, Option.or_assoc]
    rw [hdeclared]

theorem tableTy_snoc (op : Operator) (before : List Stmt) (s : Stmt) (id : String) :
    op.tableTy (before ++ [s]) id = (s.assigned? id).elim (op.tableTy before id) Expr.ty := by
  unfold tableTy
  rw [lastAssigned?_snoc]
  cases s.assigned? id with
  | none => rfl
  | some value => rfl

/-! ## Occurrences of names -/

/-- The occurrence that an expression consists of. -/
def Expr.occurrence? : Expr → Option (Site × String)
  | name site id => some (site, id)
  | _ => none

/-- Where names occur in a statement, from left to right. -/
def Stmt.occurrences (s : Stmt) : List (Site × String) := s.nodes.filterMap Expr.occurrence?

/-- A name gets the type that the table has for it, and nothing else becomes a name. -/
theorem Expr.BecomesUnder.occurrence? {t : Table} {n n' : Expr} (h : BecomesUnder t n n') :
    Option.Rel (GivenBy t.typeOf?) n.occurrence? n'.occurrence? := by
  obtain ⟨inShift, hd⟩ := h
  have herase := erase_of_deduce hd
  cases n with
  | name site id =>
    obtain ⟨τ, hτ, rfl⟩ := deduce_name_eq_ok.mp hd
    exact .some ⟨τ, hτ, rfl⟩
  | _ =>
    cases n' with
    | name _ _ => simp [erase] at herase
    | _ => exact .none

theorem Expr.occurrences_of_deduce {t : Table} {inShift : Bool} {e e' : Expr}
    (h : e.deduce t inShift = .ok e') :
    List.Forall₂ (GivenBy t.typeOf?) (e.nodes.filterMap Expr.occurrence?)
      (e'.nodes.filterMap Expr.occurrence?) :=
  List.rel_filterMap (fun _ _ hn => hn.occurrence?) (forall₂_nodes h)

/-- One statement: its names have the types of the table, and the table after it has the type of the
value for what it assigns to. -/
theorem Stmt.occurrences_of_deduce {t t' : Table} {s s' : Stmt} (hs : OnlyLiterals s.nodes)
    (h : s.deduce t = .ok (s', t')) :
    List.Forall₂ (GivenBy t.typeOf?) s.occurrences s'.occurrences ∧
      ∀ id, t'.typeOf? id = (s'.assigned? id).elim (t.typeOf? id) Expr.ty := by
  cases s with
  | assign target value loc =>
    obtain ⟨value', τ, hvalue, hτ, -, heq⟩ := deduce_assign_eq_ok.mp h
    cases heq
    refine ⟨Expr.occurrences_of_deduce ((settles_iff_deduce hs).mp hvalue), ?_⟩
    intro id
    rw [Table.typeOf?_declare]
    by_cases hid : target.id = id
    · simp [assigned?, hid, hτ]
    · simp [assigned?, hid]
  | ret value loc =>
    obtain ⟨value', hvalue, heq⟩ := deduce_ret_eq_ok.mp h
    cases heq
    exact ⟨Expr.occurrences_of_deduce hvalue, fun id => rfl⟩
  | importSymbols symbols loc =>
    cases deduce_importSymbols_eq_ok.mp h
    exact ⟨.nil, fun id => rfl⟩

/-- A run: under a table that stands for the statements done so far, every statement sees the
assignments of those before it. -/
theorem occurrences_of_deduceBody {op : Operator} {t : Table} {before body body' : List Stmt}
    (ht : t.typeOf? = op.tableTy before) (hbody : ∀ s ∈ body, OnlyLiterals s.nodes)
    (h : deduceBody t body = .ok body') {k : Nat} {s : Stmt} (hk : body[k]? = some s) :
    ∃ s', body'[k]? = some s' ∧ List.Forall₂ (GivenBy (op.tableTy (before ++ body'.take k)))
      s.occurrences s'.occurrences := by
  induction body generalizing t before body' k with
  | nil => simp at hk
  | cons s₀ rest ih =>
    obtain ⟨s₀', t', rest', hs, hrest, rfl⟩ := deduceBody_cons_eq_ok.mp h
    obtain ⟨hocc, htable⟩ := Stmt.occurrences_of_deduce (hbody _ List.mem_cons_self) hs
    cases k with
    | zero =>
      obtain rfl : s₀ = s := by simpa using hk
      rw [ht] at hocc
      exact ⟨s₀', rfl, by simpa using hocc⟩
    | succ k =>
      have ht' : t'.typeOf? = op.tableTy (before ++ [s₀']) := by
        funext id
        rw [htable, tableTy_snoc, ht]
      have hrestLiterals : ∀ s ∈ rest, OnlyLiterals s.nodes :=
        fun s hm => hbody s (List.mem_cons_of_mem _ hm)
      obtain ⟨s', hs', hocc'⟩ := ih ht' hrestLiterals hrest (by simpa using hk)
      refine ⟨s', by simpa using hs', ?_⟩
      rwa [List.take_succ_cons, List.append_cons]

end Operator

namespace Program

/-- What a name is taken to be in a program: the symbol declared last. -/
def tableTy (p : Program) (id : String) : Deduced :=
  (lastDeclared? (p.params ++ p.captured) id).bind Symbol.ty

/-- What a name means lexically in a program: the parameter, and else the captured symbol. -/
def lexicalTy (p : Program) (id : String) : Deduced :=
  (lexical? p.params p.captured id).bind Symbol.ty

end Program

/-- `return a`, where `a` is a parameter and captured as well. -/
def hiddenParam : Operator :=
  let loc : Location := { source := "ops.py", line := 1, column := 1 }
  { id := "hidden_param"
    params := [⟨"a", some (.scalar { kind := .int32 }), SymbolSpace.local, loc⟩]
    captured := [⟨"a", some (.scalar { kind := .float64 }), SymbolSpace.closure, loc⟩]
    body := [.ret (.name { loc } "a") loc]
    loc }

/-- The parameter does not shadow the captured symbol; it is the other way round. -/
theorem hiddenParam_not_lexical :
    hiddenParam.OnlyLiteralsTyped ∧
      hiddenParam.lexicalTy [] "a" = some (.scalar { kind := .int32 }) ∧
      ∃ op', hiddenParam.deduce = .ok op' ∧
        (op'.body.flatMap Operator.Stmt.occurrences).map (fun o => (o.2, o.1.ty)) =
          [("a", some (.scalar { kind := .float64 }))] :=
  ⟨by decide, rfl, _, rfl, rfl⟩

/-- **The type of every name.** In an operator whose literals alone carry types, and in a program, an
occurrence of a name gets the type that `tableTy` says. It is the lexical type wherever the name is
not hidden. -/
theorem occurrence_types :
    (∀ op op' : Operator, op.OnlyLiteralsTyped → op.deduce = .ok op' →
      ∀ k s, op.body[k]? = some s → ∃ s', op'.body[k]? = some s' ∧
        List.Forall₂ (GivenBy (op.tableTy (op'.body.take k))) s.occurrences s'.occurrences ∧
        ∀ id, op.Unhidden (op'.body.take k) id →
          op.tableTy (op'.body.take k) id = op.lexicalTy (op'.body.take k) id) ∧
    (∀ p p' : Program, p.deduce = .ok p' →
      List.Forall₂ (fun e e' => List.Forall₂ (GivenBy p.tableTy)
        (Program.Expr.occurrences e) (Program.Expr.occurrences e')) p.body p'.body ∧
      ∀ id, lastDeclared? p.params id = none ∨ lastDeclared? p.captured id = none →
        p.tableTy id = p.lexicalTy id) := by
  constructor
  · intro op op' hop h k s hk
    obtain ⟨body', hbody, rfl⟩ := Operator.deduce_eq_ok_iff.mp h
    have ht : (Table.ofSymbols op.declarations).typeOf? = op.tableTy [] := by
      funext id
      exact Table.typeOf?_ofSymbols _ _
    obtain ⟨s', hs', hocc⟩ := Operator.occurrences_of_deduceBody ht hop hbody hk
    exact ⟨s', hs', hocc, fun id hid => hid.tableTy_eq⟩
  · intro p p' h
    obtain ⟨body', hbody, rfl⟩ := Program.deduce_eq_ok_iff.mp h
    have ht : p.table.typeOf? = p.tableTy := by
      funext id
      exact Table.typeOf?_ofSymbols _ _
    constructor
    · refine (Program.Expr.deduceAll_eq_ok.mp hbody).imp ?_
      intro e e' he
      rw [← ht]
      exact Program.Expr.occurrences_of_deduce he
    · intro id hid
      unfold Program.tableTy Program.lexicalTy
      rw [lexical?_eq_lastDeclared? hid]

/-- `b = x`, then `x = 2.0` and `return (b, x)`, for an integer parameter `x`. Nothing is known of the
second `x` before its assignment. -/
def laterAssigned : Operator :=
  let loc : Location := { source := "ops.py", line := 1, column := 1 }
  let untyped : Site := { loc }
  let float : Site := { loc, ty := some (.scalar { kind := .float64 }) }
  { id := "later_assigned"
    params := [⟨"x", some (.scalar { kind := .int32 }), SymbolSpace.local, loc⟩]
    captured := []
    body := [
      .assign ⟨"b", none, SymbolSpace.local, loc⟩ (.name untyped "x") loc,
      .assign ⟨"x", some (.deferred none), SymbolSpace.local, loc⟩ (.const float "2.0") loc,
      .ret (.tuple untyped [.name untyped "b", .name untyped "x"]) loc]
    loc }

/-- The first use of `x` sees the symbol of the assignment after it, the last one sees the value. -/
theorem laterAssigned_occurrences :
    laterAssigned.OnlyLiteralsTyped ∧ ∃ op', laterAssigned.deduce = .ok op' ∧
      (op'.body.flatMap Operator.Stmt.occurrences).map (fun o => (o.2, o.1.ty)) =
        [("x", some (.deferred none)), ("b", some (.deferred none)),
          ("x", some (.scalar { kind := .float64 }))] ∧
      ∀ k s, laterAssigned.body[k]? = some s → ∃ s', op'.body[k]? = some s' ∧
        List.Forall₂ (GivenBy (laterAssigned.tableTy (op'.body.take k)))
          s.occurrences s'.occurrences := by
  have honly : laterAssigned.OnlyLiteralsTyped := by decide
  have hok : ∃ op', laterAssigned.deduce = .ok op' ∧
      (op'.body.flatMap Operator.Stmt.occurrences).map (fun o => (o.2, o.1.ty)) =
        [("x", some (.deferred none)), ("b", some (.deferred none)),
          ("x", some (.scalar { kind := .float64 }))] := ⟨_, rfl, rfl⟩
  obtain ⟨op', h, htypes⟩ := hok
  refine ⟨honly, op', h, htypes, ?_⟩
  intro k s hk
  obtain ⟨s', hs', hocc, -⟩ := occurrence_types.1 laterAssigned op' honly h k s hk
  exact ⟨s', hs', hocc⟩

end FieldView
