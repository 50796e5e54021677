import FieldView.Proofs.Closure.Route
import FieldView.Proofs.Text.Fresh
import FieldView.Proofs.Toolchain.Lowering
import FieldView.Proofs.Typing.CallTrees

/-!
# The program around an operator

The program around an operator has one parameter for each of the operator's, under a generated name,
and one more that takes the result. Its body is one call. Generated names differ from each other and
from every other name in play, so in the program each of them has the type it was declared with.

One name is not generated: that of the result. If the operator itself is called so, the captured
operator hides the parameter, and the call sends its result to a function. Deduction refuses that
unless the type of the result is deferred (`HidesResult`), and it refuses nothing else
(`deduce_untypedWrapper`). So an operator has a program around it exactly if none of its parameters
and not the operator itself is in the way (`asProgram_outcome`), and the program is then the
intended one (`asProgram_faithful`).
-/

set_option autoImplicit false

namespace FieldView

variable {σ : Type}

/-- Where no two symbols have the same name, each one is the last of its name. -/
theorem lastDeclared?_of_nodup {symbols : List Symbol} (h : (symbols.map Symbol.id).Nodup)
    {s : Symbol} (hs : s ∈ symbols) : lastDeclared? symbols s.id = some s := by
  unfold lastDeclared?
  cases hfind : symbols.reverse.find? fun s' => s'.id == s.id with
  | none =>
    have := List.find?_eq_none.mp hfind s (List.mem_reverse.mpr hs)
    simp at this
  | some s' =>
    have hmem : s' ∈ symbols := List.mem_reverse.mp (List.mem_of_find?_eq_some hfind)
    have hid : s'.id = s.id := by simpa using List.find?_some hfind
    rw [List.inj_on_of_nodup_map h hmem hs hid]

theorem lastDeclared?_singleton (s : Symbol) (id : String) :
    lastDeclared? [s] id = if s.id = id then some s else none := by
  by_cases h : s.id = id
  · simp [lastDeclared?, h]
  · simp [lastDeclared?, h]

/-- A function does not return its own type. -/
theorem Signature.toTy_ne_returns (s : Signature) : s.toTy ≠ s.returns := by
  intro h
  have hsize := congrArg sizeOf h
  simp only [toTy, Ty.function.sizeOf_spec] at hsize
  omega

/-! ## One call -/

namespace Program

section Call

variable {t : Table} {site : Site} {callee callee' : Expr} {args args' : List Expr}
  {kwargs kwargs' : List (String × Expr)}

/-- Once its parts are deduced, a call is a matter of its own rule. -/
theorem Expr.deduce_call_of_parts (hcallee : deduce t callee = .ok callee')
    (hargs : deduceAll t args = .ok args') (hkwargs : deduceNamed t kwargs = .ok kwargs') :
    deduce t (.call site callee args kwargs) =
      (callTy callee'.ty args'.length kwargs' site.loc).map fun τ =>
        .call (site.withTy (some τ)) callee' args' kwargs' := by
  rw [deduce, hcallee, hargs, hkwargs]
  show (callTy callee'.ty args'.length kwargs' site.loc >>= fun τ => pure _) = _
  cases callTy callee'.ty args'.length kwargs' site.loc with
  | error e => rfl
  | ok τ => rfl

theorem Expr.deduceAll_names {ids : List String} {types : List Ty} (loc : Location)
    (h : List.Forall₂ (fun id τ => t.typeOf? id = some τ) ids types) :
    deduceAll t (ids.map fun id => .name { loc } id) =
      .ok ((ids.zip types).map fun pair => .name { loc, ty := some pair.2 } pair.1) := by
  rw [deduceAll_eq_ok]
  induction h with
  | nil => exact .nil
  | cons hid _ ih => exact .cons (deduce_name_eq_ok.mpr ⟨_, hid, rfl⟩) ih

/-- A call with nothing but `out` by keyword is refused for where its result goes only. -/
theorem callTy_out (s : Signature) (out : Expr) (loc : Location) :
    (Expr.Receives out.ty s.returns →
      callTy (some s.toTy) s.args.length [("out", out)] loc = .ok s.returns) ∧
    (¬ Expr.Receives out.ty s.returns →
      callTy (some s.toTy) s.args.length [("out", out)] loc =
        Typed.fail (.outMismatch out.name? s.returns out.ty) out.loc) := by
  have hcall : callTy (some s.toTy) s.args.length [("out", out)] loc =
      if (Deduced.isComplete out.ty && !s.returns.isDeferred && out.ty != some s.returns) = true
      then Typed.fail (.outMismatch out.name? s.returns out.ty) out.loc
      else .ok s.returns := by
    simp [callTy, Signature.toTy]
  rw [hcall, Expr.receives_iff, not_not]
  exact ⟨fun h => if_neg h, fun h => if_pos h⟩

/-- A program of one statement. -/
theorem deduce_of_body {p : Program} {e : Expr} (h : p.body = [e]) :
    p.deduce = (e.deduce p.table).map fun e' => { p with body := [e'] } := by
  unfold deduce
  rw [h, Expr.deduceAll, Expr.deduceAll]
  cases e.deduce p.table with
  | error err => rfl
  | ok e' => rfl

end Call

end Program

namespace OperatorUnit

open Text (NameSupply)

/-! ## Names -/

theorem length_args_signature (u : OperatorUnit) :
    u.signature.args.length = u.node.params.length := by
  simp [signature]

/-- The numbers of the generated names. -/
theorem exists_numbers (u : OperatorUnit) :
    ∃ ks after, ks.length = u.node.params.length ∧
      u.wrapperNames = ks.map (NameSupply.nameAt { stem := "__sym" }) ∧
      NameSupply.Draws { stem := "__sym" } u.takenNames ks after := by
  obtain ⟨ks, hlength, hnames, hdraws⟩ :=
    NameSupply.freshMany_draws { stem := "__sym" } u.takenNames u.signature.args.length
  exact ⟨ks, _, hlength.trans u.length_args_signature, hnames, hdraws⟩

theorem length_wrapperNames (u : OperatorUnit) :
    u.wrapperNames.length = u.signature.args.length := by
  obtain ⟨ks, after, hlength, hnames, -⟩ := u.exists_numbers
  rw [hnames, List.length_map, hlength, length_args_signature]

theorem nodup_wrapperNames (u : OperatorUnit) : u.wrapperNames.Nodup := by
  obtain ⟨ks, after, -, hnames, hdraws⟩ := u.exists_numbers
  rw [hnames]
  exact hdraws.nodup_map

theorem notMem_takenNames {u : OperatorUnit} {id : String} (h : id ∈ u.wrapperNames) :
    id ∉ u.takenNames := by
  obtain ⟨ks, after, -, hnames, hdraws⟩ := u.exists_numbers
  rw [hnames] at h
  exact hdraws.notMem_map id h

theorem mem_takenNames {u : OperatorUnit} {id : String} :
    id ∈ u.takenNames ↔ id = u.name ∨ id = resultName ∨ id ∈ u.captured.all := by
  rw [takenNames, List.mem_cons, List.mem_cons, Std.TreeMap.mem_keys]

/-! ## Types of names -/

/-- A parameter of the program. -/
def wrapperParam (u : OperatorUnit) (id : String) (τ : Ty) : Symbol :=
  { id, ty := some τ, space := .local, loc := u.node.loc }

theorem map_fst_zip_args (u : OperatorUnit) :
    (u.wrapperNames.zip u.signature.args).map Prod.fst = u.wrapperNames :=
  List.map_fst_zip (Nat.le_of_eq u.length_wrapperNames)

theorem params_untypedWrapper (u : OperatorUnit) :
    u.untypedWrapper.params =
      (u.wrapperNames.zip u.signature.args).map (fun pair => u.wrapperParam pair.1 pair.2) ++
        [u.wrapperParam resultName u.signature.returns] := rfl

theorem map_id_params (u : OperatorUnit) :
    u.untypedWrapper.params.map Symbol.id = u.wrapperNames ++ [resultName] := by
  rw [params_untypedWrapper, List.map_append, List.map_map]
  exact congrArg (· ++ [resultName]) u.map_fst_zip_args

/-- The names of the parameters differ. -/
theorem nodup_params (u : OperatorUnit) : (u.untypedWrapper.params.map Symbol.id).Nodup := by
  rw [map_id_params, List.nodup_append_comm, List.singleton_append, List.nodup_cons]
  refine ⟨?_, u.nodup_wrapperNames⟩
  intro h
  exact notMem_takenNames h (mem_takenNames.mpr (.inr (.inl rfl)))

theorem captured_untypedWrapper (u : OperatorUnit) :
    u.untypedWrapper.captured =
      [{ id := u.name, ty := some u.signature.toTy, space := .closure, loc := u.node.loc }] := rfl

theorem tableTy_name (u : OperatorUnit) :
    u.untypedWrapper.tableTy u.name = some u.signature.toTy := by
  unfold Program.tableTy
  rw [lastDeclared?_append, captured_untypedWrapper, lastDeclared?_singleton, if_pos rfl]
  rfl

/-- A parameter is hidden by nothing but the operator. -/
theorem tableTy_param {u : OperatorUnit} {id : String} {τ : Ty}
    (hparam : u.wrapperParam id τ ∈ u.untypedWrapper.params) (hne : id ≠ u.name) :
    u.untypedWrapper.tableTy id = some τ := by
  have hlast : lastDeclared? u.untypedWrapper.params id = some (u.wrapperParam id τ) :=
    lastDeclared?_of_nodup u.nodup_params hparam
  unfold Program.tableTy
  rw [lastDeclared?_append, captured_untypedWrapper, lastDeclared?_singleton,
    if_neg (Ne.symm hne), hlast]
  rfl

/-- **Each generated name has the type of its argument.** -/
theorem forall₂_tableTy (u : OperatorUnit) :
    List.Forall₂ (fun id τ => u.untypedWrapper.tableTy id = some τ) u.wrapperNames
      u.signature.args := by
  refine List.forall₂_iff_zip.mpr ⟨u.length_wrapperNames, ?_⟩
  intro id τ h
  refine tableTy_param ?_ ?_
  · exact List.mem_append_left _ (List.mem_map.mpr ⟨(id, τ), h, rfl⟩)
  · intro hname
    exact notMem_takenNames (List.of_mem_zip h).1 (mem_takenNames.mpr (.inl hname))

/-- What the name of the result stands for in the program: the operator, if it has that name, and
else the parameter. -/
def resultTy (u : OperatorUnit) : Ty :=
  if u.name = resultName then u.signature.toTy else u.signature.returns

theorem tableTy_result (u : OperatorUnit) :
    u.untypedWrapper.tableTy resultName = some u.resultTy := by
  unfold resultTy
  by_cases h : u.name = resultName
  · rw [if_pos h, ← h, tableTy_name]
  · rw [if_neg h]
    exact tableTy_param (List.mem_append_right _ List.mem_cons_self) (Ne.symm h)

/-! ## Deduction -/

/-- The name of the result, where the call sends it. -/
def resultExpr (u : OperatorUnit) : Program.Expr :=
  .name { loc := u.node.loc, ty := some u.resultTy } resultName

/-- The call in the program, with a type and with those of its parts. -/
def wrapperCall (u : OperatorUnit) (τ : Ty) : Program.Expr :=
  let loc := u.node.loc
  .call { loc, ty := some τ } (.name { loc, ty := some u.signature.toTy } u.name)
    ((u.wrapperNames.zip u.signature.args).map fun pair =>
      .name { loc, ty := some pair.2 } pair.1)
    [(resultName, u.resultExpr)]

/-- The operator has the name of the result, and the type of the result is known. -/
def HidesResult (u : OperatorUnit) : Prop :=
  u.name = resultName ∧ u.signature.returns.isDeferred = false

instance (u : OperatorUnit) : Decidable u.HidesResult := inferInstanceAs (Decidable (_ ∧ _))

/-- What is said of an operator that hides the result: `out` is a function, where the result was
expected. -/
def hiddenResult (u : OperatorUnit) : TypingError where
  fault := .outMismatch (some "out") u.signature.returns (some u.signature.toTy)
  loc := u.node.loc

/-- The result cannot go where it is sent exactly if the operator hides the place. -/
theorem hidesResult_iff (u : OperatorUnit) :
    u.HidesResult ↔ ¬ Program.Expr.Receives (some u.resultTy) u.signature.returns := by
  unfold HidesResult resultTy Program.Expr.Receives
  by_cases h : u.name = resultName
  · have hne := u.signature.toTy_ne_returns
    have hknown : u.signature.toTy.isDeferred = false := rfl
    simp [h, hne, hknown]
  · simp [h]

theorem deduce_name {u : OperatorUnit} {id : String} {τ : Ty}
    (h : u.untypedWrapper.tableTy id = some τ) (loc : Location) :
    Program.Expr.deduce u.untypedWrapper.table (.name { loc } id) =
      .ok (.name { loc, ty := some τ } id) := by
  rw [← Program.typeOf?_table] at h
  exact Program.Expr.deduce_name_eq_ok.mpr ⟨τ, h, rfl⟩

/-- The parts of the call are all deduced, and what is left is the rule for calls. -/
theorem deduce_eq_callTy (u : OperatorUnit) :
    u.untypedWrapper.deduce =
      (Program.callTy (some u.signature.toTy) u.signature.args.length [(resultName, u.resultExpr)]
        u.node.loc).map fun τ => { u.untypedWrapper with body := [u.wrapperCall τ] } := by
  let loc := u.node.loc
  let args : List Program.Expr :=
    (u.wrapperNames.zip u.signature.args).map fun pair => .name { loc, ty := some pair.2 } pair.1
  have hargs : Program.Expr.deduceAll u.untypedWrapper.table
      (u.wrapperNames.map fun id => .name { loc } id) = .ok args := by
    refine Program.Expr.deduceAll_names loc ?_
    rw [Program.typeOf?_table]
    exact u.forall₂_tableTy
  have hkwargs : Program.Expr.deduceNamed u.untypedWrapper.table
      [(resultName, .name { loc } resultName)] = .ok [(resultName, u.resultExpr)] :=
    Program.Expr.deduceNamed_eq_ok.mpr (.cons ⟨_, deduce_name u.tableTy_result loc, rfl⟩ .nil)
  have hlength : args.length = u.signature.args.length := by
    rw [List.length_map, List.length_zip, length_wrapperNames, Nat.min_self]
  rw [Program.deduce_of_body rfl,
    Program.Expr.deduce_call_of_parts (deduce_name u.tableTy_name loc) hargs hkwargs, hlength]
  show Except.map _ (Except.map _ (Program.callTy (some u.signature.toTy) _ _ loc)) = _
  cases Program.callTy (some u.signature.toTy) u.signature.args.length
      [(resultName, u.resultExpr)] loc with
  | error e => rfl
  | ok τ => rfl

/-- **Deduction fails for an operator that hides the result, and for no other.** -/
theorem deduce_untypedWrapper (u : OperatorUnit) :
    u.untypedWrapper.deduce =
      if u.HidesResult then .error u.hiddenResult
      else .ok { u.untypedWrapper with body := [u.wrapperCall u.signature.returns] } := by
  obtain ⟨haccepted, hrefused⟩ := Program.callTy_out u.signature u.resultExpr u.node.loc
  rw [deduce_eq_callTy]
  by_cases h : u.HidesResult
  · have hresult : u.resultTy = u.signature.toTy := if_pos h.1
    rw [if_pos h, resultName, hrefused (u.hidesResult_iff.mp h), hiddenResult, ← hresult]
    rfl
  · have hreceives := not_not.mp (mt u.hidesResult_iff.mpr h)
    rw [if_neg h, resultName, haccepted hreceives]
    rfl

/-! ## The program -/

theorem wrapper_of_reserved {u : OperatorUnit} (h : ∃ s ∈ u.node.params, s.id = resultName) :
    u.wrapper = .error (.closure (.reservedParameter u.name)) := by
  have hany : u.node.params.any (·.id == resultName) = true := by simpa using h
  simp [wrapper, hany]

theorem wrapper_of_not_reserved {u : OperatorUnit} (h : ∀ s ∈ u.node.params, s.id ≠ resultName) :
    u.wrapper =
      if u.HidesResult then .error (.typing u.hiddenResult)
      else .ok { u.untypedWrapper with body := [u.wrapperCall u.signature.returns] } := by
  have hany : u.node.params.any (·.id == resultName) = false := by simpa using h
  unfold wrapper
  rw [hany, deduce_untypedWrapper]
  by_cases hhides : u.HidesResult
  · simp [hhides]
  · simp [hhides]

theorem asProgram_of_error {u : OperatorUnit} {e : Error} (h : u.wrapper = .error e)
    (b : Bench σ) : (u.asProgram : Task σ ProgramUnit) b = (.error e, b) := by
  unfold asProgram
  rw [h]
  rfl

/-- The program is put together, and the operator and a place for the fencil put on the bench. -/
theorem asProgram_of_ok {u : OperatorUnit} {node : Program} (h : u.wrapper = .ok node)
    (b : Bench σ) :
    (u.asProgram : Task σ ProgramUnit) b =
      (.ok { node, captured := u.wrapperEnvironment b.callables.length, externals := u.externals,
             backend := u.backend, fencil := b.fencils.length },
        { b with callables := b.callables ++ [.operator u], fencils := b.fencils ++ [none] }) := by
  unfold asProgram
  rw [h]
  rfl

/-- What a program around an operator looks like, whatever the bench. -/
theorem node_of_asProgram {u : OperatorUnit} {b b' : Bench σ} {p : ProgramUnit}
    (h : u.asProgram b = (.ok p, b')) :
    p.node = { u.untypedWrapper with body := [u.wrapperCall u.signature.returns] } ∧
    p.captured = u.wrapperEnvironment b.callables.length ∧ p.externals = u.externals ∧
    p.fencil = b.fencils.length ∧
    b' = { b with callables := b.callables ++ [.operator u], fencils := b.fencils ++ [none] } := by
  cases hwrapper : u.wrapper with
  | error e =>
    rw [asProgram_of_error hwrapper] at h
    cases h
  | ok node =>
    rw [asProgram_of_ok hwrapper] at h
    cases h
    refine ⟨?_, rfl, rfl, rfl, rfl⟩
    by_cases hreserved : ∃ s ∈ u.node.params, s.id = resultName
    · rw [wrapper_of_reserved hreserved] at hwrapper
      cases hwrapper
    · rw [wrapper_of_not_reserved (by simpa using hreserved)] at hwrapper
      by_cases hhides : u.HidesResult
      · rw [if_pos hhides] at hwrapper
        cases hwrapper
      · rw [if_neg hhides] at hwrapper
        cases hwrapper
        rfl

/-- **When there is a program around an operator.** A parameter named `out` is in the way, and is
reported first. Deduction of the program fails if the operator itself is named `out` and the type of
its result is known, and never else. -/
theorem asProgram_outcome (u : OperatorUnit) (b : Bench σ) :
    ((∃ p b', (u.asProgram : Task σ ProgramUnit) b = (.ok p, b')) ↔
      (∀ s ∈ u.node.params, s.id ≠ "out") ∧ ¬ u.HidesResult) ∧
    ((∃ s ∈ u.node.params, s.id = "out") →
      (u.asProgram : Task σ ProgramUnit) b =
        (.error (.closure (.reservedParameter u.name)), b)) ∧
    ((∃ node, u.untypedWrapper.deduce = .ok node) ↔ ¬ u.HidesResult) ∧
    ((∀ s ∈ u.node.params, s.id ≠ "out") → u.HidesResult →
      (u.asProgram : Task σ ProgramUnit) b = (.error (.typing u.hiddenResult), b)) := by
  have hreserved : (∃ s ∈ u.node.params, s.id = "out") →
      (u.asProgram : Task σ ProgramUnit) b = (.error (.closure (.reservedParameter u.name)), b) :=
    fun h => asProgram_of_error (wrapper_of_reserved h) b
  have hhidden : (∀ s ∈ u.node.params, s.id ≠ "out") → u.HidesResult →
      (u.asProgram : Task σ ProgramUnit) b = (.error (.typing u.hiddenResult), b) := by
    intro hfree hhides
    exact asProgram_of_error ((wrapper_of_not_reserved hfree).trans (if_pos hhides)) b
  refine ⟨⟨?_, ?_⟩, hreserved, ?_, hhidden⟩
  · rintro ⟨p, b', hp⟩
    have hfree : ∀ s ∈ u.node.params, s.id ≠ "out" := by
      intro s hs hid
      rw [hreserved ⟨s, hs, hid⟩] at hp
      cases hp
    refine ⟨hfree, ?_⟩
    intro hhides
    rw [hhidden hfree hhides] at hp
    cases hp
  · rintro ⟨hfree, hhides⟩
    exact ⟨_, _, asProgram_of_ok ((wrapper_of_not_reserved hfree).trans (if_neg hhides)) b⟩
  · rw [deduce_untypedWrapper]
    by_cases hhides : u.HidesResult
    · simp [hhides]
    · simp [hhides]

/-- An operator named `out`, which returns the field that it is given. -/
def namedOut : OperatorUnit :=
  let loc : Location := { source := "ops.py", line := 1, column := 1 }
  let ty : Deduced := some (.field (.known ["I"]) { kind := .float64 })
  { node :=
      { id := "out", params := [{ id := "a", ty, space := .local, loc }]
        body := [.ret (.name { loc, ty } "a") loc], captured := [], loc }
    captured := {} }

/-- No parameter is in the way, and yet there is no program around the operator. -/
theorem namedOut_refused :
    (∀ s ∈ namedOut.node.params, s.id ≠ "out") ∧ namedOut.HidesResult ∧
      ∃ e, (namedOut.asProgram : Task Unit ProgramUnit) { tools := () } =
        (.error (.typing e), { tools := () }) := by
  have hfree : ∀ s ∈ namedOut.node.params, s.id ≠ "out" := by simp [namedOut]
  have hhides : namedOut.HidesResult := ⟨rfl, rfl⟩
  exact ⟨hfree, hhides, _, (asProgram_outcome namedOut { tools := () }).2.2.2 hfree hhides⟩

/-- **The program around an operator is hygienic and faithful.** The numbers of its generated names
ascend, and none is larger than there are names in play: the parameters, the operator, `out` and
what is captured. No generated name is any of these, whatever the captured names look like. Each is
a parameter with the type of its argument, and `out` comes last with the type of the result. The
body is one call, typed with the result, of the operator on the generated names in order. What the
operator captures is captured by the program, with the operator itself under its own name. -/
theorem asProgram_faithful {u : OperatorUnit} {b b' : Bench σ} {p : ProgramUnit}
    (h : u.asProgram b = (.ok p, b')) :
    ∃ ks : List Nat, ks.length = u.node.params.length ∧ ks.Pairwise (· < ·) ∧
    (∀ k ∈ ks, k < u.node.params.length + 2 + u.captured.all.size) ∧
    let names := ks.map fun k => "__sym_" ++ toString k
    let loc := u.node.loc
    (∀ id ∈ names, id ≠ u.name ∧ id ≠ "out" ∧ id ∉ u.captured.nonlocals ∧
      id ∉ u.captured.globals) ∧
    u.signature.args.length = u.node.params.length ∧
    p.node.params =
      (names.zip u.signature.args).map
        (fun pair => { id := pair.1, ty := some pair.2, space := .local, loc }) ++
        [{ id := "out", ty := some u.signature.returns, space := .local, loc }] ∧
    (∃ callee args out,
      p.node.body = [.call { loc, ty := some u.signature.returns } callee args [("out", out)]] ∧
      callee.name? = some u.name ∧ args.map Program.Expr.name? = names.map some ∧
      out.name? = some "out") ∧
    (∃ id, b'.callables[id]? = some (.operator u) ∧
      p.captured.globals[u.name]? = some (.callable { id, signature := some u.signature })) ∧
    (∀ name, name ≠ u.name → p.captured.globals[name]? = u.captured.globals[name]?) ∧
    p.captured.nonlocals = u.captured.nonlocals ∧
    p.captured.annotations = u.captured.annotations ∧
    p.captured.builtins = u.captured.builtins ∧ p.captured.unbound = u.captured.unbound := by
  obtain ⟨hnode, hcaptured, -, -, rfl⟩ := node_of_asProgram h
  obtain ⟨ks, after, hlength, hnames, hdraws⟩ := u.exists_numbers
  replace hnames : (ks.map fun k => "__sym_" ++ toString k) = u.wrapperNames := hnames.symm
  rw [hnode, hcaptured]
  refine ⟨ks, hlength, hdraws.ascending, ?_, ?_, u.length_args_signature, ?_, ?_, ?_, ?_, rfl, rfl,
    rfl, rfl⟩
  · intro k hk
    have hnext := hdraws.next_le
    have htaken : u.takenNames.length = 2 + u.captured.all.size := by
      rw [takenNames, List.length_cons, List.length_cons, Std.TreeMap.length_keys]
      omega
    have hwithin := (hdraws.within k hk).2
    dsimp only at hnext
    omega
  · rw [hnames]
    intro id hid
    have hfree := notMem_takenNames hid
    rw [mem_takenNames, Environment.mem_all_iff] at hfree
    push Not at hfree
    exact hfree
  · rw [hnames]
    rfl
  · refine ⟨_, _, _, rfl, rfl, ?_, rfl⟩
    rw [hnames, List.map_map]
    conv_rhs => rw [← u.map_fst_zip_args, List.map_map]
    rfl
  · refine ⟨b.callables.length, ?_, ?_⟩
    · simp
    · simp [wrapperEnvironment, Environment.withGlobal]
  · intro name hname
    simp [wrapperEnvironment, Environment.withGlobal, Std.TreeMap.getElem?_insert, Ne.symm hname]

/-- An operator of two parameters. Its own name and that of a captured value look generated. -/
def lookalike : OperatorUnit :=
  let loc : Location := { source := "ops.py", line := 1, column := 1 }
  let param (id : String) : Symbol := { id, ty := none, space := .local, loc }
  let axis : Value := .dimension "I"
  { node := { id := "__sym_1", params := [param "a", param "b"], body := [], captured := [], loc }
    captured := { globals := Std.TreeMap.ofList [("__sym_0", axis)] } }

/-- Neither of the two numbers is given out, and what had one of them is captured as before. -/
theorem lookalike_faithful :
    ∃ p b', (lookalike.asProgram : Task Unit ProgramUnit) { tools := () } = (.ok p, b') ∧
      (∃ ks : List Nat, ks.length = 2 ∧ (∀ k ∈ ks, k ≠ 0 ∧ k ≠ 1) ∧
        p.node.params.map Symbol.id = (ks.map fun k => "__sym_" ++ toString k) ++ ["out"]) ∧
      p.captured.globals["__sym_0"]? = lookalike.captured.globals["__sym_0"]? := by
  have hfree : ∀ s ∈ lookalike.node.params, s.id ≠ resultName := by simp [lookalike, resultName]
  have hok := (wrapper_of_not_reserved hfree).trans (if_neg (by decide))
  obtain ⟨p, b', hp⟩ : ∃ p b',
      (lookalike.asProgram : Task Unit ProgramUnit) { tools := () } = (.ok p, b') :=
    ⟨_, _, asProgram_of_ok hok _⟩
  obtain ⟨ks, hlength, -, -, hnames, hargs, hparams, -, -, hglobals, -⟩ := asProgram_faithful hp
  refine ⟨p, b', hp, ⟨ks, hlength, ?_, ?_⟩, hglobals _ (by decide)⟩
  · intro k hk
    obtain ⟨hname, -, -, hglobal⟩ := hnames _ (List.mem_map_of_mem hk)
    refine ⟨?_, ?_⟩
    · rintro rfl
      exact hglobal rfl
    · rintro rfl
      exact hname rfl
  · rw [hparams, List.map_append, List.map_map]
    refine congrArg (· ++ ["out"]) (List.map_fst_zip (Nat.le_of_eq ?_))
    rw [List.length_map, hlength, hargs]

end OperatorUnit

end FieldView
