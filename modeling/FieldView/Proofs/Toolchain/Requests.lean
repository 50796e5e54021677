import FieldView.Proofs.Toolchain.Cache

/-!
# What a toolchain is asked

Nothing is known of a toolchain, so the effects of a task on it are the requests it makes. To talk
about them, `Toolchain.logged` writes every request down before it is served. It keeps the log beside
the state of the toolchain, out of reach of the stages, and so does what the toolchain does
(`Logs`): the log of a logged run is a fact about the run without it.

`Logs` is kept by everything that tasks are made of, and says on the way which requests can occur.
Flattening asks for operators only (`logs_flatten`), and lowering a program never executes anything
(`logs_lower`).
-/

set_option autoImplicit false

namespace FieldView

variable {σ ρ ρ' α β : Type}

/-- What a stage can be asked to do. -/
inductive Request
  | lowerOperator (op : Operator)
  | lowerProgram (p : Program) (definitions : List Fencil.Definition)
  | execute (fencil : Fencil) (invocation : Invocation) (offsets : OffsetProvider)
      (backend : String)

namespace Request

def isOperator : Request → Bool
  | lowerOperator _ => true
  | _ => false

def isLowering : Request → Bool
  | execute .. => false
  | _ => true

theorem isLowering_of_isOperator {r : Request} (h : r.isOperator = true) :
    r.isLowering = true := by
  cases r with
  | lowerOperator op => rfl
  | lowerProgram p definitions => rfl
  | execute fencil invocation offsets backend => cases h

end Request

/-- The stage, after the request has been written down. -/
def Stage.logged (r : Request) (x : Stage σ α) : Stage (σ × List Request) α := fun (s, log) =>
  let (answer, s') := x s
  (answer, (s', log ++ [r]))

/-- The toolchain, with a log of all that it is asked. -/
def Toolchain.logged (t : Toolchain σ) : Toolchain (σ × List Request) where
  config := t.config
  lowerOperator op := Stage.logged (.lowerOperator op) (t.lowerOperator op)
  lowerProgram p definitions :=
    Stage.logged (.lowerProgram p definitions) (t.lowerProgram p definitions)
  execute fencil invocation offsets backend :=
    Stage.logged (.execute fencil invocation offsets backend)
      (t.execute fencil invocation offsets backend)

/-- The bench with a log beside the state of its toolchain. -/
def Bench.withLog (b : Bench σ) (log : List Request) : Bench (σ × List Request) :=
  { callables := b.callables, fencils := b.fencils, tools := (b.tools, log) }

/-! ## Logged runs -/

/-- `x'` does what `x` does, beside a log to which it adds requests that pass the test. A state and a
log are put together by `put`, which is pairing for stages and `Bench.withLog` for tasks. -/
def Logs (put : ρ → List Request → ρ') (test : Request → Bool) (x : Stage ρ α) (x' : Stage ρ' α) :
    Prop :=
  ∀ s log, ∃ more, more.all test = true ∧
    x' (put s log) = (Stage.answer x s, put (Stage.after x s) (log ++ more))

namespace Logs

variable {put : ρ → List Request → ρ'} {test test' : Request → Bool}

/-- What asks nothing logs nothing. -/
theorem of_silent {x : Stage ρ α} {x' : Stage ρ' α}
    (h : ∀ s log, x' (put s log) = (Stage.answer x s, put (Stage.after x s) log)) :
    Logs put test x x' := by
  intro s log
  refine ⟨[], rfl, ?_⟩
  rw [List.append_nil]
  exact h s log

theorem pure (a : α) : Logs put test (pure a) (pure a) := of_silent fun _ _ => rfl

theorem throw (e : Error) : Logs put test (throw e : Stage ρ α) (throw e) :=
  of_silent fun _ _ => rfl

theorem mono {x : Stage ρ α} {x' : Stage ρ' α} (h : Logs put test x x')
    (htest : ∀ r, test r = true → test' r = true) : Logs put test' x x' := by
  intro s log
  obtain ⟨more, hmore, hrun⟩ := h s log
  refine ⟨more, ?_, hrun⟩
  rw [List.all_eq_true] at hmore ⊢
  intro r hr
  exact htest r (hmore r hr)

theorem bind {x : Stage ρ α} {x' : Stage ρ' α} {f : α → Stage ρ β} {f' : α → Stage ρ' β}
    (hx : Logs put test x x') (hf : ∀ a, Logs put test (f a) (f' a)) :
    Logs put test (x >>= f) (x' >>= f') := by
  intro s log
  obtain ⟨first, hfirst, hrun⟩ := hx s log
  cases hanswer : Stage.answer x s with
  | error e =>
    refine ⟨first, hfirst, ?_⟩
    rw [Stage.run_bind, hrun, Stage.answer_bind, Stage.after_bind, hanswer]
  | ok a =>
    obtain ⟨second, hsecond, hthen⟩ := hf a (Stage.after x s) (log ++ first)
    refine ⟨first ++ second, ?_, ?_⟩
    · rw [List.all_append, hfirst, hsecond]
      rfl
    · rw [Stage.run_bind, hrun, Stage.answer_bind, Stage.after_bind, hanswer]
      rw [← List.append_assoc]
      exact hthen

theorem mapM {ask : α → Stage ρ β} {ask' : α → Stage ρ' β}
    (h : ∀ a, Logs put test (ask a) (ask' a)) (as : List α) :
    Logs put test (as.mapM ask) (as.mapM ask') := by
  induction as with
  | nil =>
    rw [List.mapM_nil, List.mapM_nil]
    exact pure []
  | cons a as ih =>
    rw [List.mapM_cons, List.mapM_cons]
    refine (h a).bind fun b => ?_
    exact ih.bind fun bs => pure (b :: bs)

/-- A logged stage logs its request. -/
theorem logged {r : Request} (hr : test r = true) (x : Stage σ α) :
    Logs Prod.mk test x (Stage.logged r x) := by
  intro s log
  refine ⟨[r], ?_, rfl⟩
  rw [List.all_cons, hr]
  rfl

/-- Consulting a stage logs on the bench what the stage logs. -/
theorem consult {x : Stage σ α} {x' : Stage (σ × List Request) α} (h : Logs Prod.mk test x x') :
    Logs Bench.withLog test (Task.consult x) (Task.consult x') := by
  intro b log
  obtain ⟨more, hmore, hrun⟩ := h b.tools log
  refine ⟨more, hmore, ?_⟩
  unfold Task.consult Bench.withLog
  rw [hrun]
  rfl

end Logs

/-! ## Lowering -/

section Lowering

variable (t : Toolchain σ)

theorem logs_callable (c : Callable) :
    Logs Prod.mk Request.isOperator (c.lower t) (c.lower t.logged) := by
  cases c with
  | operator u => exact Logs.logged rfl _
  | late id signature captured => exact Logs.pure _

theorem logs_visit (callables : List Callable) (v : Visit) :
    Logs Prod.mk Request.isOperator (v.lower t callables) (v.lower t.logged callables) := by
  unfold Visit.lower
  cases callables[v.id]? with
  | none => exact Logs.throw _
  | some c =>
    refine (logs_callable t c).bind fun d => ?_
    by_cases hid : d.id = v.name
    · rw [if_pos hid, if_pos hid]
      exact Logs.pure d
    · rw [if_neg hid, if_neg hid]
      exact Logs.throw _

/-- Flattening asks for operators and for nothing else. -/
theorem logs_flatten (callables : List Callable) (e : Environment) :
    Logs Prod.mk Request.isOperator (flatten t callables e) (flatten t.logged callables e) := by
  unfold flatten
  rw [ClosureGraph.collectFrom_eq_walkFrom, ClosureGraph.collectFrom_eq_walkFrom]
  unfold Walk.collect
  refine (Logs.mapM (logs_visit t callables) _).bind fun ds => ?_
  cases ((closureGraph callables).walkFrom [] e.all.toList).fault with
  | some fault => exact Logs.throw _
  | none => exact Logs.pure ds

theorem logs_lowerAnew (u : ProgramUnit) :
    Logs Bench.withLog Request.isLowering (u.lowerAnew t) (u.lowerAnew t.logged) := by
  unfold ProgramUnit.lowerAnew
  refine Logs.bind (Logs.of_silent fun _ _ => rfl) fun _ => ?_
  refine Logs.bind (Logs.of_silent fun _ _ => rfl) fun callables => ?_
  have hflat := (logs_flatten t callables u.captured).mono fun _ => Request.isLowering_of_isOperator
  exact Logs.consult (hflat.bind fun ds => Logs.logged rfl _)

/-- Lowering asks for lowerings only, and for none if a fencil is kept. -/
theorem logs_lower (u : ProgramUnit) :
    Logs Bench.withLog Request.isLowering (u.lower t) (u.lower t.logged) := by
  unfold ProgramUnit.lower
  refine Logs.bind (Logs.of_silent fun _ _ => rfl) fun kept => ?_
  cases kept with
  | some f => exact Logs.pure f
  | none =>
    refine (logs_lowerAnew t u).bind fun f => ?_
    refine Logs.bind (Logs.of_silent fun _ _ => rfl) fun _ => ?_
    exact Logs.pure f

end Lowering

namespace ProgramUnit

variable {t : Toolchain σ} {u : ProgramUnit} {b : Bench σ}

/-- What the toolchain is asked when a unit is lowered, kept or not. -/
def lowerRequests (t : Toolchain σ) (u : ProgramUnit) (b : Bench σ) : List Request :=
  (Stage.after (u.lower t.logged) (b.withLog [])).tools.2

/-- What the toolchain is asked when a unit is lowered anew. -/
def lowerAnewRequests (t : Toolchain σ) (u : ProgramUnit) (b : Bench σ) : List Request :=
  (Stage.after (u.lowerAnew t.logged) (b.withLog [])).tools.2

theorem lower_logged (t : Toolchain σ) (u : ProgramUnit) (b : Bench σ) :
    u.lower t.logged (b.withLog []) =
        (Stage.answer (u.lower t) b, (Stage.after (u.lower t) b).withLog (u.lowerRequests t b)) ∧
      (u.lowerRequests t b).all Request.isLowering = true := by
  obtain ⟨more, hmore, hrun⟩ := logs_lower t u b []
  rw [List.nil_append] at hrun
  have hlog : u.lowerRequests t b = more := by
    unfold lowerRequests Stage.after
    rw [hrun]
    rfl
  rw [hlog]
  exact ⟨hrun, hmore⟩

/-- **A program is asked for** once the check has passed and the flattening has succeeded, with the
flattened definitions, and not otherwise. -/
theorem mem_lowerAnewRequests_iff {p : Program} {ds : List Fencil.Definition} :
    .lowerProgram p ds ∈ u.lowerAnewRequests t b ↔
      p = u.node ∧ u.check = .ok () ∧
        Stage.answer (flatten t b.callables u.captured) b.tools = .ok ds := by
  unfold lowerAnewRequests lowerAnew
  cases hcheck : u.check with
  | error e =>
    constructor
    · intro h
      cases h
    · intro h
      cases h.2.1
  | ok _ =>
    obtain ⟨more, hmore, hrun⟩ := logs_flatten t b.callables u.captured b.tools []
    have hoperators : ∀ r ∈ more, r.isOperator = true := List.all_eq_true.mp hmore
    -- Nothing else is left of the task than to flatten and to ask for the program.
    show .lowerProgram p ds ∈ (Stage.after
        (flatten t.logged b.callables u.captured >>= t.logged.lowerProgram u.node)
        (b.tools, [])).2 ↔ _
    rw [Stage.after, Stage.run_bind, hrun, List.nil_append]
    cases Stage.answer (flatten t b.callables u.captured) b.tools with
    | error e =>
      constructor
      · intro h
        cases hoperators _ h
      · intro h
        cases h.2.2
    | ok ds' =>
      show .lowerProgram p ds ∈ more ++ [.lowerProgram u.node ds'] ↔ _
      rw [List.mem_append, List.mem_singleton]
      constructor
      · intro h
        rcases h with h | h
        · cases hoperators _ h
        · cases h
          exact ⟨rfl, rfl, rfl⟩
      · rintro ⟨rfl, -, hds⟩
        cases hds
        exact .inr rfl

end ProgramUnit

end FieldView
