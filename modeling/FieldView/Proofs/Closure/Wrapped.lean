import FieldView.Proofs.Callable.Wrapper
import FieldView.Proofs.Closure.Closedness
import FieldView.Proofs.Closure.Meaning

/-!
# Lowering the program around an operator

A program can fail to be lowered for its own sake: it has externals, it uses names that nothing
declares, or what it declares as functions is bound to something else. The program around an
operator uses its parameters and the operator, and binds the operator itself, so none of this
concerns it (`check_of_asProgram`). What is left is what any program depends on: that its
environment can be flattened, and that the toolchain lowers it.

Flattening has few errors of its own (`answer_flatten_eq_error`); whatever else it reports, a stage
of the toolchain has reported first.
-/

set_option autoImplicit false

namespace FieldView

variable {σ α β : Type}

open ClosureGraph

/-! ## Errors of stages -/

/-- If one of several questions in a row fails, it fails in some state. -/
theorem Stage.exists_mem_of_answer_mapM_eq_error {ask : α → Stage σ β} {as : List α} {s : σ}
    {e : Error} (h : answer (as.mapM ask) s = .error e) :
    ∃ a ∈ as, ∃ s', answer (ask a) s' = .error e := by
  induction as generalizing s with
  | nil => cases h
  | cons a as ih =>
    rw [List.mapM_cons, answer_bind] at h
    cases ha : answer (ask a) s with
    | error e' =>
      rw [ha] at h
      cases h
      exact ⟨a, List.mem_cons_self, s, ha⟩
    | ok b =>
      rw [ha] at h
      dsimp only at h
      rw [answer_bind] at h
      cases has : answer (as.mapM ask) (after (ask a) s) with
      | error e' =>
        rw [has] at h
        cases h
        obtain ⟨a', hmem, hfails⟩ := ih has
        exact ⟨a', List.mem_cons_of_mem _ hmem, hfails⟩
      | ok bs =>
        rw [has] at h
        cases h

/-- A stage that lowers reports the error by itself, in some state. -/
def Toolchain.Reports (t : Toolchain σ) (e : Error) : Prop :=
  (∃ op s, Stage.answer (t.lowerOperator op) s = .error e) ∨
    ∃ p ds s, Stage.answer (t.lowerProgram p ds) s = .error e

theorem Callable.reports_of_lower {t : Toolchain σ} {c : Callable} {s : σ} {e : Error}
    (h : Stage.answer (c.lower t) s = .error e) : t.Reports e := by
  cases c with
  | operator u => exact .inl ⟨u.node, s, h⟩
  | late id signature captured => cases h

/-- What flattening reports: what stopped the walk, or a callable that does not exist, or a
definition of another name, or what a stage has reported. -/
theorem answer_flatten_eq_error {t : Toolchain σ} {callables : List Callable} {e : Environment}
    {s : σ} {err : Error} (h : Stage.answer (flatten t callables e) s = .error err) :
    (∃ fault, err = .closure fault ∧ (closureGraph callables).Stops e fault) ∨
      (∃ name, err = .noCallable name) ∨
      (∃ captured definition, err = .closure (.nameMismatch captured definition)) ∨
      t.Reports err := by
  unfold flatten at h
  rw [collectFrom_eq_walkFrom] at h
  unfold Walk.collect at h
  rw [Stage.answer_bind] at h
  split at h
  · split at h
    · rename_i fault hfault
      cases h
      exact .inl ⟨fault, rfl, stops_of_walkFrom_fault hfault (.nil e) (List.Subset.refl _)⟩
    · cases h
  · rename_i err' hvisits
    cases h
    obtain ⟨v, -, s', hv⟩ := Stage.exists_mem_of_answer_mapM_eq_error hvisits
    rw [Visit.answer_lower] at hv
    split at hv
    · cases hv
      exact .inr (.inl ⟨_, rfl⟩)
    · split at hv
      · rename_i err'' hlower
        cases hv
        exact .inr (.inr (.inr (Callable.reports_of_lower hlower)))
      · split at hv
        · cases hv
        · cases hv
          exact .inr (.inr (.inl ⟨_, _, rfl⟩))

/-! ## The check -/

namespace OperatorUnit

variable {o : OperatorUnit} {b b' : Bench σ} {p : ProgramUnit}

/-- The call mentions the operator, the generated names and the name of the result. -/
theorem mentions_wrapperCall {τ : Ty} {name : String} (h : (o.wrapperCall τ).Mentions name) :
    name = o.name ∨ name ∈ o.wrapperNames ∨ name = resultName := by
  cases h with
  | callee h =>
    cases h with
    | name => exact .inl rfl
  | arg hmem h =>
    obtain ⟨pair, hpair, rfl⟩ := List.mem_map.mp hmem
    cases h with
    | name => exact .inr (.inl (List.of_mem_zip hpair).1)
  | kwarg hmem h =>
    cases List.mem_singleton.mp hmem
    cases h with
    | name => exact .inr (.inr rfl)

/-- **The program around an operator passes the check**, whatever the operator captures. -/
theorem check_of_asProgram (hexternals : o.externals.isEmpty = true)
    (h : o.asProgram b = (.ok p, b')) : p.check = .ok () := by
  obtain ⟨hnode, hcaptured, hexternals', -, -⟩ := node_of_asProgram h
  refine ProgramUnit.check_eq_ok_iff.mpr ⟨?_, ?_, ?_⟩
  · rw [hexternals']
    exact hexternals
  · rw [hnode, hcaptured]
    intro s hs
    obtain rfl := List.mem_singleton.mp hs
    obtain ⟨handle, hget, -⟩ := o.binds_wrapperEnvironment b.callables.length
    exact ⟨rfl, handle, hget⟩
  · rw [hnode]
    intro e he name hname
    obtain rfl := List.mem_singleton.mp he
    have hparams : ∀ id ∈ o.wrapperNames ++ [resultName],
        ∃ s ∈ o.untypedWrapper.params, s.id = id := by
      intro id hid
      rw [← map_id_params] at hid
      exact List.mem_map.mp hid
    rcases mentions_wrapperCall hname with rfl | hgenerated | rfl
    · exact .inr ⟨_, List.mem_cons_self, rfl⟩
    · exact .inl (hparams _ (List.mem_append_left _ hgenerated))
    · exact .inl (hparams _ (List.mem_append_right _ List.mem_cons_self))

/-! ## Lowering -/

/-- Nothing is kept for the program yet, so it is lowered anew; and after the check this is to
flatten its environment and to ask the toolchain. -/
theorem answer_lower_of_asProgram (hexternals : o.externals.isEmpty = true)
    (h : o.asProgram b = (.ok p, b')) (t : Toolchain σ) :
    Stage.answer (p.lower t) b' =
      Stage.answer (flatten t b'.callables p.captured >>= t.lowerProgram p.node) b.tools := by
  have hcheck := check_of_asProgram hexternals h
  obtain ⟨-, -, -, hplace, rfl⟩ := node_of_asProgram h
  have hempty : (b.fencils ++ [none])[p.fencil]?.join = none := by
    rw [hplace]
    simp
  rw [ProgramUnit.answer_lower, hempty]
  show Stage.answer (p.lowerAnew t) _ = _
  unfold ProgramUnit.lowerAnew
  rw [hcheck]
  rfl

/-- The flattened environment has a definition of the operator. -/
theorem exists_definition_of_asProgram (h : o.asProgram b = (.ok p, b')) {t : Toolchain σ}
    {ds : List Fencil.Definition}
    (hflat : Stage.answer (flatten t b'.callables p.captured) b.tools = .ok ds) :
    ∃ d ∈ ds, d.id = o.name ∧ (∃ s, Stage.answer (t.lowerOperator o.node) s = .ok d) ∧
      (t.Steady → Stage.answer (t.lowerOperator o.node) b.tools = .ok d) := by
  obtain ⟨-, hcaptured, -, -, rfl⟩ := node_of_asProgram h
  obtain ⟨hfault, hds⟩ := contributes_of_answer_flatten hflat
  have hvisited := mem_visits_of_binds hfault (hcaptured ▸ o.binds_wrapperEnvironment _)
  -- The identity of the visit is that of the copy of the operator on the bench.
  have hown : ∀ {s d}, LowersTo t (b.callables ++ [.operator o]) s b.callables.length d →
      Stage.answer (t.lowerOperator o.node) s = .ok d := by
    rintro s d ⟨c, hc, hd⟩
    obtain rfl : Callable.operator o = c := by simpa using hc
    exact hd
  by_cases ht : t.Steady
  · obtain ⟨-, hdefines⟩ := (answer_flatten_eq_ok_iff ht).mp hflat
    obtain ⟨d, hd, hlowers, hid⟩ := exists_mem_of_forall₂ hdefines hvisited
    exact ⟨d, hd, hid, ⟨_, hown hlowers⟩, fun _ => hown hlowers⟩
  · obtain ⟨d, hd, s, hlowers, hid⟩ := exists_mem_of_forall₂ hds hvisited
    exact ⟨d, hd, hid, ⟨s, hown hlowers⟩, fun hsteady => absurd hsteady ht⟩

/-- **Lowering the program around an operator** that has no externals, on any bench and with any
toolchain. The environment is that of the operator, with the operator itself under its own name,
whatever that was bound to before. The program passes the check, so that undefined names and
functions that cannot be called are reported only if a stage of the toolchain reports them by
itself. It is lowered exactly if its environment can be flattened and the toolchain lowers it with
the definitions, among which there is the operator's own. -/
theorem lower_asProgram {t : Toolchain σ} (hexternals : o.externals.isEmpty = true)
    (h : o.asProgram b = (.ok p, b')) :
    let id := b.callables.length
    let e := o.captured.withGlobal o.name (.callable { id, signature := some o.signature })
    let flat := flatten t b'.callables e
    b'.callables[id]? = some (.operator o) ∧ p.check = .ok () ∧
    (∀ names fault, fault = .undefinedNames names ∨ fault = .notCallable names →
      Stage.answer (p.lower t) b' = .error (.closure fault) → t.Reports (.closure fault)) ∧
    (∀ f, Stage.answer (p.lower t) b' = .ok f ↔
      ∃ ds, Stage.answer flat b.tools = .ok ds ∧
        Stage.answer (t.lowerProgram p.node ds) (Stage.after flat b.tools) = .ok f) ∧
    ∀ ds, Stage.answer flat b.tools = .ok ds →
      ∃ d ∈ ds, d.id = o.name ∧ (∃ s, Stage.answer (t.lowerOperator o.node) s = .ok d) ∧
        (t.Steady → Stage.answer (t.lowerOperator o.node) b.tools = .ok d) := by
  intro id e flat
  have hlower := answer_lower_of_asProgram hexternals h t
  obtain ⟨-, hcaptured, -, -, hb'⟩ := node_of_asProgram h
  rw [hcaptured] at hlower
  refine ⟨?_, check_of_asProgram hexternals h, ?_, ?_, ?_⟩
  · simp [hb', id]
  · intro names fault hfault herror
    rw [hlower, Stage.answer_bind] at herror
    split at herror
    · exact .inr ⟨_, _, _, herror⟩
    · rename_i err hflat
      cases herror
      rcases answer_flatten_eq_error hflat with ⟨fault', hsame, hstops⟩ | ⟨_, hname⟩ |
        ⟨_, _, hname⟩ | hreports
      · cases hsame
        cases hstops <;> simp at hfault
      · cases hname
      · cases hname
        simp at hfault
      · exact hreports
  · intro f
    rw [hlower]
    exact Stage.answer_bind_eq_ok
  · intro ds hflat
    refine exists_definition_of_asProgram h ?_
    rw [hcaptured]
    exact hflat

/-- An operator that closes over an older one of its own name, where the program binds that name to
the operator itself. -/
theorem lower_asProgram_homonym :
    ∃ p b' ds, homonym.externals.isEmpty = true ∧
      (homonym.asProgram : Task Unit ProgramUnit) homonymBench = (.ok p, b') ∧
      p.check = .ok () ∧
      Stage.answer (flatten Toolchain.plain b'.callables p.captured) () = .ok ds ∧
      ∃ d ∈ ds, Stage.answer (Toolchain.plain.lowerOperator homonym.node) () = .ok d := by
  obtain ⟨p, f, hp, hf, -⟩ := answer_lower_homonym
  have hrun : (homonym.asProgram : Task Unit ProgramUnit) homonymBench =
      (.ok p, Stage.after (homonym.asProgram : Task Unit ProgramUnit) homonymBench) :=
    Prod.ext hp rfl
  obtain ⟨-, hcheck, -, hiff, hown⟩ := lower_asProgram (t := Toolchain.plain) rfl hrun
  obtain ⟨ds, hds, -⟩ := (hiff f).mp hf
  obtain ⟨d, hd, -, -, hsteady⟩ := hown ds hds
  refine ⟨p, _, ds, rfl, hrun, hcheck, ?_, d, hd, hsteady Toolchain.steady_plain⟩
  rw [(node_of_asProgram hrun).2.1]
  exact hds

end OperatorUnit

end FieldView
