import FieldView.Proofs.Toolchain.Stage

/-!
# Answers of lowering

What `ProgramUnit.lower` answers, taken apart: the check, the flattened definitions, the stage that
lowers the program, and the fencil that may be kept already. Later files argue about these parts and
never open the task again.
-/

set_option autoImplicit false

namespace FieldView

variable {σ α β : Type}

namespace Task

theorem answer_consult (x : Stage σ α) (b : Bench σ) :
    Stage.answer (consult x) b = Stage.answer x b.tools := rfl

end Task

namespace ProgramUnit

theorem answer_lowerAnew_eq_ok_iff {t : Toolchain σ} {u : ProgramUnit} {b : Bench σ} {f : Fencil} :
    Stage.answer (u.lowerAnew t) b = .ok f ↔
      u.check = .ok () ∧
      ∃ ds, Stage.answer (flatten t b.callables u.captured) b.tools = .ok ds ∧
        Stage.answer (t.lowerProgram u.node ds)
          (Stage.after (flatten t b.callables u.captured) b.tools) = .ok f := by
  unfold lowerAnew
  rw [Stage.answer_bind_eq_ok]
  constructor
  · intro h
    obtain ⟨_, hcheck, h⟩ := h
    obtain ⟨callables, hcallables, h⟩ := Stage.answer_bind_eq_ok.mp h
    obtain rfl : b.callables = callables := Except.ok.inj hcallables
    rw [Task.answer_consult] at h
    exact ⟨hcheck, Stage.answer_bind_eq_ok.mp h⟩
  · intro h
    obtain ⟨hcheck, h⟩ := h
    refine ⟨(), hcheck, Stage.answer_bind_eq_ok.mpr ⟨b.callables, rfl, ?_⟩⟩
    rw [Task.answer_consult]
    exact Stage.answer_bind_eq_ok.mpr h

theorem answer_lower (t : Toolchain σ) (u : ProgramUnit) (b : Bench σ) :
    Stage.answer (u.lower t) b =
      match b.fencils[u.fencil]?.join with
      | some f => .ok f
      | none => Stage.answer (u.lowerAnew t) b := by
  unfold lower
  rw [Stage.answer_bind]
  show Stage.answer (match b.fencils[u.fencil]?.join with
    | some f => _
    | none => _) b = _
  cases b.fencils[u.fencil]?.join with
  | some f => rfl
  | none =>
    show Stage.answer (u.lowerAnew t >>= _) b = _
    rw [Stage.answer_bind]
    cases Stage.answer (u.lowerAnew t) b with
    | error e => rfl
    | ok f => rfl

/-- What is kept for the unit was computed for it, on this bench or on an earlier one: since then the
toolchain may have gone on and late functions may have been bound. -/
def Kept (t : Toolchain σ) (u : ProgramUnit) (b : Bench σ) : Prop :=
  ∀ f, b.fencils[u.fencil]?.join = some f →
    ∃ earlier : Bench σ, Stage.answer (u.lowerAnew t) earlier = .ok f

theorem kept_of_none {t : Toolchain σ} {u : ProgramUnit} {b : Bench σ}
    (h : b.fencils[u.fencil]?.join = none) : u.Kept t b := by
  intro f hf
  rw [h] at hf
  cases hf

theorem Kept.lowerAnew {t : Toolchain σ} {u : ProgramUnit} {b : Bench σ} {f : Fencil}
    (hk : u.Kept t b) (h : Stage.answer (u.lower t) b = .ok f) :
    ∃ earlier : Bench σ, (b.fencils[u.fencil]?.join = none → earlier = b) ∧
      Stage.answer (u.lowerAnew t) earlier = .ok f := by
  rw [answer_lower] at h
  cases hf : b.fencils[u.fencil]?.join with
  | some f' =>
    -- Nothing is computed: the answer is the kept fencil, from whatever bench it came.
    rw [hf] at h
    obtain rfl : f' = f := Except.ok.inj h
    obtain ⟨earlier, hearlier⟩ := hk f' hf
    refine ⟨earlier, fun hnone => ?_, hearlier⟩
    cases hnone
  | none =>
    rw [hf] at h
    exact ⟨b, fun _ => rfl, h⟩

theorem fencils_after_lowerAnew (t : Toolchain σ) (u : ProgramUnit) (b : Bench σ) :
    (Stage.after (u.lowerAnew t) b).fencils = b.fencils := by
  unfold lowerAnew
  rw [Stage.after_bind]
  cases u.check with
  | error e => rfl
  | ok _ => rfl

/-- A run of `lower` leaves only such fencils behind as it may find. -/
theorem Kept.after_lower {t : Toolchain σ} {u : ProgramUnit} {b : Bench σ} (hk : u.Kept t b) :
    u.Kept t (Stage.after (u.lower t) b) := by
  unfold lower
  rw [Stage.after_bind]
  show u.Kept t (Stage.after (match b.fencils[u.fencil]?.join with
    | some f => _
    | none => _) b)
  cases hf : b.fencils[u.fencil]?.join with
  | some f => exact hk
  | none =>
    show u.Kept t (Stage.after (u.lowerAnew t >>= _) b)
    rw [Stage.after_bind]
    have hsame := fencils_after_lowerAnew t u b
    cases hnew : Stage.answer (u.lowerAnew t) b with
    | error e =>
      refine kept_of_none ?_
      show (Stage.after (u.lowerAnew t) b).fencils[u.fencil]?.join = none
      rw [hsame, hf]
    | ok f =>
      -- The place holds what was answered just now, if there is such a place.
      intro f' hf'
      replace hf' : ((Stage.after (u.lowerAnew t) b).fencils.set u.fencil (some f))[u.fencil]?.join
        = some f' := hf'
      rw [List.getElem?_set_self'] at hf'
      cases hplace : (Stage.after (u.lowerAnew t) b).fencils[u.fencil]? with
      | none =>
        rw [hplace] at hf'
        cases hf'
      | some old =>
        rw [hplace] at hf'
        cases hf'
        exact ⟨b, hnew⟩

end ProgramUnit

/-- The stage that lowers programs hands on the definitions that it is given. -/
def Toolchain.HandsOn (t : Toolchain σ) : Prop :=
  ∀ p ds s f, Stage.answer (t.lowerProgram p ds) s = .ok f → f.definitions = ds

/-- A toolchain that lowers as the ledger does, keeps nothing and refuses nothing. -/
def Toolchain.plain : Toolchain Unit where
  lowerOperator op := pure (Ledger.operatorDefinition op)
  lowerProgram p definitions := pure (Ledger.programFencil p definitions)
  execute _ _ _ _ := pure ()

theorem Toolchain.steady_plain : Toolchain.plain.Steady := fun _ _ _ => rfl

theorem Toolchain.handsOn_plain : Toolchain.plain.HandsOn := by
  intro p ds s f h
  cases h
  rfl

/-! ## The program around an operator -/

namespace OperatorUnit

/-- The parts of a successful `asProgram`. The copy of the operator is the last callable, and the
place for the fencil is the last one and empty. -/
theorem answer_asProgram_eq_ok {u : OperatorUnit} {b : Bench σ} {p : ProgramUnit}
    (h : Stage.answer (u.asProgram : Task σ ProgramUnit) b = .ok p) :
    p.captured = u.wrapperEnvironment b.callables.length ∧
    p.fencil = b.fencils.length ∧
    Stage.after (u.asProgram : Task σ ProgramUnit) b =
      { b with callables := b.callables ++ [.operator u], fencils := b.fencils ++ [none] } := by
  unfold asProgram at h ⊢
  obtain ⟨node, hnode, h⟩ := Stage.answer_bind_eq_ok.mp h
  obtain ⟨id, hid, h⟩ := Stage.answer_bind_eq_ok.mp h
  obtain ⟨n, hn, h⟩ := Stage.answer_bind_eq_ok.mp h
  cases hid
  cases hn
  cases h
  refine ⟨rfl, rfl, ?_⟩
  rw [Stage.after_bind, hnode]
  rfl

end OperatorUnit

end FieldView
