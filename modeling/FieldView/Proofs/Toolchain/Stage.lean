import Mathlib.Data.List.Forall2
import FieldView.Workbench.Ledger

/-!
# Answers of stages

A stage has an answer and leaves a state behind. `Stage.answer` and `Stage.after` are the two halves,
with one lemma for each way of putting stages together, so that no proof has to open the monad. A task
on a bench is a stage over benches, and the same lemmas serve it.

`Toolchain.Steady` is what the library expects of a toolchain: that lowering an operator does not
change what any operator lowers to. A steady toolchain may still keep a state of its own, and may
refuse. Over a steady toolchain a list of operators is answered as if each were asked first
(`Stage.answer_mapM`).
-/

set_option autoImplicit false

namespace FieldView

variable {σ α β : Type}

namespace Stage

/-- What the stage answers in a state. -/
def answer (x : Stage σ α) (s : σ) : Except Error α := (x s).1

/-- The state after the stage. -/
def after (x : Stage σ α) (s : σ) : σ := (x s).2

@[simp]
theorem answer_pure (a : α) (s : σ) : answer (pure a : Stage σ α) s = .ok a := rfl

@[simp]
theorem after_pure (a : α) (s : σ) : after (pure a : Stage σ α) s = s := rfl

@[simp]
theorem answer_throw (e : Error) (s : σ) : answer (throw e : Stage σ α) s = .error e := rfl

@[simp]
theorem after_throw (e : Error) (s : σ) : after (throw e : Stage σ α) s = s := rfl

theorem answer_bind (x : Stage σ α) (f : α → Stage σ β) (s : σ) :
    answer (x >>= f) s =
      match answer x s with
      | .ok a => answer (f a) (after x s)
      | .error e => .error e := by
  show ((x >>= f) s).1 = _
  unfold answer after
  simp only [bind, ExceptT.bind, ExceptT.mk, StateT.bind, ExceptT.bindCont]
  rcases x s with ⟨_ | a, s'⟩ <;> rfl

theorem after_bind (x : Stage σ α) (f : α → Stage σ β) (s : σ) :
    after (x >>= f) s =
      match answer x s with
      | .ok a => after (f a) (after x s)
      | .error _ => after x s := by
  show ((x >>= f) s).2 = _
  unfold answer after
  simp only [bind, ExceptT.bind, ExceptT.mk, StateT.bind, ExceptT.bindCont]
  rcases x s with ⟨_ | a, s'⟩ <;> rfl

theorem answer_bind_eq_ok {x : Stage σ α} {f : α → Stage σ β} {s : σ} {b : β} :
    answer (x >>= f) s = .ok b ↔ ∃ a, answer x s = .ok a ∧ answer (f a) (after x s) = .ok b := by
  rw [answer_bind]
  cases answer x s with
  | error e => simp
  | ok a => simp

/-- A question that is asked again and again: what it answers does not depend on what was asked
before. -/
def Steady (ask : α → Stage σ β) : Prop :=
  ∀ s a a', answer (ask a') (after (ask a) s) = answer (ask a') s

/-- Steady questions are answered as if each were the first. -/
theorem answer_mapM {ask : α → Stage σ β} (h : Steady ask) (as : List α) (s : σ) :
    answer (as.mapM ask) s = as.mapM fun a => answer (ask a) s := by
  induction as generalizing s with
  | nil => rfl
  | cons a as ih =>
    -- The others are asked in the state that the first one leaves, and answer as in this one.
    have hrest : (as.mapM fun a' => answer (ask a') (after (ask a) s)) =
        as.mapM fun a' => answer (ask a') s := by
      congr 1
      funext a'
      exact h s a a'
    rw [List.mapM_cons, List.mapM_cons, answer_bind]
    cases hask : answer (ask a) s with
    | error e => rfl
    | ok b =>
      show answer (as.mapM ask >>= fun bs => pure (b :: bs)) (after (ask a) s) = _
      rw [answer_bind, ih, hrest]
      cases as.mapM fun a' => answer (ask a') s with
      | error e => rfl
      | ok bs => rfl

end Stage

/-! ## Lists of results -/

theorem mapM_eq_ok_iff {ask : α → Except Error β} {as : List α} {bs : List β} :
    as.mapM ask = .ok bs ↔ List.Forall₂ (fun a b => ask a = .ok b) as bs := by
  induction as generalizing bs with
  | nil =>
    cases bs with
    | nil => simp [pure, Except.pure]
    | cons b bs => simp [pure, Except.pure]
  | cons a as ih =>
    rw [List.mapM_cons]
    cases ha : ask a with
    | error e =>
      cases bs with
      | nil => simp [bind, Except.bind]
      | cons b bs => simp [bind, Except.bind, ha]
    | ok b' =>
      cases has : as.mapM ask with
      | error e =>
        cases bs with
        | nil => simp [bind, Except.bind]
        | cons b bs => simp [bind, Except.bind, ← ih, has]
      | ok bs' =>
        cases bs with
        | nil => simp [bind, Except.bind, pure, Except.pure]
        | cons b bs => simp [bind, Except.bind, pure, Except.pure, ← ih, has, ha]

/-- The first failure is that of some member. -/
theorem exists_mem_of_mapM_eq_error {ask : α → Except Error β} {as : List α} {e : Error}
    (h : as.mapM ask = .error e) : ∃ a ∈ as, ask a = .error e := by
  induction as with
  | nil => cases h
  | cons a as ih =>
    rw [List.mapM_cons] at h
    cases ha : ask a with
    | error e' =>
      rw [ha] at h
      cases h
      exact ⟨a, List.mem_cons_self, ha⟩
    | ok b =>
      rw [ha] at h
      cases has : as.mapM ask with
      | error e' =>
        rw [has] at h
        cases h
        obtain ⟨a', hm, ha'⟩ := ih has
        exact ⟨a', List.mem_cons_of_mem _ hm, ha'⟩
      | ok bs =>
        rw [has] at h
        cases h

/-! ## Steady toolchains -/

/-- Lowering an operator changes nothing about what operators lower to. -/
def Toolchain.Steady (t : Toolchain σ) : Prop := Stage.Steady t.lowerOperator

/-- A callable and what it lowers to. -/
def LowersTo (t : Toolchain σ) (callables : List Callable) (s : σ) (id : Nat)
    (d : Fencil.Definition) : Prop :=
  ∃ c, callables[id]? = some c ∧ Stage.answer (c.lower t) s = .ok d

theorem Toolchain.Steady.callable {t : Toolchain σ} (h : t.Steady) :
    Stage.Steady (Callable.lower t) := by
  intro s c c'
  cases c' with
  | late id signature captured => rfl
  | operator u' =>
    cases c with
    | late id signature captured => rfl
    | operator u => exact h s u.node u'.node

/-- What a visit answers, by what its callable lowers to. -/
theorem Visit.answer_lower (t : Toolchain σ) (callables : List Callable) (v : Visit) (s : σ) :
    Stage.answer (v.lower t callables) s =
      match callables[v.id]? with
      | none => .error (.noCallable v.name)
      | some c =>
        match Stage.answer (c.lower t) s with
        | .error e => .error e
        | .ok d =>
          if d.id = v.name then .ok d else .error (.closure (.nameMismatch v.name d.id)) := by
  unfold Visit.lower
  cases callables[v.id]? with
  | none => rfl
  | some c =>
    simp only [Stage.answer_bind]
    cases Stage.answer (c.lower t) s with
    | error e => rfl
    | ok d =>
      by_cases hid : d.id = v.name
      · simp [hid]
      · simp [hid]

theorem Visit.answer_lower_eq_ok_iff {t : Toolchain σ} {callables : List Callable} {v : Visit}
    {s : σ} {d : Fencil.Definition} :
    Stage.answer (v.lower t callables) s = .ok d ↔
      LowersTo t callables s v.id d ∧ d.id = v.name := by
  rw [Visit.answer_lower]
  constructor
  · intro h
    split at h
    · cases h
    · rename_i c hc
      split at h
      · cases h
      · rename_i d' hd
        split at h
        · rename_i hid
          cases h
          exact ⟨⟨c, hc, hd⟩, hid⟩
        · cases h
  · intro h
    obtain ⟨⟨c, hc, hd⟩, hid⟩ := h
    rw [hc]
    simp only [hd, if_pos hid]

theorem Visit.after_lower (t : Toolchain σ) (callables : List Callable) (v : Visit) (s : σ) :
    Stage.after (v.lower t callables) s =
      match callables[v.id]? with
      | none => s
      | some c => Stage.after (c.lower t) s := by
  unfold Visit.lower
  cases callables[v.id]? with
  | none => rfl
  | some c =>
    simp only [Stage.after_bind]
    cases Stage.answer (c.lower t) s with
    | error e => rfl
    | ok d =>
      by_cases hid : d.id = v.name
      · simp [hid]
      · simp [hid]

theorem Toolchain.Steady.visit {t : Toolchain σ} (h : t.Steady) (callables : List Callable) :
    Stage.Steady (Visit.lower t callables) := by
  intro s v v'
  rw [Visit.answer_lower, Visit.answer_lower, Visit.after_lower]
  cases callables[v'.id]? with
  | none => rfl
  | some c' =>
    cases callables[v.id]? with
    | none => rfl
    | some c => simp only [h.callable s c c']

/-! ## The ledger -/

namespace Ledger

theorem answer_lowerOperator (config : Config) (op : Operator) (l : Ledger) :
    Stage.answer ((toolchain config).lowerOperator op) l =
      if l.refusedIds.contains op.id then .error (refusal "lowering" op.id)
      else .ok (operatorDefinition op) := by
  simp only [toolchain, Stage.answer_bind]
  show Stage.answer (if l.refusedIds.contains op.id = true then _ else _) _ = _
  by_cases h : l.refusedIds.contains op.id = true
  · rw [if_pos h, if_pos h]
    rfl
  · rw [if_neg h, if_neg h]
    rfl

theorem after_lowerOperator (config : Config) (op : Operator) (l : Ledger) :
    Stage.after ((toolchain config).lowerOperator op) l =
      { l with operators := l.operators + 1 } := by
  simp only [toolchain, Stage.after_bind]
  show Stage.after (if l.refusedIds.contains op.id = true then _ else _) _ = _
  by_cases h : l.refusedIds.contains op.id = true
  · rw [if_pos h]
    rfl
  · rw [if_neg h]
    rfl

/-- The ledger counts, and what it refuses stays the same. -/
theorem steady_toolchain (config : Config) : (toolchain config).Steady := by
  intro l op op'
  rw [answer_lowerOperator, answer_lowerOperator, after_lowerOperator]

end Ledger

end FieldView
