import FieldView.Proofs.Toolchain.Lowering
import FieldView.Toolchain.Calling

/-!
# The kept fencil of a unit

Lowering looks at one place of the bench. If a fencil is kept there, that is the answer, and neither
lowering nor calling asks the toolchain to lower anything: `lower_of_kept` and `call_of_kept` hold of
any toolchain, and the call that is left (`callOn`) is not given the stages that lower. If none is
kept the unit is lowered anew, and the place is filled exactly when that succeeds
(`fencils_after_lower`).

Other places are neither read nor changed (`lower_put`).
-/

set_option autoImplicit false

namespace FieldView

variable {σ α β : Type}

theorem Stage.run_bind (x : Stage σ α) (f : α → Stage σ β) (s : σ) :
    (x >>= f) s =
      match x s with
      | (.ok a, s') => f a s'
      | (.error e, s') => (.error e, s') := by
  simp only [bind, ExceptT.bind, ExceptT.mk, StateT.bind, ExceptT.bindCont]
  rcases x s with ⟨_ | a, s'⟩
  · rfl
  · rfl

theorem Stage.bind_of_ok {x : Stage σ α} {f : α → Stage σ β} {s s' : σ} {a : α}
    (h : x s = (.ok a, s')) : (x >>= f) s = f a s' := by
  rw [run_bind, h]

/-- The bench with a fencil, or with none, put at a place. -/
def Bench.put (b : Bench σ) (place : Nat) (f? : Option Fencil) : Bench σ :=
  { b with fencils := b.fencils.set place f? }

/-- Fencils with an answer of lowering put at its place. A failure puts nothing. -/
def fill (fencils : List (Option Fencil)) (place : Nat) :
    Except Error Fencil → List (Option Fencil)
  | .ok f => fencils.set place (some f)
  | .error _ => fencils

theorem length_fill (fencils : List (Option Fencil)) (place : Nat) (answer : Except Error Fencil) :
    (fill fencils place answer).length = fencils.length := by
  cases answer with
  | error e => rfl
  | ok f => exact List.length_set

namespace ProgramUnit

variable {t : Toolchain σ} {u : ProgramUnit} {b : Bench σ}

/-- The fencil that is kept for a unit. -/
def kept? (u : ProgramUnit) (b : Bench σ) : Option Fencil := b.fencils[u.fencil]?.join

theorem kept?_of_set {u : ProgramUnit} {b b' : Bench σ} {f? : Option Fencil}
    (hb : b'.fencils = b.fencils.set u.fencil f?) (h : u.fencil < b.fencils.length) :
    u.kept? b' = f? := by
  unfold kept?
  rw [hb, List.getElem?_set_self h]
  rfl

theorem kept?_of_set_ne {u : ProgramUnit} {b b' : Bench σ} {place : Nat} {f? : Option Fencil}
    (hb : b'.fencils = b.fencils.set place f?) (h : place ≠ u.fencil) :
    u.kept? b' = u.kept? b := by
  unfold kept?
  rw [hb, List.getElem?_set_ne h]

theorem kept?_of_fill_ne {u : ProgramUnit} {b b' : Bench σ} {place : Nat}
    {answer : Except Error Fencil} (hb : b'.fencils = fill b.fencils place answer)
    (h : place ≠ u.fencil) : u.kept? b' = u.kept? b := by
  cases answer with
  | error e =>
    unfold kept?
    rw [hb]
    rfl
  | ok f => exact kept?_of_set_ne hb h

/-! ## Lowering -/

/-- Lowers a unit whatever is kept, and keeps the fencil. -/
def lowerAndKeep (t : Toolchain σ) (u : ProgramUnit) : Task σ Fencil := do
  let f ← u.lowerAnew t
  Task.keepFencil u.fencil f
  return f

theorem lower_of_kept {f : Fencil} (h : u.kept? b = some f) (t : Toolchain σ) :
    u.lower t b = (.ok f, b) := by
  unfold lower
  have hfencil : (Task.fencil? u.fencil : Task σ (Option Fencil)) b = (.ok (u.kept? b), b) := rfl
  rw [Stage.bind_of_ok hfencil, h]
  rfl

theorem lower_of_not_kept (h : u.kept? b = none) : u.lower t b = u.lowerAndKeep t b := by
  unfold lower
  have hfencil : (Task.fencil? u.fencil : Task σ (Option Fencil)) b = (.ok (u.kept? b), b) := rfl
  rw [Stage.bind_of_ok hfencil, h]
  rfl

theorem lowerAndKeep_eq (t : Toolchain σ) (u : ProgramUnit) (b : Bench σ) :
    u.lowerAndKeep t b =
      match Stage.answer (u.lowerAnew t) b with
      | .ok f => (.ok f, (Stage.after (u.lowerAnew t) b).put u.fencil (some f))
      | .error e => (.error e, Stage.after (u.lowerAnew t) b) := by
  unfold lowerAndKeep Stage.answer Stage.after
  rw [Stage.run_bind]
  rcases u.lowerAnew t b with ⟨_ | f, b'⟩
  · rfl
  · rfl

/-- The place of a unit is filled by a success and left alone by a failure. -/
theorem fencils_after_lower (t : Toolchain σ) (u : ProgramUnit) (b : Bench σ) :
    (Stage.after (u.lower t) b).fencils =
      fill b.fencils u.fencil (Stage.answer (u.lower t) b) := by
  unfold Stage.after Stage.answer
  cases hkept : u.kept? b with
  | some f =>
    -- The fencil is put where it is already.
    rw [lower_of_kept hkept]
    have hplace : b.fencils[u.fencil]? = some (some f) := Option.join_eq_some_iff.mp hkept
    obtain ⟨hlt, hget⟩ := List.getElem?_eq_some_iff.mp hplace
    show b.fencils = b.fencils.set u.fencil (some f)
    rw [← hget, List.set_getElem_self]
  | none =>
    rw [lower_of_not_kept hkept, lowerAndKeep_eq]
    have hsame := fencils_after_lowerAnew t u b
    cases Stage.answer (u.lowerAnew t) b with
    | error e => exact hsame
    | ok f =>
      show (Stage.after (u.lowerAnew t) b).fencils.set u.fencil (some f) =
        b.fencils.set u.fencil (some f)
      rw [hsame]

/-- What is kept was the answer. -/
theorem kept?_eq_none_of_error {e : Error} (h : Stage.answer (u.lower t) b = .error e) :
    u.kept? b = none := by
  cases hkept : u.kept? b with
  | none => rfl
  | some f =>
    unfold Stage.answer at h
    rw [lower_of_kept hkept] at h
    cases h

theorem eq_of_kept? {f f' : Fencil} (h : Stage.answer (u.lower t) b = .ok f)
    (hkept : u.kept? b = some f') : f' = f := by
  unfold Stage.answer at h
  rw [lower_of_kept hkept] at h
  exact Except.ok.inj h

/-! ## Other places -/

/-- Lowering anew does not look at what is kept. -/
theorem lowerAnew_put (t : Toolchain σ) (u : ProgramUnit) (b : Bench σ) (place : Nat)
    (f? : Option Fencil) :
    Stage.answer (u.lowerAnew t) (b.put place f?) = Stage.answer (u.lowerAnew t) b ∧
      Stage.after (u.lowerAnew t) (b.put place f?) =
        (Stage.after (u.lowerAnew t) b).put place f? := by
  unfold lowerAnew
  cases u.check with
  | error e => exact ⟨rfl, rfl⟩
  | ok _ => exact ⟨rfl, rfl⟩

/-- **Lowering neither reads nor changes another place**: it does the same whatever is put there, and
what is put there stays. -/
theorem lower_put {place : Nat} (hne : place ≠ u.fencil) (t : Toolchain σ) (b : Bench σ)
    (f? : Option Fencil) :
    u.lower t (b.put place f?) =
      (Stage.answer (u.lower t) b, (Stage.after (u.lower t) b).put place f?) := by
  have hsame : u.kept? (b.put place f?) = u.kept? b := kept?_of_set_ne rfl hne
  unfold Stage.answer Stage.after
  cases hkept : u.kept? b with
  | some f =>
    rw [lower_of_kept hkept, lower_of_kept (hsame.trans hkept)]
  | none =>
    rw [lower_of_not_kept hkept, lower_of_not_kept (hsame.trans hkept), lowerAndKeep_eq,
      lowerAndKeep_eq]
    obtain ⟨hanswer, hafter⟩ := lowerAnew_put t u b place f?
    rw [hanswer, hafter]
    cases Stage.answer (u.lowerAnew t) b with
    | error e => rfl
    | ok f =>
      show (_, ((Stage.after (u.lowerAnew t) b).put place f?).put u.fencil (some f)) =
        (_, ((Stage.after (u.lowerAnew t) b).put u.fencil (some f)).put place f?)
      unfold Bench.put
      rw [List.set_comm _ _ hne]

/-! ## Calling -/

/-- Calls a program with a given fencil. The stages that lower are not at hand. -/
def callOn (config : Config)
    (execute : Fencil → Invocation → OffsetProvider → String → Stage σ Unit) (f : Fencil)
    (u : ProgramUnit) (args : List Argument) (kwargs : NameMap Argument)
    (offsets : OffsetProvider) : Task σ CallReport := do
  let invocation ← Task.ofExcept (u.invocation args kwargs)
  let report := config.report u.backend f.id
  Task.consult (execute f invocation offsets report.backend)
  return report

theorem call_of_kept {f : Fencil} (h : u.kept? b = some f) (t : Toolchain σ)
    (args : List Argument) (kwargs : NameMap Argument) (offsets : OffsetProvider) :
    u.call t args kwargs offsets b = u.callOn t.config t.execute f args kwargs offsets b := by
  unfold call callOn
  cases u.invocation args kwargs with
  | error e => rfl
  | ok invocation =>
    have hok : (Task.ofExcept (.ok invocation) : Task σ Invocation) b = (.ok invocation, b) := rfl
    rw [Stage.bind_of_ok hok, Stage.bind_of_ok hok, Stage.bind_of_ok (lower_of_kept h t)]

/-- A call fills the place of its unit as lowering does, unless its arguments are wrong. -/
theorem fencils_after_call (t : Toolchain σ) (u : ProgramUnit) (args : List Argument)
    (kwargs : NameMap Argument) (offsets : OffsetProvider) (b : Bench σ) :
    (Stage.after (u.call t args kwargs offsets) b).fencils =
      match u.invocation args kwargs with
      | .error _ => b.fencils
      | .ok _ => (Stage.after (u.lower t) b).fencils := by
  unfold call
  cases u.invocation args kwargs with
  | error e => rfl
  | ok invocation =>
    have hok : (Task.ofExcept (.ok invocation) : Task σ Invocation) b = (.ok invocation, b) := rfl
    unfold Stage.after
    rw [Stage.bind_of_ok hok, Stage.run_bind]
    rcases u.lower t b with ⟨_ | f, b'⟩
    · rfl
    · -- Execution has the toolchain do its work, and nothing is kept of it.
      show (Stage.after (Task.consult _ >>= fun _ => pure _) b').fencils = b'.fencils
      rw [Stage.after_bind]
      cases Stage.answer (Task.consult _) b' with
      | error e => rfl
      | ok _ => rfl

end ProgramUnit

end FieldView
