import FieldView.Proofs.Closure.Route
import FieldView.Proofs.Toolchain.Family
import FieldView.Proofs.Toolchain.Requests

/-!
# What a call does

A call looks at its arguments before anything else, and there are three things it can find wrong
with them: how many there are, that some have a name, and that a field has too few extents. It
reports the first of these that applies. `call_outcome` says what follows for the bench and for the
toolchain: a call that is refused for its arguments has asked nothing and changed nothing, one whose
program cannot be lowered has executed nothing, and any other has executed exactly once.

Which argument is at fault is said without the loop that finds it: `Symbol.Misfits` is a fact about
one parameter and its argument, and the fault reported is that of the first pair for which it holds.
-/

set_option autoImplicit false

namespace FieldView

variable {σ : Type}

/-! ## One argument -/

namespace Symbol

/-- The parameter is a field over `expected` dimensions, and the argument a field with fewer
extents, `given` of them. -/
def Misfits (param : Symbol) (arg : Argument) (expected given : Nat) : Prop :=
  ∃ names dtype kind shape, param.ty = some (.field (.known names) dtype) ∧
    arg = .field kind (some shape) ∧ names.length = expected ∧ shape.length = given ∧
    given < expected

def Fits (param : Symbol) (arg : Argument) : Prop :=
  ∀ expected given, ¬ param.Misfits arg expected given

theorem Misfits.sizes_eq {param : Symbol} {arg : Argument} {expected given : Nat}
    (h : param.Misfits arg expected given) :
    param.sizes arg = .error (.shape param.id expected given) := by
  obtain ⟨names, dtype, kind, shape, hty, rfl, rfl, rfl, hlt⟩ := h
  simp only [sizes, hty, if_pos hlt]

theorem Fits.exists_sizes {param : Symbol} {arg : Argument} (h : param.Fits arg) :
    ∃ sizes, param.sizes arg = .ok sizes := by
  unfold sizes
  split
  · rename_i dims dtype hty
    split
    · exact ⟨_, rfl⟩
    · rename_i kind shape names
      by_cases hlt : shape.length < names.length
      · exact absurd ⟨names, dtype, kind, shape, hty, rfl, rfl, rfl, hlt⟩ (h _ _)
      · rw [if_neg hlt]
        exact ⟨_, rfl⟩
    · exact ⟨_, rfl⟩
  · exact ⟨_, rfl⟩

end Symbol

/-! ## All arguments -/

namespace Program

theorem exists_sizesOf {pairs : List (Symbol × Argument)}
    (h : ∀ pair ∈ pairs, pair.1.Fits pair.2) : ∃ sizes, sizesOf pairs = .ok sizes := by
  induction pairs with
  | nil => exact ⟨[], rfl⟩
  | cons pair pairs ih =>
    obtain ⟨sizes, hsizes⟩ := (h pair List.mem_cons_self).exists_sizes
    obtain ⟨more, hmore⟩ := ih fun p hp => h p (List.mem_cons_of_mem _ hp)
    exact ⟨sizes ++ more, by simp [sizesOf, hsizes, hmore]⟩

/-- The first misfit decides, whatever follows it. -/
theorem sizesOf_of_misfits {before after : List (Symbol × Argument)} {param : Symbol}
    {arg : Argument} {expected given : Nat} (hbefore : ∀ pair ∈ before, pair.1.Fits pair.2)
    (h : param.Misfits arg expected given) :
    sizesOf (before ++ (param, arg) :: after) = .error (.shape param.id expected given) := by
  induction before with
  | nil => simp [sizesOf, h.sizes_eq]
  | cons pair before ih =>
    obtain ⟨sizes, hsizes⟩ := (hbefore pair List.mem_cons_self).exists_sizes
    have hrest := ih fun p hp => hbefore p (List.mem_cons_of_mem _ hp)
    simp [sizesOf, hsizes, hrest]

variable {p : Program} {args : List Argument} {kwargs : NameMap Argument}

theorem invocation_of_length_ne (h : args.length ≠ p.params.length) :
    p.invocation args kwargs = .error (.argumentCount p.id p.params.length args.length) := by
  simp [invocation, h]

theorem invocation_of_keywords (hlength : args.length = p.params.length)
    (h : kwargs.isEmpty = false) : p.invocation args kwargs = .error (.keywords kwargs.keys) := by
  simp [invocation, hlength, h]

theorem invocation_of_misfits (hlength : args.length = p.params.length)
    (hkwargs : kwargs.isEmpty = true) {before after : List (Symbol × Argument)} {param : Symbol}
    {arg : Argument} {expected given : Nat}
    (hpairs : p.params.zip args = before ++ (param, arg) :: after)
    (hbefore : ∀ pair ∈ before, pair.1.Fits pair.2) (h : param.Misfits arg expected given) :
    p.invocation args kwargs = .error (.shape param.id expected given) := by
  simp [invocation, hlength, hkwargs, hpairs, sizesOf_of_misfits hbefore h]

theorem exists_invocation (hlength : args.length = p.params.length)
    (hkwargs : kwargs.isEmpty = true) (h : ∀ pair ∈ p.params.zip args, pair.1.Fits pair.2) :
    ∃ i, p.invocation args kwargs = .ok i := by
  obtain ⟨sizes, hsizes⟩ := exists_sizesOf h
  refine ⟨{ args := (p.params.zip args).map fun pair => pair.1.adapt pair.2, sizes }, ?_⟩
  simp [invocation, hlength, hkwargs, hsizes]

end Program

/-- The names of a map come in ascending order. -/
theorem NameMap.pairwise_keys {α : Type} (m : NameMap α) : m.keys.Pairwise (· < ·) := by
  refine Std.TreeMap.ordered_keys.imp ?_
  intro a b h
  exact compare_eq_lt_iff.mp h

/-! ## The report -/

theorem Config.backend_report (c : Config) (backend : Option String) (program : String) :
    (c.report backend program).backend = backend.getD c.defaultBackend := by
  cases backend with
  | none => rfl
  | some backend => rfl

theorem Config.warnings_report_ne_nil_iff (c : Config) (backend : Option String)
    (program : String) :
    (c.report backend program).warnings ≠ [] ↔ backend = none ∧ c.warnOnDefaultBackend = true := by
  cases backend with
  | some backend => simp [Config.report]
  | none => simp [Config.report]

/-! ## Calls -/

namespace ProgramUnit

variable {u : ProgramUnit} {args : List Argument} {kwargs : NameMap Argument}
  {offsets : OffsetProvider}

/-- What the toolchain is asked in a call. -/
def callRequests (t : Toolchain σ) (u : ProgramUnit) (args : List Argument)
    (kwargs : NameMap Argument) (offsets : OffsetProvider) (b : Bench σ) : List Request :=
  (Stage.after (u.call t.logged args kwargs offsets) (b.withLog [])).tools.2

theorem call_of_refused {e : Error} (h : u.invocation args kwargs = .error e) (t : Toolchain σ)
    (b : Bench σ) : u.call t args kwargs offsets b = (.error e, b) := by
  unfold call
  rw [h]
  rfl

theorem call_of_accepted {i : Invocation} (h : u.invocation args kwargs = .ok i)
    (t : Toolchain σ) (b : Bench σ) :
    u.call t args kwargs offsets b = (u.lower t >>= fun f =>
      Task.consult (t.execute f i offsets (t.config.report u.backend f.id).backend) >>= fun _ =>
        pure (t.config.report u.backend f.id)) b := by
  unfold call
  rw [h]
  rfl

theorem call_of_not_lowered {i : Invocation} (h : u.invocation args kwargs = .ok i)
    {t : Toolchain σ} {b b' : Bench σ} {e : Error} (hlower : u.lower t b = (.error e, b')) :
    u.call t args kwargs offsets b = (.error e, b') := by
  rw [call_of_accepted h, Stage.run_bind, hlower]

theorem call_of_lowered {i : Invocation} (h : u.invocation args kwargs = .ok i)
    {t : Toolchain σ} {b b' : Bench σ} {f : Fencil} (hlower : u.lower t b = (.ok f, b')) :
    u.call t args kwargs offsets b =
      let report := t.config.report u.backend f.id
      let run := t.execute f i offsets report.backend b'.tools
      (run.1.map fun _ => report, { b' with tools := run.2 }) := by
  rw [call_of_accepted h, Stage.bind_of_ok hlower, Stage.run_bind, Task.consult]
  dsimp only
  rcases t.execute f i offsets (t.config.report u.backend f.id).backend b'.tools with ⟨_ | _, tools⟩
  · rfl
  · rfl

theorem logs_call (t : Toolchain σ) (u : ProgramUnit) (args : List Argument)
    (kwargs : NameMap Argument) (offsets : OffsetProvider) :
    Logs Bench.withLog (fun _ => true) (u.call t args kwargs offsets)
      (u.call t.logged args kwargs offsets) := by
  unfold call
  refine Logs.bind (Logs.of_silent fun _ _ => rfl) fun i => ?_
  refine ((logs_lower t u).mono fun _ _ => rfl).bind fun f => ?_
  refine (Logs.consult (Logs.logged rfl _)).bind fun _ => ?_
  exact Logs.pure _

theorem call_logged (t : Toolchain σ) (u : ProgramUnit) (args : List Argument)
    (kwargs : NameMap Argument) (offsets : OffsetProvider) (b : Bench σ) :
    u.call t.logged args kwargs offsets (b.withLog []) =
      ((u.call t args kwargs offsets b).1,
        (u.call t args kwargs offsets b).2.withLog (u.callRequests t args kwargs offsets b)) := by
  obtain ⟨more, -, hrun⟩ := logs_call t u args kwargs offsets b []
  rw [List.nil_append] at hrun
  have hlog : u.callRequests t args kwargs offsets b = more := by
    unfold callRequests Stage.after
    rw [hrun]
    rfl
  rw [hlog]
  exact hrun

/-- A call that is refused for its arguments asks nothing. -/
theorem callRequests_of_refused {e : Error} (h : u.invocation args kwargs = .error e)
    (t : Toolchain σ) (b : Bench σ) : u.callRequests t args kwargs offsets b = [] := by
  unfold callRequests Stage.after
  rw [call_of_refused h]
  rfl

theorem callRequests_of_not_lowered {i : Invocation} (h : u.invocation args kwargs = .ok i)
    {t : Toolchain σ} {b b' : Bench σ} {e : Error} (hlower : u.lower t b = (.error e, b')) :
    u.callRequests t args kwargs offsets b = u.lowerRequests t b := by
  have hlogged := (lower_logged t u b).1
  rw [Stage.answer, Stage.after, hlower] at hlogged
  unfold callRequests Stage.after
  rw [call_of_not_lowered h hlogged]
  rfl

theorem callRequests_of_lowered {i : Invocation} (h : u.invocation args kwargs = .ok i)
    {t : Toolchain σ} {b b' : Bench σ} {f : Fencil} (hlower : u.lower t b = (.ok f, b')) :
    u.callRequests t args kwargs offsets b =
      u.lowerRequests t b ++
        [.execute f i offsets (t.config.report u.backend f.id).backend] := by
  have hlogged := (lower_logged t u b).1
  rw [Stage.answer, Stage.after, hlower] at hlogged
  unfold callRequests Stage.after
  rw [call_of_lowered h hlogged]
  rfl

/-- **What a call does**, for any program, arguments, bench and toolchain. `asked` is what the
toolchain is asked on the way; the first clause says that writing this down changes nothing else.

The wrong number of arguments, then arguments with a name, then the first field with too few extents
is reported, with the bench as it was and nothing asked. Otherwise the program is lowered. If that
fails, its error is the answer and only lowerings have been asked for. If it succeeds, there is one
request to execute after it, whose outcome is that of the call; the report names the backend that
was asked, and warns exactly when the unit has none of its own and the configuration asks for
warnings. -/
theorem call_outcome (t : Toolchain σ) (u : ProgramUnit) (args : List Argument)
    (kwargs : NameMap Argument) (offsets : OffsetProvider) (b : Bench σ) :
    let call := u.call t args kwargs offsets b
    let asked := u.callRequests t args kwargs offsets b
    let pairs := u.node.params.zip args
    u.call t.logged args kwargs offsets (b.withLog []) = (call.1, call.2.withLog asked) ∧
    (args.length ≠ u.node.params.length →
      call = (.error (.call (.argumentCount u.node.id u.node.params.length args.length)), b) ∧
        asked = []) ∧
    (args.length = u.node.params.length → kwargs.isEmpty = false →
      ∃ names, names.Pairwise (· < ·) ∧ (∀ name, name ∈ names ↔ name ∈ kwargs) ∧
        call = (.error (.call (.keywords names)), b) ∧ asked = []) ∧
    (args.length = u.node.params.length → kwargs.isEmpty = true →
      (∀ before param arg after expected given, pairs = before ++ (param, arg) :: after →
        (∀ pair ∈ before, pair.1.Fits pair.2) → param.Misfits arg expected given →
        call = (.error (.call (.shape param.id expected given)), b) ∧ asked = []) ∧
      ((∀ pair ∈ pairs, pair.1.Fits pair.2) →
        (u.lowerRequests t b).all Request.isLowering = true ∧
        (∀ e b', u.lower t b = (.error e, b') →
          call = (.error e, b') ∧ asked = u.lowerRequests t b) ∧
        ∀ f b', u.lower t b = (.ok f, b') →
          ∃ i report, u.invocation args kwargs = .ok i ∧
            asked = u.lowerRequests t b ++ [.execute f i offsets report.backend] ∧
            (let run := t.execute f i offsets report.backend b'.tools
             call = (run.1.map fun _ => report, { b' with tools := run.2 })) ∧
            report.backend = u.backend.getD t.config.defaultBackend ∧
            (report.warnings ≠ [] ↔
              u.backend = none ∧ t.config.warnOnDefaultBackend = true))) := by
  intro call asked pairs
  -- What is wrong with the arguments is an error of the call, whatever the toolchain.
  have hrefused : ∀ e, u.node.invocation args kwargs = .error e →
      call = (.error (.call e), b) ∧ asked = [] := by
    intro e he
    have hinvocation : u.invocation args kwargs = .error (.call e) := by
      unfold ProgramUnit.invocation
      rw [he]
    exact ⟨call_of_refused hinvocation t b, callRequests_of_refused hinvocation t b⟩
  refine ⟨call_logged t u args kwargs offsets b, ?_, ?_, ?_⟩
  · intro hlength
    exact hrefused _ (Program.invocation_of_length_ne hlength)
  · intro hlength hkwargs
    refine ⟨kwargs.keys, NameMap.pairwise_keys kwargs, ?_, ?_⟩
    · intro name
      exact Std.TreeMap.mem_keys
    · exact hrefused _ (Program.invocation_of_keywords hlength hkwargs)
  · intro hlength hkwargs
    refine ⟨?_, ?_⟩
    · intro before param arg after expected given hpairs hbefore hmisfits
      exact hrefused _ (Program.invocation_of_misfits hlength hkwargs hpairs hbefore hmisfits)
    · intro hfits
      obtain ⟨i, hi⟩ := Program.exists_invocation hlength hkwargs hfits
      have hinvocation : u.invocation args kwargs = .ok i := by
        unfold ProgramUnit.invocation
        rw [hi]
      refine ⟨(lower_logged t u b).2, ?_, ?_⟩
      · intro e b' hlower
        exact ⟨call_of_not_lowered hinvocation hlower,
          callRequests_of_not_lowered hinvocation hlower⟩
      · intro f b' hlower
        exact ⟨i, t.config.report u.backend f.id, hinvocation,
          callRequests_of_lowered hinvocation hlower, call_of_lowered hinvocation hlower,
          t.config.backend_report u.backend f.id,
          t.config.warnings_report_ne_nil_iff u.backend f.id⟩

/-- A program on a scalar and a field over two dimensions. -/
def scaling : ProgramUnit :=
  let loc : Location := { source := "ops.py", line := 1, column := 1 }
  let param (id : String) (ty : Ty) : Symbol := { id, ty := some ty, space := .local, loc }
  let kind : ScalarTy := { kind := .float64 }
  { node :=
      { id := "scaling"
        params := [param "x" (.scalar kind), param "y" (.field (.known ["I", "J"]) kind)]
        body := []
        captured := []
        loc }
    captured := {}
    fencil := 0 }

/-- A field with one extent is refused after the scalar before it was taken, and the toolchain,
which would have lowered the program, is not asked. A program without parameters is lowered and
executed, once each. -/
theorem call_outcome_fickle :
    let arg : Argument := .field .float64 (some [3])
    let y : Symbol :=
      { id := "y", ty := some (.field (.known ["I", "J"]) { kind := .float64 }), space := .local
        loc := { source := "ops.py", line := 1, column := 1 } }
    let b : Bench Nat := { fencils := [none], tools := 1 }
    let f : Fencil := { id := "first", definitions := [], params := [], closures := [] }
    y.Misfits arg 2 1 ∧
    scaling.call Family.fickle [.scalar (.bool true), arg] {} {} b =
      (.error (.call (.shape "y" 2 1)), b) ∧
    scaling.callRequests Family.fickle [.scalar (.bool true), arg] {} {} b = [] ∧
    Family.idle.lower Family.fickle b = (.ok f, { fencils := [some f], tools := 2 }) ∧
    Family.idle.callRequests Family.fickle [] {} {} b =
      [.lowerProgram Family.idle.node [],
        .execute f { args := [], sizes := [] } {} "roundtrip"] := by
  intro arg y b f
  have hmisfits : y.Misfits arg 2 1 := ⟨["I", "J"], _, _, [3], rfl, rfl, rfl, rfl, by decide⟩
  have hscalar : ∀ pair ∈ (scaling.node.params.zip [.scalar (.bool true), arg]).take 1,
      pair.1.Fits pair.2 := by
    intro pair hpair
    obtain rfl := List.mem_singleton.mp hpair
    rintro _ _ ⟨_, _, _, _, hty, -⟩
    cases hty
  obtain ⟨hcall, hasked⟩ :=
    ((call_outcome Family.fickle scaling [.scalar (.bool true), arg] {} {} b).2.2.2 rfl rfl).1
      _ y arg [] 2 1 rfl hscalar hmisfits
  have hlower : Family.idle.lower Family.fickle b = (.ok f, { fencils := [some f], tools := 2 }) :=
    Family.lower_of_closed rfl rfl rfl
  have hrequests : Family.idle.lowerRequests Family.fickle b =
      [.lowerProgram Family.idle.node []] := by
    unfold lowerRequests Stage.after
    rw [Family.lower_of_closed rfl rfl rfl]
    rfl
  obtain ⟨-, -, hexecuted⟩ :=
    ((call_outcome Family.fickle Family.idle [] {} {} b).2.2.2 rfl rfl).2 (by simp [Family.idle])
  obtain ⟨i, report, hi, honce, -, hbackend, -⟩ := hexecuted f _ hlower
  cases hi
  rw [hrequests, hbackend] at honce
  exact ⟨hmisfits, hcall, hasked, hlower, honce⟩

end ProgramUnit

end FieldView
