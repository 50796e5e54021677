import FieldView.Proofs.Toolchain.Calling

/-!
# What an execution is given

A call makes two lists of its arguments, of different lengths. The first has one place for every
parameter; the second is made of the extents of the fields, of which a parameter may add none, one
or many. What each parameter does is said by itself: `Symbol.HandsOn` for its place in the first
list, and `Symbol.Adds` for its part of the second. The parts are those of the parameters that are
fields, in their order, and of no others (`Program.parts_of_sizesOf`); so an extent in the second
list belongs to the parameter at whose part it stands.
-/

set_option autoImplicit false

namespace FieldView

namespace Symbol

/-! ## One argument -/

/-- What an execution is given for an argument: a scalar for a scalar parameter as a constant field
of the parameter's kind, and any other as it is. -/
inductive HandsOn (param : Symbol) : Argument → Argument → Prop
  | lifted {s : ScalarTy} {value : ScalarValue} :
      param.ty = some (.scalar s) → HandsOn param (.scalar value) (.constant value s.kind)
  | unchanged {arg : Argument} :
      (∀ s value, param.ty = some (.scalar s) → arg ≠ .scalar value) → HandsOn param arg arg

theorem handsOn_adapt (param : Symbol) (arg : Argument) : param.HandsOn arg (param.adapt arg) := by
  unfold adapt
  split
  · rename_i s value hty
    exact .lifted hty
  · rename_i hother
    refine .unchanged ?_
    intro s value hty harg
    exact hother s value hty harg

/-- The parameter has a field type. -/
def isField (param : Symbol) : Bool := (Deduced.dims? param.ty).isSome

theorem isField_iff {param : Symbol} :
    param.isField = true ↔ ∃ dims dtype, param.ty = some (.field dims dtype) := by
  unfold isField Deduced.dims?
  split
  · rename_i dims dtype hty
    simp [hty]
  · rename_i hother
    simp only [Option.isSome_none, Bool.false_eq_true, false_iff, not_exists]
    exact hother

/-- The sizes that come from the argument of a field parameter: all extents of the shape if the
dimensions may be any, as many as there are dimensions if these are known, and one unknown size for
a field without storage and for what is no field. -/
inductive Adds (param : Symbol) : Argument → List (Option Nat) → Prop
  | any {dtype : ScalarTy} {kind : ScalarKind} {shape : List Nat} :
      param.ty = some (.field .any dtype) → Adds param (.field kind (some shape)) (shape.map some)
  | known {names : List String} {dtype : ScalarTy} {kind : ScalarKind} {shape : List Nat} :
      param.ty = some (.field (.known names) dtype) →
      Adds param (.field kind (some shape)) ((shape.take names.length).map some)
  | unallocated {kind : ScalarKind} : Adds param (.field kind none) [none]
  | noField {arg : Argument} : (∀ kind shape, arg ≠ .field kind shape) → Adds param arg [none]

theorem adds_of_sizes {param : Symbol} {arg : Argument} {sizes : List (Option Nat)}
    (hfield : param.isField = true) (h : param.sizes arg = .ok sizes) : param.Adds arg sizes := by
  obtain ⟨dims, dtype, hty⟩ := isField_iff.mp hfield
  simp only [Symbol.sizes, hty] at h
  cases arg with
  | scalar value =>
    cases h
    exact .noField (by simp)
  | constant value kind =>
    cases h
    exact .noField (by simp)
  | field kind shape? =>
    cases shape? with
    | none =>
      cases h
      exact .unallocated
    | some shape =>
      cases dims with
      | any =>
        cases h
        exact .any hty
      | known names =>
        -- A shape with too few extents was refused.
        simp only at h
        split at h
        · cases h
        · cases h
          exact .known hty

theorem sizes_of_not_isField {param : Symbol} (arg : Argument) (h : param.isField = false) :
    param.sizes arg = .ok [] := by
  unfold sizes
  split
  · rename_i dims dtype hty
    have := isField_iff.mpr ⟨dims, dtype, hty⟩
    simp [h] at this
  · rfl

/-- The number of dimensions that are known for a parameter; none unless it is a field. -/
def rank (param : Symbol) : Nat :=
  match param.ty with
  | some (.field (.known names) _) => names.length
  | _ => 0

/-- If the parameter is a field, its dimensions are known and the argument is a field with
storage. -/
def Settled (param : Symbol) (arg : Argument) : Prop :=
  param.isField = true →
    (∃ names dtype, param.ty = some (.field (.known names) dtype)) ∧
      ∃ kind shape, arg = .field kind (some shape)

theorem length_sizes_of_settled {param : Symbol} {arg : Argument} {sizes : List (Option Nat)}
    (hsettled : param.Settled arg) (h : param.sizes arg = .ok sizes) :
    sizes.length = param.rank := by
  by_cases hfield : param.isField = true
  · obtain ⟨⟨names, dtype, hty⟩, kind, shape, rfl⟩ := hsettled hfield
    simp only [Symbol.sizes, hty] at h
    split at h
    · cases h
    · rename_i henough
      cases h
      have hrank : param.rank = names.length := by simp only [rank, hty]
      rw [hrank, List.length_map, List.length_take]
      omega
  · have hother : param.isField = false := by simpa using hfield
    rw [sizes_of_not_isField arg hother] at h
    cases h
    unfold rank
    split
    · rename_i names dtype hty
      exact absurd (isField_iff.mpr ⟨_, dtype, hty⟩) hfield
    · rfl

theorem fits_of_sizes {param : Symbol} {arg : Argument} {sizes : List (Option Nat)}
    (h : param.sizes arg = .ok sizes) : param.Fits arg := by
  intro expected given hmisfits
  rw [hmisfits.sizes_eq] at h
  cases h

end Symbol

/-! ## All arguments -/

namespace Program

/-- One more parameter adds its sizes before those of the others. -/
theorem sizesOf_cons_eq_ok {pair : Symbol × Argument} {pairs : List (Symbol × Argument)}
    {sizes : List (Option Nat)} :
    sizesOf (pair :: pairs) = .ok sizes ↔
      ∃ first more, pair.1.sizes pair.2 = .ok first ∧ sizesOf pairs = .ok more ∧
        sizes = first ++ more := by
  rw [sizesOf]
  cases pair.1.sizes pair.2 with
  | error e => simp
  | ok first =>
    cases sizesOf pairs with
    | error e => simp
    | ok more => simp [eq_comm]

theorem fits_of_sizesOf {pairs : List (Symbol × Argument)} {sizes : List (Option Nat)}
    (h : sizesOf pairs = .ok sizes) : ∀ pair ∈ pairs, pair.1.Fits pair.2 := by
  induction pairs generalizing sizes with
  | nil => simp
  | cons pair pairs ih =>
    obtain ⟨first, more, hfirst, hmore, -⟩ := sizesOf_cons_eq_ok.mp h
    exact List.forall_mem_cons.mpr ⟨Symbol.fits_of_sizes hfirst, ih hmore⟩

/-- **The sizes are the parts of the field parameters, in order.** -/
theorem parts_of_sizesOf {pairs : List (Symbol × Argument)} {sizes : List (Option Nat)}
    (h : sizesOf pairs = .ok sizes) :
    ∃ parts, List.Forall₂ (fun pair part => pair.1.Adds pair.2 part)
        (pairs.filter fun pair => pair.1.isField) parts ∧ sizes = parts.flatten := by
  induction pairs generalizing sizes with
  | nil =>
    cases h
    exact ⟨[], .nil, rfl⟩
  | cons pair pairs ih =>
    obtain ⟨first, more, hfirst, hmore, rfl⟩ := sizesOf_cons_eq_ok.mp h
    obtain ⟨parts, hparts, rfl⟩ := ih hmore
    by_cases hfield : pair.1.isField = true
    · refine ⟨first :: parts, ?_, rfl⟩
      rw [List.filter_cons, if_pos hfield]
      exact .cons (Symbol.adds_of_sizes hfield hfirst) hparts
    · -- A parameter that is no field has no part.
      rw [Symbol.sizes_of_not_isField _ (by simpa using hfield)] at hfirst
      cases hfirst
      refine ⟨parts, ?_, rfl⟩
      rw [List.filter_cons, if_neg hfield]
      exact hparts

theorem length_sizesOf {pairs : List (Symbol × Argument)} {sizes : List (Option Nat)}
    (hsettled : ∀ pair ∈ pairs, pair.1.Settled pair.2) (h : sizesOf pairs = .ok sizes) :
    sizes.length = (pairs.map fun pair => pair.1.rank).foldr (· + ·) 0 := by
  induction pairs generalizing sizes with
  | nil =>
    cases h
    rfl
  | cons pair pairs ih =>
    obtain ⟨first, more, hfirst, hmore, rfl⟩ := sizesOf_cons_eq_ok.mp h
    have hlength := Symbol.length_sizes_of_settled (hsettled pair List.mem_cons_self) hfirst
    have hrest := ih (fun p hp => hsettled p (List.mem_cons_of_mem _ hp)) hmore
    rw [List.length_append, hlength, hrest, List.map_cons, List.foldr_cons]

theorem parts_of_invocation {p : Program} {args : List Argument} {kwargs : NameMap Argument}
    {i : Invocation} (h : p.invocation args kwargs = .ok i) :
    i.args = (p.params.zip args).map (fun pair => pair.1.adapt pair.2) ∧
      sizesOf (p.params.zip args) = .ok i.sizes := by
  unfold invocation at h
  split at h
  · cases h
  · split at h
    · cases h
    · dsimp only at h
      split at h
      · cases h
      · rename_i sizes hsizes
        cases h
        exact ⟨rfl, hsizes⟩

end Program

/-! ## The execution -/

namespace ProgramUnit

/-- **What an execution is given.** Take arguments that pass the checks of a call: as many as there
are parameters, none with a name, and no field with too few extents. Whatever the toolchain, the
lowering is followed by a request to execute. It has an argument for each parameter, at the same
place: a scalar for a scalar parameter is made a constant field of the parameter's kind, and all
else is left as it is. It has the sizes that the field parameters add, one after another. If all of
these have known dimensions and were given fields with storage, there are as many sizes as
dimensions. -/
theorem call_hands_on (u : ProgramUnit) (args : List Argument) (kwargs : NameMap Argument)
    (hlength : args.length = u.node.params.length) (hkwargs : kwargs.isEmpty = true)
    (hfits : ∀ pair ∈ u.node.params.zip args, pair.1.Fits pair.2) :
    ∃ i : Invocation, u.invocation args kwargs = .ok i ∧
    (∀ (σ : Type) (t : Toolchain σ) (offsets : OffsetProvider) (b b' : Bench σ) (f : Fencil),
      u.lower t b = (.ok f, b') →
      u.callRequests t args kwargs offsets b = u.lowerRequests t b ++
        [.execute f i offsets (t.config.report u.backend f.id).backend]) ∧
    i.args.length = u.node.params.length ∧
    (∀ (k : Nat) param arg, u.node.params[k]? = some param → args[k]? = some arg →
      ∃ arg', i.args[k]? = some arg' ∧ param.HandsOn arg arg') ∧
    (∃ parts, List.Forall₂ (fun pair part => pair.1.Adds pair.2 part)
      ((u.node.params.zip args).filter fun pair => pair.1.isField) parts ∧
      i.sizes = parts.flatten) ∧
    ((∀ pair ∈ u.node.params.zip args, pair.1.Settled pair.2) →
      i.sizes.length = (u.node.params.map Symbol.rank).foldr (· + ·) 0) := by
  obtain ⟨i, hi⟩ := Program.exists_invocation hlength hkwargs hfits
  have hinvocation : u.invocation args kwargs = .ok i := by
    unfold ProgramUnit.invocation
    rw [hi]
  obtain ⟨hargs, hsizes⟩ := Program.parts_of_invocation hi
  refine ⟨i, hinvocation, ?_, ?_, ?_, Program.parts_of_sizesOf hsizes, ?_⟩
  · intro σ t offsets b b' f hlower
    exact callRequests_of_lowered hinvocation hlower
  · rw [hargs, List.length_map, List.length_zip, hlength, Nat.min_self]
  · intro k param arg hparam harg
    refine ⟨param.adapt arg, ?_, param.handsOn_adapt arg⟩
    have hpair : (u.node.params.zip args)[k]? = some (param, arg) :=
      List.getElem?_zip_eq_some.mpr ⟨hparam, harg⟩
    rw [hargs, List.getElem?_map, hpair]
    rfl
  · intro hsettled
    have hranks : (u.node.params.zip args).map (fun pair => pair.1.rank) =
        u.node.params.map Symbol.rank := by
      have hfst := List.map_fst_zip (Nat.le_of_eq hlength.symm)
      conv_rhs => rw [← hfst, List.map_map]
      rfl
    rw [Program.length_sizesOf hsettled hsizes, hranks]

/-- A program on a scalar, a field over two dimensions, a field over any dimensions and two fields
over one dimension. -/
def mixing : ProgramUnit :=
  let loc : Location := { source := "ops.py", line := 1, column := 1 }
  let param (id : String) (ty : Ty) : Symbol := { id, ty := some ty, space := .local, loc }
  let kind : ScalarTy := { kind := .float64 }
  { node :=
      { id := "mixing"
        params := [param "x" (.scalar kind), param "y" (.field (.known ["I", "J"]) kind),
          param "z" (.field .any kind), param "v" (.field (.known ["I"]) kind),
          param "w" (.field (.known ["I"]) kind)]
        body := []
        captured := []
        loc }
    captured := {}
    fencil := 0 }

/-- The third extent of the second argument is dropped, and both of the third are kept. A field
without storage and a scalar in the place of a field have an unknown size each; that scalar is not
lifted. A program on a scalar and a field over two dimensions gets two sizes. -/
theorem mixing_hands_on :
    let b : Bench Nat := { fencils := [none], tools := 1 }
    let f : Fencil := { id := "first", definitions := [], params := [], closures := [] }
    let args : List Argument :=
      [.scalar (.int32 2), .field .float64 (some [3, 4, 5]), .field .float64 (some [6, 7]),
        .field .float64 none, .scalar (.bool true)]
    mixing.callRequests Family.fickle args {} {} b =
      [.lowerProgram mixing.node [],
        .execute f
          { args := .constant (.int32 2) .float64 :: args.tail
            sizes := [some 3, some 4, some 6, some 7, none, none] } {} "roundtrip"] ∧
    ∃ i, scaling.invocation (args.take 2) {} = .ok i ∧ i.sizes.length = 2 := by
  intro b f args
  have hlower : mixing.lower Family.fickle b = (.ok f, { fencils := [some f], tools := 2 }) :=
    Family.lower_of_closed rfl rfl rfl
  have hrequests : mixing.lowerRequests Family.fickle b = [.lowerProgram mixing.node []] := by
    unfold lowerRequests Stage.after
    rw [Family.lower_of_closed rfl rfl rfl]
    rfl
  obtain ⟨i, hi, hexecuted, -⟩ :=
    call_hands_on mixing args {} rfl rfl (Program.fits_of_sizesOf rfl)
  obtain ⟨i', hi', -, -, -, -, hranks⟩ :=
    call_hands_on scaling (args.take 2) {} rfl rfl (Program.fits_of_sizesOf rfl)
  refine ⟨?_, i', hi', hranks ?_⟩
  · cases hi
    rw [hexecuted Nat Family.fickle {} b _ f hlower, hrequests]
    rfl
  · intro pair hpair
    obtain rfl | rfl := List.mem_pair.mp hpair
    · intro hfield
      cases hfield
    · intro _
      exact ⟨⟨_, _, rfl⟩, _, _, rfl⟩

end ProgramUnit

end FieldView
