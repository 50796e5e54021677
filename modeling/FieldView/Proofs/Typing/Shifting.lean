import FieldView.Proofs.Typing.Judgment

/-!
# Shifts

A field that is called with an offset is shifted: it keeps its elements, and every place of the
offset's source among its dimensions is taken by the targets (`Replaces`). A shift is refused where
the field has dimensions and the source is not one of them. Fields over any dimensions stay as they
are, and so do fields over none, which have nothing to replace (`Shiftable`).

So a shift is a replacement in a list (`replaced`), and the laws of shifts are those of
replacements. Shifts along two sources can be taken in either order if neither brings in the source
of the other, and a shift to a new dimension is undone by the shift back
(`shifts_commute_and_undo`).
-/

set_option autoImplicit false

namespace FieldView.Operator

/-! ## Replacing a dimension -/

/-- The second list is the first with the targets in every place of the source and all else kept. -/
inductive Replaces (source : String) (target : List String) : List String → List String → Prop
  | nil : Replaces source target [] []
  | source {names names'} : Replaces source target names names' →
      Replaces source target (source :: names) (target ++ names')
  | other {d names names'} : d ≠ source → Replaces source target names names' →
      Replaces source target (d :: names) (d :: names')

/-- The dimensions with the targets in every place of the source. -/
def replaced (source : String) (target names : List String) : List String :=
  names.flatMap fun d => if d = source then target else [d]

section Replaced

variable {source d x : String} {target names : List String}

/-- What stands in the place of a dimension: the targets for the source, and else the dimension
itself. -/
theorem mem_replacement_iff :
    x ∈ (if d = source then target else [d]) ↔
      (d = source ∧ x ∈ target) ∨ (d ≠ source ∧ x = d) := by
  by_cases hd : d = source
  · simp [hd]
  · simp [hd]

theorem mem_replaced_iff :
    x ∈ replaced source target names ↔
      (source ∈ names ∧ x ∈ target) ∨ (x ≠ source ∧ x ∈ names) := by
  simp only [replaced, List.mem_flatMap, mem_replacement_iff]
  constructor
  · rintro ⟨d, hd, ⟨rfl, hx⟩ | ⟨hne, rfl⟩⟩
    · exact .inl ⟨hd, hx⟩
    · exact .inr ⟨hne, hd⟩
  · rintro (⟨hsource, hx⟩ | ⟨hne, hx⟩)
    · exact ⟨source, hsource, .inl ⟨rfl, hx⟩⟩
    · exact ⟨x, hx, .inr ⟨hne, rfl⟩⟩

@[simp]
theorem replaced_nil : replaced source target [] = [] := rfl

@[simp]
theorem replaced_cons_source :
    replaced source target (source :: names) = target ++ replaced source target names := by
  simp [replaced]

@[simp]
theorem replaced_cons_of_ne (h : d ≠ source) :
    replaced source target (d :: names) = d :: replaced source target names := by
  simp [replaced, h]

theorem replaced_append (left right : List String) :
    replaced source target (left ++ right) =
      replaced source target left ++ replaced source target right := by
  simp [replaced]

theorem replaced_of_not_mem (h : source ∉ names) : replaced source target names = names := by
  induction names with
  | nil => rfl
  | cons d names ih =>
    obtain ⟨hd, hnames⟩ := List.ne_and_not_mem_of_not_mem_cons h
    rw [replaced_cons_of_ne hd.symm, ih hnames]

/-- Two sources can be replaced in either order if neither is among the targets of the other. -/
theorem replaced_comm {source' : String} {target' : List String} (hne : source ≠ source')
    (h : source ∉ target') (h' : source' ∉ target) :
    replaced source' target' (replaced source target names) =
      replaced source target (replaced source' target' names) := by
  induction names with
  | nil => rfl
  | cons d names ih =>
    by_cases hd : d = source
    · subst hd
      rw [replaced_cons_source, replaced_append, replaced_of_not_mem h', replaced_cons_of_ne hne,
        replaced_cons_source, ih]
    · by_cases hd' : d = source'
      · subst hd'
        rw [replaced_cons_source, replaced_append, replaced_of_not_mem h, replaced_cons_of_ne hd,
          replaced_cons_source, ih]
      · rw [replaced_cons_of_ne hd, replaced_cons_of_ne hd', replaced_cons_of_ne hd',
          replaced_cons_of_ne hd, ih]

/-- A new dimension in the place of another gives way to it again. -/
theorem replaced_undo (h : d ∉ names) :
    replaced d [source] (replaced source [d] names) = names := by
  induction names with
  | nil => rfl
  | cons e names ih =>
    obtain ⟨he, hnames⟩ := List.ne_and_not_mem_of_not_mem_cons h
    by_cases hsource : e = source
    · subst hsource
      rw [replaced_cons_source, List.singleton_append, replaced_cons_source, ih hnames,
        List.singleton_append]
    · rw [replaced_cons_of_ne hsource, replaced_cons_of_ne he.symm, ih hnames]

end Replaced

theorem replaces_iff {source : String} {target names names' : List String} :
    Replaces source target names names' ↔ names' = replaced source target names := by
  constructor
  · intro h
    induction h with
    | nil => rfl
    | source _ ih => rw [ih, replaced_cons_source]
    | other hd _ ih => rw [ih, replaced_cons_of_ne hd]
  · rintro rfl
    induction names with
    | nil => exact .nil
    | cons d names ih =>
      by_cases hd : d = source
      · subst hd
        rw [replaced_cons_source]
        exact .source ih
      · rw [replaced_cons_of_ne hd]
        exact .other hd ih

/-! ## The dimensions of a shifted field -/

/-- A field over the dimensions can be shifted from the source. -/
def Shiftable (source : String) : Dims → Prop
  | .any => True
  | .known names => names = [] ∨ source ∈ names

/-- The second dimensions are those of a field over the first after a shift. -/
inductive ShiftsTo (source : String) (target : List String) : Dims → Dims → Prop
  | any : ShiftsTo source target .any .any
  | known {names names'} : Replaces source target names names' →
      ShiftsTo source target (.known names) (.known names')

theorem shiftDims_known {source : String} {target names : List String}
    (h : Shiftable source (.known names)) :
    shiftDims (.known names) source target = .ok (.known (replaced source target names)) := by
  cases names with
  | nil => rfl
  | cons first rest =>
    have hcontains : (first :: rest).contains source = true := by
      simpa [Shiftable] using h
    simp only [shiftDims, hcontains, if_true, replaced]

theorem shiftable_of_shiftDims {source : String} {target : List String} {dims shifted : Dims}
    (h : shiftDims dims source target = .ok shifted) : Shiftable source dims := by
  unfold shiftDims at h
  split at h
  · exact trivial
  · exact .inl rfl
  · split at h
    · rename_i hcontains
      exact .inr (List.contains_iff_mem.mp hcontains)
    · cases h

theorem shiftDims_eq_ok_iff {source : String} {target : List String} {dims shifted : Dims} :
    shiftDims dims source target = .ok shifted ↔
      Shiftable source dims ∧ ShiftsTo source target dims shifted := by
  constructor
  · intro h
    have hshiftable := shiftable_of_shiftDims h
    refine ⟨hshiftable, ?_⟩
    cases dims with
    | any =>
      cases h
      exact .any
    | known names =>
      rw [shiftDims_known hshiftable] at h
      cases h
      exact .known (replaces_iff.mpr rfl)
  · rintro ⟨hshiftable, hshifts⟩
    cases hshifts with
    | any => rfl
    | known h => rw [shiftDims_known hshiftable, replaces_iff.mp h]

theorem exists_shiftsTo (source : String) (target : List String) (dims : Dims) :
    ∃ shifted, ShiftsTo source target dims shifted := by
  cases dims with
  | any => exact ⟨_, .any⟩
  | known names => exact ⟨_, .known (replaces_iff.mpr rfl)⟩

/-! ## Shifts as expressions -/

/-- Deduction succeeds on the expression and gives it the type. -/
def Expr.DeducesTo (t : Table) (inShift : Bool) (e : Expr) (τ : Ty) : Prop :=
  ∃ e', e.deduce t inShift = .ok e' ∧ e'.ty = some τ

theorem deducesTo_iff {t : Table} {inShift : Bool} {e : Expr} {τ : Ty} :
    e.DeducesTo t inShift τ ↔ HasType t inShift e τ :=
  hasType_iff.symm

section Shift

variable {t : Table} {inShift : Bool} {site : Site} {callee arg : Expr} {dims : Dims}
  {dtype : ScalarTy} {source : String} {target : List String}

/-- Where the types of field and offset are known, a shift is left to the rule for dimensions. -/
theorem hasType_shift_iff {τ : Ty} (hcallee : HasType t inShift callee (.field dims dtype))
    (harg : HasType t true arg (.offset source target)) :
    HasType t inShift (.call site callee [arg]) τ ↔
      ∃ shifted, shiftDims dims source target = .ok shifted ∧ τ = .field shifted dtype := by
  constructor
  · intro h
    cases h with
    | shift hfield hoffset hshifted =>
      cases hfield.unique hcallee
      cases hoffset.unique harg
      exact ⟨_, hshifted, rfl⟩
    | call hfunction _ => cases hfunction.unique hcallee
  · rintro ⟨shifted, hshifted, rfl⟩
    exact .shift hcallee harg hshifted

/-- **The type of a shift.** A field called with an offset is accepted exactly if its dimensions are
not constrained, or there are none, or the source is one of them. It keeps its elements; dimensions
that are not constrained stay so, and from known ones every place of the source is taken by the
targets. -/
theorem shift_accepted_iff (hcallee : callee.DeducesTo t inShift (.field dims dtype))
    (harg : arg.DeducesTo t true (.offset source target)) :
    ((∃ r, Expr.deduce t inShift (.call site callee [arg]) = .ok r) ↔
      dims = .any ∨ ∃ names, dims = .known names ∧ (names = [] ∨ source ∈ names)) ∧
    ∀ r, Expr.deduce t inShift (.call site callee [arg]) = .ok r →
      ∃ shifted, r.ty = some (.field shifted dtype) ∧ ShiftsTo source target dims shifted := by
  rw [deducesTo_iff] at hcallee harg
  constructor
  · have hshiftable : Shiftable source dims ↔
        dims = .any ∨ ∃ names, dims = .known names ∧ (names = [] ∨ source ∈ names) := by
      cases dims <;> simp [Shiftable]
    rw [← hshiftable, exists_deduce_iff]
    constructor
    · rintro ⟨τ, hτ⟩
      obtain ⟨shifted, hshifted, -⟩ := (hasType_shift_iff hcallee harg).mp hτ
      exact shiftable_of_shiftDims hshifted
    · intro h
      obtain ⟨shifted, hshifts⟩ := exists_shiftsTo source target dims
      exact ⟨_, .shift hcallee harg (shiftDims_eq_ok_iff.mpr ⟨h, hshifts⟩)⟩
  · intro r hr
    obtain ⟨τ, hτ, hhas⟩ := hasType_of_deduce hr
    obtain ⟨shifted, hshifted, rfl⟩ := (hasType_shift_iff hcallee harg).mp hhas
    exact ⟨shifted, hτ, (shiftDims_eq_ok_iff.mp hshifted).2⟩

end Shift

/-- A field that has its cells twice, with offsets from cells, edges and levels. -/
def meshSymbols : List Symbol :=
  let loc : Location := { source := "ops.py", line := 1, column := 1 }
  [⟨"f", some (.field (.known ["Cell", "K", "Cell"]) { kind := .float64 }), SymbolSpace.local, loc⟩,
    ⟨"C2E", some (.offset "Cell" ["Edge", "Near"]), SymbolSpace.closure, loc⟩,
    ⟨"E2V", some (.offset "Edge" ["Vertex"]), SymbolSpace.closure, loc⟩,
    ⟨"Flat", some (.offset "K" []), SymbolSpace.closure, loc⟩,
    ⟨"C2D", some (.offset "Cell" ["Dual"]), SymbolSpace.closure, loc⟩,
    ⟨"D2C", some (.offset "Dual" ["Cell"]), SymbolSpace.closure, loc⟩]

/-- `f(C2E[0])(E2V[-1])`: the edges that the inner shift brought in twice are both replaced. -/
theorem nestedShift_type :
    let site : Site := { loc := { source := "ops.py", line := 1, column := 1 } }
    let table := Table.ofSymbols meshSymbols
    let edges : Expr := .call site (.name site "f") [.subscript site (.name site "C2E") 0]
    let offset : Expr := .subscript site (.name site "E2V") (-1)
    edges.DeducesTo table false
        (.field (.known ["Edge", "Near", "K", "Edge", "Near"]) { kind := .float64 }) ∧
      offset.DeducesTo table true (.offset "Edge" ["Vertex"]) ∧
      (Expr.call site edges [offset]).DeducesTo table false
        (.field (.known ["Vertex", "Near", "K", "Vertex", "Near"]) { kind := .float64 }) := by
  intro site table edges offset
  have hedges : edges.DeducesTo table false
      (.field (.known ["Edge", "Near", "K", "Edge", "Near"]) { kind := .float64 }) := ⟨_, rfl, rfl⟩
  have hoffset : offset.DeducesTo table true (.offset "Edge" ["Vertex"]) := ⟨_, rfl, rfl⟩
  obtain ⟨haccepted, htype⟩ := @shift_accepted_iff table false site _ _ _ _ _ _ hedges hoffset
  obtain ⟨r, hr⟩ := haccepted.mpr (.inr ⟨_, rfl, .inr List.mem_cons_self⟩)
  obtain ⟨shifted, hty, hshifts⟩ := htype r hr
  refine ⟨hedges, hoffset, r, hr, ?_⟩
  cases hshifts with
  | known h =>
    rw [hty, replaces_iff.mp h]
    rfl

/-- A field over no dimensions is called with an offset: `return f(E2V)`. -/
def hollowShift : Operator :=
  let loc : Location := { source := "ops.py", line := 1, column := 1 }
  { id := "hollow_shift"
    params := [⟨"f", some (.field (.known []) { kind := .float64 }), SymbolSpace.local, loc⟩]
    captured := [⟨"E2V", some (.offset "Edge" ["Vertex"]), SymbolSpace.closure, loc⟩]
    body := [.ret (.call { loc } (.name { loc } "f") [.name { loc } "E2V"]) loc]
    loc }

/-- The shift is accepted, although its source is not a dimension of the field. -/
theorem hollowShift_accepted :
    let site : Site := { loc := { source := "ops.py", line := 1, column := 1 } }
    let table := Table.ofSymbols hollowShift.declarations
    (Expr.name site "f").DeducesTo table false (.field (.known []) { kind := .float64 }) ∧
      (Expr.name site "E2V").DeducesTo table true (.offset "Edge" ["Vertex"]) ∧
      ¬ ((∃ r, Expr.deduce table false (.call site (.name site "f") [.name site "E2V"]) = .ok r) ↔
        Dims.known [] = .any ∨ ∃ names, Dims.known [] = .known names ∧ "Edge" ∈ names) := by
  intro site table
  refine ⟨⟨_, rfl, rfl⟩, ⟨_, rfl, rfl⟩, ?_⟩
  intro h
  rcases h.mp ⟨_, rfl⟩ with hany | ⟨names, hnames, hsource⟩
  · cases hany
  · cases hnames
    cases hsource

/-! ## Laws of shifts -/

/-- A shift of a field over known dimensions, one of which is the source. -/
theorem HasType.shift_known {t : Table} {inShift : Bool} {site : Site} {callee arg : Expr}
    {names : List String} {dtype : ScalarTy} {source : String} {target : List String}
    (hcallee : HasType t inShift callee (.field (.known names) dtype))
    (harg : HasType t true arg (.offset source target)) (h : source ∈ names) :
    HasType t inShift (.call site callee [arg])
      (.field (.known (replaced source target names)) dtype) :=
  .shift hcallee harg (shiftDims_known (.inr h))

/-- **Laws of shifts.** A field is shifted along two sources that it has, neither of which the other
shift brings in, with the same type in either order. A field that is shifted from one of its
dimensions to a new one and back has its own type again. -/
theorem shifts_commute_and_undo {t : Table} {inShift : Bool} {f : Expr} {names : List String}
    {dtype : ScalarTy} (hf : f.DeducesTo t inShift (.field (.known names) dtype)) :
    (∀ (inner outer inner' outer' : Site) (o₁ o₂ : Expr) (source₁ source₂ : String)
      (target₁ target₂ : List String),
      o₁.DeducesTo t true (.offset source₁ target₁) →
      o₂.DeducesTo t true (.offset source₂ target₂) →
      source₁ ≠ source₂ → source₁ ∈ names → source₂ ∈ names →
      source₁ ∉ target₂ → source₂ ∉ target₁ →
      ∃ names' names'', Replaces source₁ target₁ names names' ∧
        Replaces source₂ target₂ names' names'' ∧
        (Expr.call outer (.call inner f [o₁]) [o₂]).DeducesTo t inShift
          (.field (.known names'') dtype) ∧
        (Expr.call outer' (.call inner' f [o₂]) [o₁]).DeducesTo t inShift
          (.field (.known names'') dtype)) ∧
    ∀ (inner outer : Site) (there back : Expr) (source d : String),
      there.DeducesTo t true (.offset source [d]) → back.DeducesTo t true (.offset d [source]) →
      source ∈ names → d ∉ names →
      (Expr.call outer (.call inner f [there]) [back]).DeducesTo t inShift
        (.field (.known names) dtype) := by
  simp only [deducesTo_iff] at hf ⊢
  constructor
  · intro inner outer inner' outer' o₁ o₂ source₁ source₂ target₁ target₂ h₁ h₂ hne hmem₁ hmem₂
      hnew₁ hnew₂
    refine ⟨_, _, replaces_iff.mpr rfl, replaces_iff.mpr rfl, ?_, ?_⟩
    · exact (hf.shift_known h₁ hmem₁).shift_known h₂ (mem_replaced_iff.mpr (.inr ⟨hne.symm, hmem₂⟩))
    · rw [replaced_comm hne hnew₁ hnew₂]
      exact (hf.shift_known h₂ hmem₂).shift_known h₁ (mem_replaced_iff.mpr (.inr ⟨hne, hmem₁⟩))
  · intro inner outer there back source d hthere hback hsource hd
    have hreached : d ∈ replaced source [d] names :=
      mem_replaced_iff.mpr (.inl ⟨hsource, List.mem_cons_self⟩)
    have hundone : HasType t inShift (.call outer (.call inner f [there]) [back])
        (.field (.known (replaced d [source] (replaced source [d] names))) dtype) :=
      (hf.shift_known hthere hsource).shift_known hback hreached
    rwa [replaced_undo hd] at hundone

/-- The levels go away before or after cells become edges, and cells come back from their duals. -/
theorem meshShifts_commute_and_undo :
    let site : Site := { loc := { source := "ops.py", line := 1, column := 1 } }
    let table := Table.ofSymbols meshSymbols
    let f : Expr := .name site "f"
    let edges : Expr := .subscript site (.name site "C2E") 0
    let flat : Expr := .name site "Flat"
    let field (names : List String) : Ty := .field (.known names) { kind := .float64 }
    f.DeducesTo table false (field ["Cell", "K", "Cell"]) ∧
      edges.DeducesTo table true (.offset "Cell" ["Edge", "Near"]) ∧
      flat.DeducesTo table true (.offset "K" []) ∧
      (∃ names',
        (Expr.call site (.call site f [edges]) [flat]).DeducesTo table false (field names') ∧
        (Expr.call site (.call site f [flat]) [edges]).DeducesTo table false (field names')) ∧
      (Expr.call site (.call site f [.name site "C2D"]) [.name site "D2C"]).DeducesTo table false
        (field ["Cell", "K", "Cell"]) := by
  intro site table f edges flat field
  have hf : f.DeducesTo table false (field ["Cell", "K", "Cell"]) := ⟨_, rfl, rfl⟩
  have hedges : edges.DeducesTo table true (.offset "Cell" ["Edge", "Near"]) := ⟨_, rfl, rfl⟩
  have hflat : flat.DeducesTo table true (.offset "K" []) := ⟨_, rfl, rfl⟩
  obtain ⟨hcommute, hundo⟩ := shifts_commute_and_undo hf
  obtain ⟨-, names', -, -, hleft, hright⟩ := hcommute site site site site edges flat _ _ _ _ hedges
    hflat (by decide) (by decide) (by decide) (by decide) (by decide)
  refine ⟨hf, hedges, hflat, ⟨names', hleft, hright⟩, ?_⟩
  exact hundo site site _ _ "Cell" "Dual" ⟨_, rfl, rfl⟩ ⟨_, rfl, rfl⟩ (by decide) (by decide)

end FieldView.Operator
