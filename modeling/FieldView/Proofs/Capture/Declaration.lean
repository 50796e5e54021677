import FieldView.Proofs.Capture.Resolution

/-!
# What an environment declares

The symbols of an environment come in three parts: type names, bound names and builtin functions.
A name can belong to more than one of them by its spelling, so each part leaves out what the parts
before it have. `mem_symbols_iff` says what comes of that: a symbol is in the list just when
`declared?` gives its type, and that is a function of the name. From there on the list is not
opened again.

The type names of the host come first whatever is bound. A captured value is declared with its own
type under every other name, also the name of a builtin (`declared?_of_bound`).
-/

set_option autoImplicit false

namespace FieldView

namespace BuiltinFunction

theorem ofName?_eq_some_iff {name : String} {f : BuiltinFunction} :
    ofName? name = some f ↔ f.name = name := by
  constructor
  · intro h
    unfold ofName? at h
    simpa using List.find?_some h
  · rintro rfl
    cases f <;> rfl

end BuiltinFunction

/-- The type of a type name as a function. -/
def Builtin.typeNameTy? (name : String) : Deduced :=
  (scalarKind? name).map fun kind => (constructorSignature kind).toTy

namespace Environment

variable {e : Environment} {loc : Location} {name : String} {s : Symbol}

theorem scalarKind?_of_mem_hostTypeNames (h : name ∈ hostTypeNames) :
    ∃ kind, Builtin.scalarKind? name = some kind := by
  simp only [hostTypeNames, List.mem_cons, List.not_mem_nil, or_false] at h
  rcases h with rfl | rfl | rfl
  · exact ⟨.bool, rfl⟩
  · exact ⟨.int64, rfl⟩
  · exact ⟨.float64, rfl⟩

theorem ofName?_of_mem_hostTypeNames (h : name ∈ hostTypeNames) :
    BuiltinFunction.ofName? name = none := by
  simp only [hostTypeNames, List.mem_cons, List.not_mem_nil, or_false] at h
  rcases h with rfl | rfl | rfl <;> rfl

/-- A type name belongs to the host, or it is bound to the type that it names anyway. -/
theorem mem_typeNames_iff :
    name ∈ e.typeNames ↔ name ∈ hostTypeNames ∨
      ∃ kind, e.get? name = some (.typeName kind) ∧ Builtin.scalarKind? name = some kind := by
  rw [typeNames, NameSet.mem_ofList, List.mem_append]
  refine or_congr Iff.rfl ?_
  rw [List.mem_filterMap]
  constructor
  · rintro ⟨⟨name', value⟩, hbound, hpicked⟩
    cases value with
    | typeName kind =>
      obtain ⟨hkind, hname⟩ := Option.ite_none_right_eq_some.mp hpicked
      cases hname
      exact ⟨kind, mem_toList_all.mp hbound, hkind⟩
    | _ => cases hpicked
  · rintro ⟨kind, hbound, hkind⟩
    exact ⟨(name, .typeName kind), mem_toList_all.mpr hbound, if_pos hkind⟩

theorem scalarKind?_of_mem_typeNames (h : name ∈ e.typeNames) :
    ∃ kind, Builtin.scalarKind? name = some kind := by
  rcases mem_typeNames_iff.mp h with hhost | ⟨kind, -, hkind⟩
  · exact scalarKind?_of_mem_hostTypeNames hhost
  · exact ⟨kind, hkind⟩

/-! ## The three parts -/

/-- The symbol that an environment declares for a name. -/
def declaration (loc : Location) (id : String) (ty : Deduced) : Symbol :=
  { id, ty, space := .closure, loc }

/-- The symbols for the type names. -/
def typeSymbols (e : Environment) (loc : Location) : List Symbol :=
  e.typeNames.toList.filterMap fun name =>
    (Builtin.scalarKind? name).map fun kind =>
      declaration loc name (some (Builtin.constructorSignature kind).toTy)

/-- The symbols for the captured values. -/
def boundSymbols (e : Environment) (loc : Location) : List Symbol :=
  (e.all.toList.filter (!e.typeNames.contains ·.1)).map fun binding =>
    declaration loc binding.1 binding.2.ty

/-- The symbols for the builtin functions. -/
def functionSymbols (e : Environment) (loc : Location) : List Symbol :=
  (e.builtins.toList.filter (!e.all.contains ·)).filterMap fun name =>
    (BuiltinFunction.ofName? name).map fun f => declaration loc f.name (some f.signature.toTy)

theorem symbols_eq (e : Environment) (loc : Location) :
    e.symbols loc = e.typeSymbols loc ++ e.boundSymbols loc ++ e.functionSymbols loc := rfl

theorem mem_typeSymbols_iff :
    s ∈ e.typeSymbols loc ↔
      s.id ∈ e.typeNames ∧ s = declaration loc s.id (Builtin.typeNameTy? s.id) := by
  rw [typeSymbols, List.mem_filterMap]
  constructor
  · rintro ⟨name, hname, hs⟩
    obtain ⟨kind, hkind, rfl⟩ := Option.map_eq_some_iff.mp hs
    refine ⟨Std.TreeSet.mem_toList.mp hname, ?_⟩
    simp [declaration, Builtin.typeNameTy?, hkind]
  · rintro ⟨hname, hs⟩
    obtain ⟨kind, hkind⟩ := scalarKind?_of_mem_typeNames hname
    rw [Builtin.typeNameTy?, hkind, Option.map_some] at hs
    exact ⟨s.id, Std.TreeSet.mem_toList.mpr hname, by rw [hkind, Option.map_some, ← hs]⟩

theorem mem_boundSymbols_iff :
    s ∈ e.boundSymbols loc ↔
      s.id ∉ e.typeNames ∧
        ∃ value, e.get? s.id = some value ∧ s = declaration loc s.id value.ty := by
  rw [boundSymbols, List.mem_map]
  simp only [List.mem_filter, Bool.not_eq_true', NameSet.contains_eq_false]
  constructor
  · rintro ⟨⟨name, value⟩, ⟨hbound, hname⟩, rfl⟩
    exact ⟨hname, value, mem_toList_all.mp hbound, rfl⟩
  · rintro ⟨hname, value, hbound, hs⟩
    exact ⟨(s.id, value), ⟨mem_toList_all.mpr hbound, hname⟩, hs.symm⟩

theorem contains_all_eq_false : e.all.contains name = false ↔ e.get? name = none := by
  rw [Std.TreeMap.contains_eq_isSome_getElem?, getElem?_all, Option.isSome_eq_false_iff,
    Option.isNone_iff_eq_none]

theorem mem_functionSymbols_iff :
    s ∈ e.functionSymbols loc ↔
      s.id ∈ e.builtins ∧ e.get? s.id = none ∧
        ∃ f, BuiltinFunction.ofName? s.id = some f ∧
          s = declaration loc s.id (some f.signature.toTy) := by
  rw [functionSymbols, List.mem_filterMap]
  simp only [List.mem_filter, Bool.not_eq_true', contains_all_eq_false, Std.TreeSet.mem_toList]
  constructor
  · rintro ⟨name, ⟨hname, hunbound⟩, hs⟩
    obtain ⟨f, hf, rfl⟩ := Option.map_eq_some_iff.mp hs
    obtain rfl := BuiltinFunction.ofName?_eq_some_iff.mp hf
    exact ⟨hname, hunbound, f, hf, rfl⟩
  · rintro ⟨hname, hunbound, f, hf, hs⟩
    have hid : f.name = s.id := BuiltinFunction.ofName?_eq_some_iff.mp hf
    exact ⟨s.id, ⟨hname, hunbound⟩, by rw [hf, Option.map_some, hid, ← hs]⟩

/-! ## Symbols by name -/

/-- What a name is declared as: a type name, else what it is bound to, else a builtin function. -/
def declared? (e : Environment) (name : String) : Option Deduced :=
  if name ∈ e.typeNames then some (Builtin.typeNameTy? name)
  else
    ((e.get? name).map Value.ty).or
      (if name ∈ e.builtins then
        (BuiltinFunction.ofName? name).map fun f => some f.signature.toTy
      else none)

theorem declared?_of_mem_typeNames (h : name ∈ e.typeNames) :
    e.declared? name = some (Builtin.typeNameTy? name) := if_pos h

theorem declared?_of_get? {value : Value} (h : name ∉ e.typeNames)
    (hvalue : e.get? name = some value) : e.declared? name = some value.ty := by
  rw [declared?, if_neg h, hvalue]
  rfl

theorem declared?_of_get?_eq_none (h : name ∉ e.typeNames) (hvalue : e.get? name = none) :
    e.declared? name =
      if name ∈ e.builtins then
        (BuiltinFunction.ofName? name).map fun f => some f.signature.toTy
      else none := by
  rw [declared?, if_neg h, hvalue]
  rfl

/-- A builtin function that is not bound is no type name. -/
theorem notMem_typeNames_of_function {f : BuiltinFunction}
    (hf : BuiltinFunction.ofName? name = some f) (hunbound : e.get? name = none) :
    name ∉ e.typeNames := by
  intro h
  rcases mem_typeNames_iff.mp h with hhost | ⟨kind, hbound, -⟩
  · rw [ofName?_of_mem_hostTypeNames hhost] at hf
    cases hf
  · rw [hunbound] at hbound
    cases hbound

/-- **The symbols are the declared names, each with what it is declared as.** -/
theorem mem_symbols_iff :
    s ∈ e.symbols loc ↔ ∃ ty, e.declared? s.id = some ty ∧ s = declaration loc s.id ty := by
  rw [symbols_eq, List.mem_append, List.mem_append, mem_typeSymbols_iff, mem_boundSymbols_iff,
    mem_functionSymbols_iff]
  constructor
  · rintro ((⟨hname, hs⟩ | ⟨hname, value, hvalue, hs⟩) | ⟨hname, hunbound, f, hf, hs⟩)
    · exact ⟨_, declared?_of_mem_typeNames hname, hs⟩
    · exact ⟨_, declared?_of_get? hname hvalue, hs⟩
    · refine ⟨_, ?_, hs⟩
      rw [declared?_of_get?_eq_none (notMem_typeNames_of_function hf hunbound) hunbound,
        if_pos hname, hf]
      rfl
  · rintro ⟨ty, hty, hs⟩
    by_cases hname : s.id ∈ e.typeNames
    · rw [declared?_of_mem_typeNames hname] at hty
      cases hty
      exact .inl (.inl ⟨hname, hs⟩)
    · cases hvalue : e.get? s.id with
      | some value =>
        rw [declared?_of_get? hname hvalue] at hty
        cases hty
        exact .inl (.inr ⟨hname, value, rfl, hs⟩)
      | none =>
        rw [declared?_of_get?_eq_none hname hvalue] at hty
        obtain ⟨hbuiltin, hfunction⟩ := Option.ite_none_right_eq_some.mp hty
        obtain ⟨f, hf, rfl⟩ := Option.map_eq_some_iff.mp hfunction
        exact .inr ⟨hbuiltin, rfl, f, hf, hs⟩

theorem mem_ids_iff : name ∈ (e.symbols loc).map (·.id) ↔ (e.declared? name).isSome := by
  rw [List.mem_map, Option.isSome_iff_exists]
  constructor
  · rintro ⟨s, hs, rfl⟩
    obtain ⟨ty, hty, -⟩ := mem_symbols_iff.mp hs
    exact ⟨ty, hty⟩
  · rintro ⟨ty, hty⟩
    exact ⟨declaration loc name ty, mem_symbols_iff.mpr ⟨ty, hty, rfl⟩, rfl⟩

/-- The names that are declared, from where they come. -/
theorem isSome_declared?_iff :
    (e.declared? name).isSome ↔ name ∈ hostTypeNames ∨ name ∈ e.all ∨
      (name ∈ e.builtins ∧ (BuiltinFunction.ofName? name).isSome ∧ name ∉ e.all) := by
  have hall : name ∈ e.all ↔ (e.get? name).isSome := by
    rw [Std.TreeMap.mem_iff_isSome_getElem?, getElem?_all]
  rw [hall]
  by_cases hname : name ∈ e.typeNames
  · rw [declared?_of_mem_typeNames hname]
    rcases mem_typeNames_iff.mp hname with hhost | ⟨kind, hbound, -⟩
    · simp [hhost]
    · simp [hbound]
  · have hhost : name ∉ hostTypeNames := fun h => hname (mem_typeNames_iff.mpr (.inl h))
    cases hvalue : e.get? name with
    | some value => simp [declared?_of_get? hname hvalue]
    | none =>
      rw [declared?_of_get?_eq_none hname hvalue]
      by_cases hbuiltin : name ∈ e.builtins <;> simp [hhost, hbuiltin]

/-! ## No name twice -/

/-- Symbols that are made from different names and keep them. -/
theorem nodup_ids_filterMap {names : List String} {make : String → Option Symbol}
    (hnames : names.Pairwise fun a b => ¬ compare a b = .eq)
    (hid : ∀ name s, make name = some s → s.id = name) :
    ((names.filterMap make).map (·.id)).Nodup := by
  rw [List.Nodup, List.pairwise_map, List.pairwise_filterMap]
  refine hnames.imp ?_
  intro a b hne s hs s' hs' heq
  rw [hid a s hs, hid b s' hs'] at heq
  rw [heq] at hne
  exact hne Std.ReflCmp.compare_self

theorem nodup_ids_typeSymbols (e : Environment) (loc : Location) :
    ((e.typeSymbols loc).map (·.id)).Nodup := by
  refine nodup_ids_filterMap Std.TreeSet.distinct_toList ?_
  intro name s hs
  obtain ⟨kind, -, rfl⟩ := Option.map_eq_some_iff.mp hs
  rfl

theorem nodup_ids_boundSymbols (e : Environment) (loc : Location) :
    ((e.boundSymbols loc).map (·.id)).Nodup := by
  rw [boundSymbols, List.Nodup, List.pairwise_map, List.pairwise_map]
  refine (e.pairwise_toList_all.filter _).imp ?_
  intro a b hlt heq
  have hnames : a.1 = b.1 := heq
  rw [hnames] at hlt
  exact String.lt_irrefl _ hlt

theorem nodup_ids_functionSymbols (e : Environment) (loc : Location) :
    ((e.functionSymbols loc).map (·.id)).Nodup := by
  refine nodup_ids_filterMap (List.Pairwise.filter _ Std.TreeSet.distinct_toList) ?_
  intro name s hs
  obtain ⟨f, hf, rfl⟩ := Option.map_eq_some_iff.mp hs
  exact BuiltinFunction.ofName?_eq_some_iff.mp hf

theorem nodup_ids_symbols (e : Environment) (loc : Location) :
    ((e.symbols loc).map (·.id)).Nodup := by
  rw [symbols_eq, List.map_append, List.map_append, List.nodup_append, List.nodup_append]
  refine ⟨⟨e.nodup_ids_typeSymbols loc, e.nodup_ids_boundSymbols loc, ?_⟩,
    e.nodup_ids_functionSymbols loc, ?_⟩
  · intro id hid id' hid' heq
    obtain ⟨s, hs, rfl⟩ := List.mem_map.mp hid
    obtain ⟨s', hs', rfl⟩ := List.mem_map.mp hid'
    apply (mem_boundSymbols_iff.mp hs').1
    rw [← heq]
    exact (mem_typeSymbols_iff.mp hs).1
  · intro id hid id' hid' heq
    obtain ⟨s', hs', rfl⟩ := List.mem_map.mp hid'
    obtain ⟨-, hunbound, f, hf, -⟩ := mem_functionSymbols_iff.mp hs'
    rcases List.mem_append.mp hid with hid | hid
    · obtain ⟨s, hs, rfl⟩ := List.mem_map.mp hid
      apply notMem_typeNames_of_function hf hunbound
      rw [← heq]
      exact (mem_typeSymbols_iff.mp hs).1
    · obtain ⟨s, hs, rfl⟩ := List.mem_map.mp hid
      obtain ⟨-, value, hvalue, -⟩ := mem_boundSymbols_iff.mp hs
      rw [heq, hunbound] at hvalue
      cases hvalue

/-- **An environment declares each name once:** the type names of the host, what it binds, and the
builtin functions that it names and does not bind, all as symbols of the closure. -/
theorem symbols_declare_once (e : Environment) (loc : Location) :
    ((e.symbols loc).map (·.id)).Nodup ∧
      (∀ name, name ∈ (e.symbols loc).map (·.id) ↔
        name ∈ ["bool", "int", "float"] ∨ name ∈ e.all ∨
          (name ∈ e.builtins ∧ (BuiltinFunction.ofName? name).isSome ∧ name ∉ e.all)) ∧
      ∀ s ∈ e.symbols loc, s.space = .closure := by
  refine ⟨e.nodup_ids_symbols loc, ?_, ?_⟩
  · intro name
    rw [mem_ids_iff, isSome_declared?_iff]
    rfl
  · intro s hs
    obtain ⟨ty, -, hs⟩ := mem_symbols_iff.mp hs
    rw [hs]
    rfl

/-! ## Bound names -/

/-- A bound name is declared with the type of its value, unless it is a type name of the host. -/
theorem declared?_of_bound {value : Value} (h : e.get? name = some value) :
    e.declared? name =
      some (if name ∈ hostTypeNames then Builtin.typeNameTy? name else value.ty) := by
  by_cases hhost : name ∈ hostTypeNames
  · rw [if_pos hhost, declared?_of_mem_typeNames (mem_typeNames_iff.mpr (.inl hhost))]
  · rw [if_neg hhost]
    by_cases hname : name ∈ e.typeNames
    · -- The name is bound to the type that it names, so both types are the same.
      obtain hhost' | ⟨kind, hbound, hkind⟩ := mem_typeNames_iff.mp hname
      · exact absurd hhost' hhost
      · rw [h] at hbound
        cases hbound
        rw [declared?_of_mem_typeNames hname, Builtin.typeNameTy?, hkind]
        rfl
    · exact declared?_of_get? hname h

/-- **The one symbol of a bound name has the type of the value, except that a type name of the host
stays what it is:** there the two agree only if the value happens to have that type. -/
theorem bound_symbol_type {value : Value} (loc : Location) (h : e.get? name = some value) :
    ∃ s ∈ e.symbols loc, s.id = name ∧ (∀ s' ∈ e.symbols loc, s'.id = name → s' = s) ∧
      (name ∉ hostTypeNames → s.ty = value.ty) ∧
      (name ∈ hostTypeNames → s.ty = Builtin.typeNameTy? name) ∧
      (s.ty = value.ty ↔ (name ∈ hostTypeNames → value.ty = Builtin.typeNameTy? name)) := by
  have hdeclared := declared?_of_bound h
  refine ⟨declaration loc name _, mem_symbols_iff.mpr ⟨_, hdeclared, rfl⟩, rfl, ?_, ?_, ?_, ?_⟩
  · rintro s' hs' rfl
    obtain ⟨ty, hty, hs'⟩ := mem_symbols_iff.mp hs'
    rw [hdeclared] at hty
    cases hty
    exact hs'
  · intro hhost
    exact if_neg hhost
  · intro hhost
    exact if_pos hhost
  · by_cases hhost : name ∈ hostTypeNames
    · simp [declaration, hhost, eq_comm]
    · simp [declaration, hhost]

/-- A number bound to `int` is declared as the conversion to integers. -/
theorem bound_symbol_type_of_int :
    let loc : Location := { source := "ops.py", line := 1, column := 1 }
    let e := ({} : Environment).withGlobal "int" (.scalar (.int32 3))
    e.get? "int" = some (.scalar (.int32 3)) ∧
      ∃ s ∈ e.symbols loc, s.id = "int" ∧ (∀ s' ∈ e.symbols loc, s'.id = "int" → s' = s) ∧
        s.ty = some (.function [.deferred (some .scalar)] [] (.scalar { kind := .int64 })) ∧
        s.ty ≠ (Value.scalar (.int32 3)).ty := by
  intro loc e
  have hbound : e.get? "int" = some (.scalar (.int32 3)) := by
    rw [get?_withGlobal, if_pos rfl]
  obtain ⟨s, hs, hid, honly, -, hhost, hsame⟩ := bound_symbol_type loc hbound
  refine ⟨hbound, s, hs, hid, honly, hhost (by decide), ?_⟩
  rw [Ne, hsame]
  decide

end Environment

end FieldView
