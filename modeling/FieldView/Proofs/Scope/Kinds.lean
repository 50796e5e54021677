import FieldView.Scope.Names

/-!
# Names of one kind

`Names.classify` builds five sets out of six collections with a rule of its own for each. Here each
set is described by its members, and from that follows when the sets are disjoint.

They are so for every name that is not declared `global` or `nonlocal`. A declaration takes a name
out of the locals, but not out of the parameters or the imports, and it does not take it out of what
the other declaration names: these are the ways in which a name gets two kinds
(`classify_oneKind_iff`), and the first two are how a name comes to be inside and outside at once
(`classify_inside_and_outside_iff`).
-/

set_option autoImplicit false

namespace FieldView

namespace NameSet

theorem mem_filter {s : NameSet} {p : String → Bool} {name : String} :
    name ∈ s.filter p ↔ name ∈ s ∧ p name = true := by
  simp [Std.TreeSet.mem_filter, Std.TreeSet.get_eq]

theorem mem_insertMany {s t : NameSet} {name : String} :
    name ∈ s.insertMany t.toList ↔ name ∈ s ∨ name ∈ t := by
  simp [Std.TreeSet.mem_insertMany_list]

theorem mem_ofList {names : List String} {name : String} :
    name ∈ (Std.TreeSet.ofList names : NameSet) ↔ name ∈ names := by
  simp [Std.TreeSet.mem_ofList]

theorem contains_eq_false {s : NameSet} {name : String} : s.contains name = false ↔ name ∉ s := by
  rw [← Std.TreeSet.contains_iff_mem, Bool.not_eq_true]

end NameSet

namespace Scope.Names

variable {params : List String} {marks : List Mark} {name : String}

/-- The names of a kind. -/
def ofKind (n : Names) : NameKind → NameSet
  | .param => n.params
  | .local => n.locals
  | .imported => n.imported
  | .nonlocal => n.nonlocals
  | .global => n.globals

/-- The name is in no two of the sets. -/
def OneKind (n : Names) (name : String) : Prop :=
  ∀ k k', name ∈ n.ofKind k → name ∈ n.ofKind k' → k = k'

/-! ## The members of each set -/

theorem mem_marked {select : Mark → Option String} (mark : String → Mark)
    (hselect : ∀ m n, select m = some n ↔ m = mark n) :
    name ∈ marked select marks ↔ mark name ∈ marks := by
  unfold marked
  rw [NameSet.mem_ofList, List.mem_filterMap]
  constructor
  · intro h
    obtain ⟨m, hm, hn⟩ := h
    rwa [← (hselect m name).mp hn]
  · intro h
    exact ⟨mark name, h, (hselect _ _).mpr rfl⟩

theorem mem_params_classify : name ∈ (classify params marks).params ↔ name ∈ params :=
  NameSet.mem_ofList

theorem mem_imported_classify :
    name ∈ (classify params marks).imported ↔ .imports name ∈ marks ∧ name ∉ params := by
  simp only [classify, NameSet.mem_filter, Bool.not_eq_true', NameSet.contains_eq_false,
    NameSet.mem_ofList]
  rw [mem_marked .imports (by intro m n; cases m <;> simp)]

theorem mem_nonlocals_classify :
    name ∈ (classify params marks).nonlocals ↔ .declaresNonlocal name ∈ marks := by
  simp only [classify]
  rw [mem_marked .declaresNonlocal (by intro m n; cases m <;> simp)]

theorem mem_locals_classify :
    name ∈ (classify params marks).locals ↔
      .binds name ∈ marks ∧ name ∉ params ∧ .imports name ∉ marks ∧
        .declaresGlobal name ∉ marks ∧ .declaresNonlocal name ∉ marks := by
  simp only [classify, NameSet.mem_filter, Bool.and_eq_true, Bool.not_eq_true',
    NameSet.contains_eq_false, NameSet.mem_ofList]
  rw [mem_marked .binds (by intro m n; cases m <;> simp),
    mem_marked .imports (by intro m n; cases m <;> simp),
    mem_marked .declaresGlobal (by intro m n; cases m <;> simp),
    mem_marked .declaresNonlocal (by intro m n; cases m <;> simp)]
  grind

theorem mem_globals_classify :
    name ∈ (classify params marks).globals ↔
      .declaresGlobal name ∈ marks ∨
        .reads name ∈ marks ∧ name ∉ params ∧ name ∉ (classify params marks).locals ∧
          .imports name ∉ marks ∧ .declaresNonlocal name ∉ marks := by
  have himported : name ∈ (classify params marks).imported ↔ _ := mem_imported_classify
  have hnonlocal : name ∈ (classify params marks).nonlocals ↔ _ := mem_nonlocals_classify
  have hglobals : name ∈ (classify params marks).globals ↔
      .declaresGlobal name ∈ marks ∨
        .reads name ∈ marks ∧ name ∉ params ∧ name ∉ (classify params marks).locals ∧
          name ∉ (classify params marks).imported ∧ name ∉ (classify params marks).nonlocals := by
    show name ∈ Std.TreeSet.insertMany _ _ ↔ _
    rw [NameSet.mem_insertMany, NameSet.mem_filter,
      mem_marked .declaresGlobal (by intro m n; cases m <;> simp),
      mem_marked .reads (by intro m n; cases m <;> simp)]
    simp only [Bool.and_eq_true, Bool.not_eq_true', NameSet.contains_eq_false,
      NameSet.mem_ofList, and_assoc]
    rfl
  rw [hglobals]
  grind

theorem mem_allLocals {n : Names} :
    name ∈ n.allLocals ↔ (name ∈ n.params ∨ name ∈ n.locals) ∨ name ∈ n.imported := by
  unfold allLocals
  rw [NameSet.mem_insertMany, NameSet.mem_insertMany]

theorem mem_free {n : Names} : name ∈ n.free ↔ name ∈ n.nonlocals ∨ name ∈ n.globals := by
  unfold free
  rw [NameSet.mem_insertMany]

/-! ## Two kinds -/

/-- The name is declared to be of outside, and is a parameter or an import all the same. -/
def Disowned (params : List String) (marks : List Mark) (name : String) : Prop :=
  (.declaresGlobal name ∈ marks ∨ .declaresNonlocal name ∈ marks) ∧
    (name ∈ params ∨ .imports name ∈ marks)

/-- The name is declared both `global` and `nonlocal`. -/
def DeclaredTwice (marks : List Mark) (name : String) : Prop :=
  .declaresGlobal name ∈ marks ∧ .declaresNonlocal name ∈ marks

theorem classify_oneKind_iff :
    (classify params marks).OneKind name ↔
      ¬ Disowned params marks name ∧ ¬ DeclaredTwice marks name := by
  unfold Disowned DeclaredTwice
  constructor
  · intro hone
    -- A declared name is nonlocal or global, so it can have none of the other kinds.
    have hpn := hone .param .nonlocal
    have hpg := hone .param .global
    have hin := hone .imported .nonlocal
    have hig := hone .imported .global
    have hng := hone .nonlocal .global
    simp only [ofKind, reduceCtorEq, mem_params_classify, mem_imported_classify,
      mem_nonlocals_classify, mem_globals_classify] at hpn hpg hin hig hng
    grind
  · intro hnot k k' hk hk'
    cases k <;> cases k' <;>
      simp only [ofKind, reduceCtorEq, mem_params_classify, mem_imported_classify,
        mem_nonlocals_classify, mem_locals_classify, mem_globals_classify] at hk hk' ⊢ <;>
      grind

theorem classify_inside_and_outside_iff :
    (name ∈ (classify params marks).allLocals ∧ name ∈ (classify params marks).free) ↔
      Disowned params marks name := by
  rw [mem_allLocals, mem_free, mem_params_classify, mem_locals_classify, mem_imported_classify,
    mem_nonlocals_classify, mem_globals_classify, mem_locals_classify]
  unfold Disowned
  grind

end Names

/-- **When the kinds of a function's names are disjoint.** A name has two kinds exactly when it is
declared `global` or `nonlocal` and is a parameter or an import as well, or is declared both ways;
and it is inside and outside the function at once exactly in the first of these cases. -/
theorem namesOf_oneKind_iff {source filename : String} {n : Names}
    (h : namesOf source filename = .ok n) :
    ∃ tokens block, tokenize source = .ok tokens ∧ findFunction filename none tokens = .ok block ∧
      ∀ name,
        (n.OneKind name ↔
          ¬ Names.Disowned (paramNames block.params) (bodyMarks block.body) name ∧
            ¬ Names.DeclaredTwice (bodyMarks block.body) name) ∧
        (name ∈ n.allLocals ∧ name ∈ n.free ↔
          Names.Disowned (paramNames block.params) (bodyMarks block.body) name) := by
  unfold namesOf at h
  split at h
  · cases h
  · rename_i tokens htokens
    split at h
    · cases h
    · rename_i block hblock
      cases h
      exact ⟨tokens, block, htokens, hblock, fun name =>
        ⟨Names.classify_oneKind_iff, Names.classify_inside_and_outside_iff⟩⟩

/-- A name that is declared `global` and then imported has two kinds. -/
theorem not_oneKind_of_global_import :
    ∃ n, namesOf "def f():\n    global m\n    import m\n    return m\n" "f.py" = .ok n ∧
      "m" ∈ n.imported ∧ "m" ∈ n.globals ∧ "m" ∈ n.allLocals ∧ "m" ∈ n.free ∧
      ¬ n.OneKind "m" := by
  have hrun : (namesOf "def f():\n    global m\n    import m\n    return m\n" "f.py").toOption.any
      (fun n => n.imported.contains "m" && n.globals.contains "m") = true := by
    decide +kernel
  cases hn : namesOf "def f():\n    global m\n    import m\n    return m\n" "f.py" with
  | error e =>
    rw [hn] at hrun
    cases hrun
  | ok n =>
    rw [hn] at hrun
    have hboth : n.imported.contains "m" = true ∧ n.globals.contains "m" = true := by
      simpa [Except.toOption] using hrun
    have himported : "m" ∈ n.imported := Std.TreeSet.contains_iff_mem.mp hboth.1
    have hglobals : "m" ∈ n.globals := Std.TreeSet.contains_iff_mem.mp hboth.2
    have hinside : "m" ∈ n.allLocals := Names.mem_allLocals.mpr (.inr himported)
    have houtside : "m" ∈ n.free := Names.mem_free.mpr (.inr hglobals)
    obtain ⟨tokens, block, -, -, hkinds⟩ := namesOf_oneKind_iff hn
    obtain ⟨hone, hdisowned⟩ := hkinds "m"
    refine ⟨n, rfl, himported, hglobals, hinside, houtside, fun honeKind => ?_⟩
    exact (hone.mp honeKind).1 (hdisowned.mp ⟨hinside, houtside⟩)

end Scope

end FieldView
