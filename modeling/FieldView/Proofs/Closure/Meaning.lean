import FieldView.Proofs.Closure.Flattening
import FieldView.Proofs.Toolchain.Lowering

/-!
# What a name finds in a fencil

Environments are scopes inside scopes; a fencil is one list, in which the last definition of a name
hides the ones before it. So a name that is bound to different functions in different environments
finds only one of them: the one at the last route that ends with this name
(`definition?_of_answer_flatten`). Every name keeps its meaning exactly when no two callables of one
name lower differently (`findsOwn_iff_unambiguous`).

Both occur. `definition?_of_homonym` is an operator that closes over an older operator of its own
name: the older one is found in its place.
-/

set_option autoImplicit false

namespace FieldView

variable {σ : Type}

open ClosureGraph

/-! ## The last of several definitions -/

theorem Fencil.definition?_eq_some_iff {f : Fencil} {id : String} {d : Fencil.Definition} :
    f.definition? id = some d ↔
      d.id = id ∧ ∃ before after, f.definitions = before ++ d :: after ∧
        ∀ d' ∈ after, d'.id ≠ id := by
  unfold Fencil.definition?
  rw [List.find?_eq_some_iff_append]
  simp only [beq_iff_eq, Bool.not_eq_true', beq_eq_false_iff_ne]
  constructor
  · intro h
    obtain ⟨hid, after, before, heq, hafter⟩ := h
    refine ⟨hid, before.reverse, after.reverse, ?_, fun d' hd' => hafter d' (by simpa using hd')⟩
    have := congrArg List.reverse heq
    simpa using this
  · intro h
    obtain ⟨hid, before, after, heq, hafter⟩ := h
    refine ⟨hid, after.reverse, before.reverse, ?_, fun d' hd' => hafter d' (by simpa using hd')⟩
    rw [heq]
    simp

theorem Fencil.exists_definition? {f : Fencil} {d : Fencil.Definition} (h : d ∈ f.definitions) :
    ∃ d', f.definition? d.id = some d' := by
  cases hf : f.definition? d.id with
  | some d' => exact ⟨d', rfl⟩
  | none =>
    unfold Fencil.definition? at hf
    have := List.find?_eq_none.mp hf d (by simpa using h)
    simp at this

/-! ## The last route to a name -/

/-- The route ends with a binding of the name, and all other such routes come before it. -/
def LastRoute (g : ClosureGraph) (e : Environment) (name : String) (trail : List Visit)
    (w : Visit) : Prop :=
  g.Route e (trail ++ [w]) ∧ w.name = name ∧
    ∀ trail' w', g.Route e (trail' ++ [w']) → w'.name = name →
      trail' ++ [w'] = trail ++ [w] ∨ Before (trail' ++ [w']) (trail ++ [w])

/-- A related pair of lists is cut on both sides where one of them is. -/
theorem forall₂_append_cons {α β : Type} {R : α → β → Prop} {as : List α} {b : β}
    {before after : List β} (h : List.Forall₂ R as (before ++ b :: after)) :
    ∃ as₁ a as₂, as = as₁ ++ a :: as₂ ∧ R a b ∧ List.Forall₂ R as₂ after := by
  induction before generalizing as with
  | nil =>
    cases h with
    | cons hab hrest => exact ⟨[], _, _, rfl, hab, hrest⟩
  | cons b' before ih =>
    cases h with
    | cons _ hrest =>
      obtain ⟨as₁, a, as₂, rfl, hab, hafter⟩ := ih hrest
      exact ⟨_ :: as₁, a, as₂, rfl, hab, hafter⟩

/-- What is defined node by node is defined route by route. -/
theorem forall₂_routes {t : Toolchain σ} {callables : List Callable} {s : σ}
    {ds : List Fencil.Definition} :
    ∀ {routes : List (List Visit)} {visits : List Visit},
      routes.map List.getLast? = visits.map some →
      List.Forall₂ (Defines t callables s) visits ds →
      List.Forall₂ (fun r d => ∃ w, r.getLast? = some w ∧ Defines t callables s w d) routes ds := by
  intro routes visits hlast hds
  induction hds generalizing routes with
  | nil =>
    cases routes with
    | nil => exact .nil
    | cons r routes => cases hlast
  | cons hd _ ih =>
    cases routes with
    | nil => cases hlast
    | cons r routes =>
      simp only [List.map_cons, List.cons.injEq] at hlast
      exact .cons ⟨_, hlast.1, hd⟩ (ih hlast.2)

/-- **A name finds the definition at the last route to it.** -/
theorem definition?_of_answer_flatten {t : Toolchain σ} (ht : t.Steady) {callables : List Callable}
    {e last : Environment} {s : σ} {v : Visit} {f : Fencil}
    (h : Stage.answer (flatten t callables e) s = .ok f.definitions)
    (hr : (closureGraph callables).Reaches e last) (hb : last.Binds v) :
    ∃ trail w d, LastRoute (closureGraph callables) e v.name trail w ∧
      LowersTo t callables s w.id d ∧ f.definition? v.name = some d := by
  obtain ⟨forest, hu, hds⟩ := (answer_flatten_eq_ok_iff_unfolds ht).mp h
  have hroutes := forall₂_routes forest.getLast?_routes hds
  obtain ⟨d₀, hmem, hd₀⟩ := exists_mem_of_forall₂ hds (hu.mem_visits.mpr ⟨last, hr, hb⟩)
  obtain ⟨d, hd⟩ := Fencil.exists_definition? hmem
  rw [hd₀.2] at hd
  obtain ⟨hid, before, after, heq, hafter⟩ := Fencil.definition?_eq_some_iff.mp hd
  rw [heq] at hroutes
  obtain ⟨rs₁, r, rs₂, hsplit, ⟨w, hw, hwd⟩, hrs₂⟩ := forall₂_append_cons hroutes
  obtain ⟨trail, rfl⟩ := List.getLast?_eq_some_iff.mp hw
  have hisRoute : ∀ r', r' ∈ forest.routes ↔ (closureGraph callables).Route e r' := by
    intro r'
    rw [hu.mem_routes, routeAmong_toList_all]
  refine ⟨trail, w, d, ⟨?_, ?_, ?_⟩, hwd.1, hd⟩
  · rw [← hisRoute, hsplit]
    simp
  · rw [← hwd.2, hid]
  · intro trail' w' hr' hname
    have hmem' := (hisRoute _).mpr hr'
    have hordered := hu.pairwise_routes e.pairwise_toList_all
    rw [hsplit] at hmem' hordered
    rcases List.mem_append.mp hmem' with hm | hm
    · exact .inr ((List.pairwise_append.mp hordered).2.2 _ hm _ List.mem_cons_self)
    · rcases List.mem_cons.mp hm with hm | hm
      · exact .inl hm
      · -- A route behind the last one would have a definition of this name behind `d`.
        exfalso
        obtain ⟨d', hd', w'', hw'', hdef⟩ := exists_mem_of_forall₂ hrs₂ hm
        obtain rfl : w' = w'' := by simpa using hw''
        exact hafter d' hd' (hdef.2.trans hname)

/-! ## Names that keep their meaning -/

/-- Every name in reach finds the definition of the callable that it is bound to. -/
def FindsOwn (t : Toolchain σ) (callables : List Callable) (s : σ) (e : Environment)
    (f : Fencil) : Prop :=
  ∀ last v, (closureGraph callables).Reaches e last → last.Binds v →
    ∃ d, LowersTo t callables s v.id d ∧ f.definition? v.name = some d

/-- Callables in reach under the same name lower to the same definition. -/
def Unambiguous (t : Toolchain σ) (callables : List Callable) (s : σ) (e : Environment) : Prop :=
  ∀ last v last' v', (closureGraph callables).Reaches e last → last.Binds v →
    (closureGraph callables).Reaches e last' → last'.Binds v' → v.name = v'.name →
    ∀ d d', LowersTo t callables s v.id d → LowersTo t callables s v'.id d' → d = d'

theorem LowersTo.unique {t : Toolchain σ} {callables : List Callable} {s : σ} {id : Nat}
    {d d' : Fencil.Definition} (h : LowersTo t callables s id d)
    (h' : LowersTo t callables s id d') : d = d' := by
  obtain ⟨c, hc, hd⟩ := h
  obtain ⟨c', hc', hd'⟩ := h'
  rw [hc] at hc'
  cases hc'
  rw [hd] at hd'
  exact Except.ok.inj hd'

theorem LastRoute.reaches {g : ClosureGraph} {e : Environment} {name : String}
    {trail : List Visit} {w : Visit} (h : LastRoute g e name trail w) :
    ∃ last, g.Reaches e last ∧ last.Binds w := by
  obtain ⟨last, hl, hb⟩ := route_snoc_iff.mp h.1
  exact ⟨last, ⟨trail, hl⟩, hb⟩

/-- **Names keep their meaning when no name has two**, and then only. -/
theorem findsOwn_iff_unambiguous {t : Toolchain σ} (ht : t.Steady) {callables : List Callable}
    {e : Environment} {s : σ} {f : Fencil}
    (h : Stage.answer (flatten t callables e) s = .ok f.definitions) :
    FindsOwn t callables s e f ↔ Unambiguous t callables s e := by
  constructor
  · intro hown last v last' v' hr hb hr' hb' hname d d' hd hd'
    obtain ⟨d₁, hd₁, hfound⟩ := hown last v hr hb
    obtain ⟨d₂, hd₂, hfound'⟩ := hown last' v' hr' hb'
    rw [hname, hfound'] at hfound
    rw [hd.unique hd₁, hd'.unique hd₂]
    exact (Option.some.inj hfound).symm
  · intro hone last v hr hb
    obtain ⟨-, hnamed, -⟩ := (exists_answer_flatten_iff ht).mp ⟨_, h⟩
    obtain ⟨d, hd, -⟩ := hnamed last v hr hb
    obtain ⟨trail, w, d', hlast, hd', hfound⟩ := definition?_of_answer_flatten ht h hr hb
    obtain ⟨last', hr', hb'⟩ := hlast.reaches
    have heq : d = d' := hone last v last' w hr hb hr' hb' hlast.2.1.symm d d' hd hd'
    exact ⟨d, hd, heq ▸ hfound⟩

/-! ## Programs -/

/-- The definitions of a fencil that was just lowered are the flattened ones. -/
theorem answer_flatten_of_lowerAnew {t : Toolchain σ} (hh : t.HandsOn) {u : ProgramUnit}
    {b : Bench σ} {f : Fencil} (h : Stage.answer (u.lowerAnew t) b = .ok f) :
    Stage.answer (flatten t b.callables u.captured) b.tools = .ok f.definitions := by
  obtain ⟨-, ds, hds, hf⟩ := ProgramUnit.answer_lowerAnew_eq_ok_iff.mp h
  rw [hh _ _ _ _ hf]
  exact hds

theorem OperatorUnit.binds_wrapperEnvironment (u : OperatorUnit) (id : Nat) :
    (u.wrapperEnvironment id).Binds ⟨u.name, id⟩ := by
  refine ⟨{ id, signature := some u.signature }, ?_, rfl⟩
  simp [wrapperEnvironment, Environment.withGlobal, Environment.get?]

/-- **What a name finds in the fencil of a program.** Under every name in reach there is the
definition at the last route to that name; so all names find their own callables exactly when no two
callables of one name lower differently. The program around an operator finds the operator itself
under its own name exactly when the last callable of that name in reach lowers as the operator does.

`b'` is the bench on which the fencil was computed, which is the present one unless the fencil was
kept from before. -/
theorem lower_finds_last (t : Toolchain σ) (ht : t.Steady) (hh : t.HandsOn) (b : Bench σ) :
    (∀ u f, ProgramUnit.Kept t u b → Stage.answer (u.lower t) b = .ok f →
      u.Kept t (Stage.after (u.lower t) b) ∧
      ∃ b' : Bench σ, (b.fencils[u.fencil]?.join = none → b' = b) ∧
        (∀ last v, (closureGraph b'.callables).Reaches u.captured last → last.Binds v →
          ∃ trail w d, LastRoute (closureGraph b'.callables) u.captured v.name trail w ∧
            LowersTo t b'.callables b'.tools w.id d ∧ f.definition? v.name = some d) ∧
        (FindsOwn t b'.callables b'.tools u.captured f ↔
          Unambiguous t b'.callables b'.tools u.captured)) ∧
    (∀ o p f, Stage.answer (OperatorUnit.asProgram o : Task σ ProgramUnit) b = .ok p →
      Stage.answer (p.lower t) (Stage.after (o.asProgram : Task σ ProgramUnit) b) = .ok f →
      ∃ d trail w, Stage.answer (t.lowerOperator o.node) b.tools = .ok d ∧
        LastRoute (closureGraph (b.callables ++ [.operator o])) p.captured o.name trail w ∧
        (f.definition? o.name = some d ↔
          LowersTo t (b.callables ++ [.operator o]) b.tools w.id d)) := by
  constructor
  · intro u f hk h
    obtain ⟨b', hb', hnew⟩ := hk.lowerAnew h
    have hflat := answer_flatten_of_lowerAnew hh hnew
    exact ⟨hk.after_lower, b', hb',
      fun last v hr hb => definition?_of_answer_flatten ht hflat hr hb,
      findsOwn_iff_unambiguous ht hflat⟩
  · intro o p f hp h
    obtain ⟨hcaptured, hplace, hafter⟩ := OperatorUnit.answer_asProgram_eq_ok hp
    -- The place for the fencil is the new one at the end, so nothing is kept there.
    have hempty : (Stage.after (o.asProgram : Task σ ProgramUnit) b).fencils[p.fencil]?.join
        = none := by
      rw [hafter, hplace]
      simp
    obtain ⟨b', hb', hnew⟩ := (ProgramUnit.kept_of_none hempty).lowerAnew h
    rw [hb' hempty, hafter] at hnew
    have hflat := answer_flatten_of_lowerAnew hh hnew
    have hb : p.captured.Binds ⟨o.name, b.callables.length⟩ := by
      rw [hcaptured]
      exact o.binds_wrapperEnvironment _
    obtain ⟨-, hnamed, -⟩ := (exists_answer_flatten_iff ht).mp ⟨_, hflat⟩
    obtain ⟨d, ⟨c, hc, hd⟩, -⟩ := hnamed _ _ (.refl _ _) hb
    obtain rfl : Callable.operator o = c := by simpa using hc
    obtain ⟨trail, w, d', hlast, hd', hfound⟩ :=
      definition?_of_answer_flatten ht hflat (.refl _ _) hb
    refine ⟨d, trail, w, hd, hlast, fun hown => ?_, fun hlowers => ?_⟩
    · rw [hown] at hfound
      cases hfound
      exact hd'
    · rw [hfound, hd'.unique hlowers]

/-! ## An operator over an older one of its name -/

/-- An operator `f` without parameters that closes over the first callable of the bench as `f`. -/
def homonym : OperatorUnit where
  node :=
    { id := "f", params := [], body := [], captured := [],
      loc := { source := "ops.py", line := 1, column := 1 } }
  captured := .ofHandles [("f", 0)]

/-- A bench with an older function `f`. -/
def homonymBench : Bench Unit := { callables := [.late "f" none none], tools := () }

/-- The program around the operator can be lowered, and finds the older function. -/
theorem answer_lower_homonym :
    ∃ p f, Stage.answer (homonym.asProgram : Task Unit ProgramUnit) homonymBench = .ok p ∧
      Stage.answer (p.lower Toolchain.plain)
        (Stage.after (homonym.asProgram : Task Unit ProgramUnit) homonymBench) = .ok f ∧
      f.definition? "f" =
        some { id := "f", params := ["x"], body := .call (.ref "deref") [.ref "x"] } := by
  let older : Fencil.Definition :=
    { id := "f", params := ["x"], body := .call (.ref "deref") [.ref "x"] }
  let own : Fencil.Definition := Ledger.operatorDefinition homonym.node
  let callables : List Callable := [.late "f" none none, .operator homonym]
  have hu : (closureGraph callables).Unfolds (homonym.wrapperEnvironment 1).all.toList
      (.node ⟨"f", 1⟩ (.node ⟨"f", 0⟩ .nil .nil) .nil) := by
    have hinner : (closureGraph callables).Unfolds homonym.captured.all.toList
        (.node ⟨"f", 0⟩ .nil .nil) := .leaf rfl .nil
    exact .branch rfl hinner .nil
  have hflat : Stage.answer (flatten Toolchain.plain callables (homonym.wrapperEnvironment 1))
      () = .ok [own, older] := by
    refine (answer_flatten_eq_ok_iff_unfolds Toolchain.steady_plain).mpr ⟨_, hu, ?_⟩
    exact .cons ⟨⟨_, rfl, rfl⟩, rfl⟩ (.cons ⟨⟨_, rfl, rfl⟩, rfl⟩ .nil)
  obtain ⟨p, hp, hcheck⟩ : ∃ p, Stage.answer (homonym.asProgram : Task Unit ProgramUnit)
      homonymBench = .ok p ∧ p.check = .ok () := ⟨_, rfl, rfl⟩
  obtain ⟨hcaptured, hplace, hafter⟩ := OperatorUnit.answer_asProgram_eq_ok hp
  refine ⟨p, Ledger.programFencil p.node [own, older], hp, ?_, rfl⟩
  rw [hafter, ProgramUnit.answer_lower, hplace]
  refine ProgramUnit.answer_lowerAnew_eq_ok_iff.mpr ⟨hcheck, [own, older], ?_, rfl⟩
  rw [hcaptured]
  exact hflat

/-- **A name may find another function than the one it is bound to.** -/
theorem definition?_of_homonym :
    ∃ p f own, Stage.answer (homonym.asProgram : Task Unit ProgramUnit) homonymBench = .ok p ∧
      Stage.answer (p.lower Toolchain.plain)
        (Stage.after (homonym.asProgram : Task Unit ProgramUnit) homonymBench) = .ok f ∧
      Stage.answer (Toolchain.plain.lowerOperator homonym.node) homonymBench.tools = .ok own ∧
      f.definition? homonym.name ≠ some own := by
  obtain ⟨p, f, hp, hf, hfound⟩ := answer_lower_homonym
  refine ⟨p, f, Ledger.operatorDefinition homonym.node, hp, hf, rfl, fun h => ?_⟩
  have hsame := hfound.symm.trans h
  cases hsame

/-- The last route to `f` is the one inside the operator. -/
theorem lower_finds_last_homonym :
    Toolchain.plain.Steady ∧ Toolchain.plain.HandsOn ∧
    ∃ p d trail w, Stage.answer (homonym.asProgram : Task Unit ProgramUnit) homonymBench = .ok p ∧
      Stage.answer (Toolchain.plain.lowerOperator homonym.node) homonymBench.tools = .ok d ∧
      LastRoute (closureGraph (homonymBench.callables ++ [.operator homonym])) p.captured
        homonym.name trail w ∧
      ¬ LowersTo Toolchain.plain (homonymBench.callables ++ [.operator homonym])
        homonymBench.tools w.id d := by
  have ht := Toolchain.steady_plain
  have hh := Toolchain.handsOn_plain
  obtain ⟨p, f, hp, hf, hfound⟩ := answer_lower_homonym
  obtain ⟨d, trail, w, hd, hlast, hiff⟩ :=
    (lower_finds_last Toolchain.plain ht hh homonymBench).2 homonym p f hp hf
  refine ⟨ht, hh, p, d, trail, w, hp, hd, hlast, fun hlowers => ?_⟩
  cases hd
  have hsame := hfound.symm.trans (hiff.mpr hlowers)
  cases hsame

end FieldView
