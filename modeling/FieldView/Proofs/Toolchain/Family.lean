import FieldView.Proofs.Toolchain.Cache

/-!
# Families of units

A family is a program and all that was derived from it by copying and by choosing another backend,
on one bench. Every member carries the number of its stem: a copy has the stem of what it copies, and
a unit with another backend starts a stem of its own. Units of one stem share a place on the bench and
no others do (`Family.Sound`), which every move preserves.

So there is one cache for each stem, and a run fills it with the first success of that stem:
`cache_run` says that what is kept after some moves is what was kept before, or else the first fencil
that a lowering of the stem answered. Nothing is assumed of the toolchain, which may fail and may
answer differently every time.
-/

set_option autoImplicit false

namespace FieldView

variable {σ : Type}

/-- A unit of a family and the number of its stem. -/
structure Member where
  unit : ProgramUnit
  stem : Nat

/-- A bench, and the units of the family in the order in which they were made. -/
structure Family (σ : Type) where
  bench : Bench σ
  members : List Member

/-- What can be done with a member, given by its number. -/
inductive Move
  | lower (i : Nat)
  | call (i : Nat) (args : List Argument) (kwargs : NameMap Argument) (offsets : OffsetProvider)
  | clone (i : Nat)
  | withBackend (i : Nat) (backend : String)

namespace Family

/-- The family with a copy of a member. -/
def copy (s : Family σ) (m : Member) : Family σ := { s with members := s.members ++ [m] }

/-- The family with a unit that has a stem of its own, and an empty place. -/
def join (s : Family σ) (u : ProgramUnit) : Family σ :=
  { bench := { s.bench with fencils := s.bench.fencils ++ [none] }
    members := s.members ++
      [{ unit := { u with fencil := s.bench.fencils.length }, stem := s.members.length }] }

/-- The family of a unit that is new on its bench. -/
def start (b : Bench σ) (u : ProgramUnit) : Family σ := join { bench := b, members := [] } u

/-- Makes a move. There is nothing to do for a member that does not exist. -/
def step (t : Toolchain σ) (s : Family σ) : Move → Family σ
  | .lower i =>
    match s.members[i]? with
    | none => s
    | some m => { s with bench := Stage.after (m.unit.lower t) s.bench }
  | .call i args kwargs offsets =>
    match s.members[i]? with
    | none => s
    | some m => { s with bench := Stage.after (m.unit.call t args kwargs offsets) s.bench }
  | .clone i =>
    match s.members[i]? with
    | none => s
    | some m => s.copy m
  | .withBackend i backend =>
    match s.members[i]? with
    | none => s
    | some m =>
      match (m.unit.withBackend backend : Task σ ProgramUnit) s.bench with
      | (.error _, bench) => { s with bench }
      | (.ok unit, bench) => { bench, members := s.members ++ [{ unit, stem := s.members.length }] }

/-- Makes some moves, one after another. -/
def run (t : Toolchain σ) (s : Family σ) (moves : List Move) : Family σ := moves.foldl (step t) s

/-- The member that a move lowers, directly or in a call, and what lowering answers. A call whose
arguments are wrong does not get so far. -/
def attempt? (t : Toolchain σ) (s : Family σ) : Move → Option (Member × Except Error Fencil)
  | .lower i => s.members[i]?.map fun m => (m, Stage.answer (m.unit.lower t) s.bench)
  | .call i args kwargs _ =>
    s.members[i]?.bind fun m =>
      match m.unit.invocation args kwargs with
      | .error _ => none
      | .ok _ => some (m, Stage.answer (m.unit.lower t) s.bench)
  | .clone _ => none
  | .withBackend _ _ => none

/-- The fencil of a move that lowers a member of the stem with success. -/
def success? (t : Toolchain σ) (s : Family σ) (stem : Nat) (move : Move) : Option Fencil :=
  match s.attempt? t move with
  | some (m, .ok f) => if m.stem = stem then some f else none
  | _ => none

/-- The fencil of the first such move. -/
def firstSuccess? (t : Toolchain σ) (s : Family σ) (stem : Nat) : List Move → Option Fencil
  | [] => none
  | move :: moves => (s.success? t stem move).or ((s.step t move).firstSuccess? t stem moves)

/-! ## What a move does -/

/-- The outcome of a move: nothing, a lowering of some member, a copy, or a unit with another backend
and a place of its own. -/
theorem step_cases (t : Toolchain σ) (s : Family σ) (move : Move) :
    s.attempt? t move = none ∧ (s.step t move).members = s.members ∧
        (s.step t move).bench.fencils = s.bench.fencils ∨
      (∃ m ∈ s.members, ∃ answer, answer = Stage.answer (m.unit.lower t) s.bench ∧
        s.attempt? t move = some (m, answer) ∧ (s.step t move).members = s.members ∧
        (s.step t move).bench.fencils = fill s.bench.fencils m.unit.fencil answer) ∨
      (∃ m ∈ s.members, s.attempt? t move = none ∧ s.step t move = s.copy m) ∨
      (∃ m ∈ s.members, ∃ backend, s.attempt? t move = none ∧
        s.step t move = s.join { m.unit with backend := some backend }) := by
  cases move with
  | lower i =>
    cases hm : s.members[i]? with
    | none => exact .inl (by simp [attempt?, step, hm])
    | some m =>
      have hfilled := m.unit.fencils_after_lower t s.bench
      refine .inr (.inl ⟨m, List.mem_of_getElem? hm, _, rfl, ?_, ?_, ?_⟩)
      · simp [attempt?, hm]
      · simp [step, hm]
      · simpa only [step, hm] using hfilled
  | call i args kwargs offsets =>
    cases hm : s.members[i]? with
    | none => exact .inl (by simp [attempt?, step, hm])
    | some m =>
      -- Wrong arguments end a call before anything is lowered.
      have hcall := m.unit.fencils_after_call t args kwargs offsets s.bench
      cases hargs : m.unit.invocation args kwargs with
      | error e =>
        rw [hargs] at hcall
        refine .inl ⟨?_, ?_, ?_⟩
        · simp [attempt?, hm, hargs]
        · simp [step, hm]
        · simpa only [step, hm] using hcall
      | ok invocation =>
        rw [hargs] at hcall
        have hfilled := m.unit.fencils_after_lower t s.bench
        refine .inr (.inl ⟨m, List.mem_of_getElem? hm, _, rfl, ?_, ?_, ?_⟩)
        · simp [attempt?, hm, hargs]
        · simp [step, hm]
        · simpa only [step, hm] using hcall.trans hfilled
  | clone i =>
    cases hm : s.members[i]? with
    | none => exact .inl (by simp [attempt?, step, hm])
    | some m => exact .inr (.inr (.inl ⟨m, List.mem_of_getElem? hm, rfl, by simp [step, hm]⟩))
  | withBackend i backend =>
    cases hm : s.members[i]? with
    | none => exact .inl (by simp [attempt?, step, hm])
    | some m =>
      refine .inr (.inr (.inr ⟨m, List.mem_of_getElem? hm, backend, rfl, ?_⟩))
      simp only [step, hm]
      rfl

/-- The one case that lowers. -/
theorem step_of_attempt {t : Toolchain σ} {s : Family σ} {move : Move} {m : Member}
    {answer : Except Error Fencil} (h : s.attempt? t move = some (m, answer)) :
    m ∈ s.members ∧ answer = Stage.answer (m.unit.lower t) s.bench ∧
      (s.step t move).members = s.members ∧
      (s.step t move).bench.fencils = fill s.bench.fencils m.unit.fencil answer := by
  rcases step_cases t s move with ⟨hnone, -⟩ | ⟨m', hm', answer', hanswer, hattempt, hrest⟩ |
    ⟨_, -, hnone, -⟩ | ⟨_, -, _, hnone, -⟩
  · rw [h] at hnone
    cases hnone
  · rw [h] at hattempt
    cases hattempt
    exact ⟨hm', hanswer, hrest⟩
  · rw [h] at hnone
    cases hnone
  · rw [h] at hnone
    cases hnone

/-! ## Places -/

/-- Every member has a place on the bench, which it shares with those of its stem and no others. -/
structure Sound (s : Family σ) : Prop where
  placed : ∀ m ∈ s.members, m.unit.fencil < s.bench.fencils.length
  shared : ∀ m ∈ s.members, ∀ m' ∈ s.members, m.stem = m'.stem ↔ m.unit.fencil = m'.unit.fencil
  known : ∀ m ∈ s.members, m.stem < s.members.length

/-- Members of different stems have different places. -/
theorem Sound.fencil_ne {s : Family σ} (hs : s.Sound) {m m' : Member} (hm : m ∈ s.members)
    (hm' : m' ∈ s.members) (hne : m.stem ≠ m'.stem) : m.unit.fencil ≠ m'.unit.fencil := by
  intro hsame
  exact hne ((hs.shared m hm m' hm').mpr hsame)

/-- Soundness depends on the members and on the number of places only. -/
theorem Sound.of_eq {s s' : Family σ} (hs : s.Sound) (hmembers : s'.members = s.members)
    (hlength : s'.bench.fencils.length = s.bench.fencils.length) : s'.Sound where
  placed := by
    rw [hmembers, hlength]
    exact hs.placed
  shared := by
    rw [hmembers]
    exact hs.shared
  known := by
    rw [hmembers]
    exact hs.known

theorem Sound.join {s : Family σ} (hs : s.Sound) (u : ProgramUnit) : (s.join u).Sound := by
  -- What is old has a smaller place and a smaller stem than what is new.
  have hcases : ∀ m ∈ (s.join u).members,
      m ∈ s.members ∧ m.unit.fencil < s.bench.fencils.length ∧ m.stem < s.members.length ∨
        m.unit.fencil = s.bench.fencils.length ∧ m.stem = s.members.length := by
    intro m hm
    rcases List.mem_append.mp hm with hm | hm
    · exact .inl ⟨hm, hs.placed m hm, hs.known m hm⟩
    · obtain rfl := List.mem_singleton.mp hm
      exact .inr ⟨rfl, rfl⟩
  have hplaces : (s.join u).bench.fencils.length = s.bench.fencils.length + 1 := by
    simp [Family.join]
  have hmembers : (s.join u).members.length = s.members.length + 1 := by
    simp [Family.join]
  constructor
  · intro m hm
    rcases hcases m hm with ⟨-, hplace, -⟩ | ⟨hplace, -⟩
    · omega
    · omega
  · intro m hm m' hm'
    rcases hcases m hm with ⟨hold, hplace, hstem⟩ | ⟨hplace, hstem⟩
    · rcases hcases m' hm' with ⟨hold', -, -⟩ | ⟨hplace', hstem'⟩
      · exact hs.shared m hold m' hold'
      · omega
    · rcases hcases m' hm' with ⟨-, hplace', hstem'⟩ | ⟨hplace', hstem'⟩
      · omega
      · omega
  · intro m hm
    rcases hcases m hm with ⟨-, -, hstem⟩ | ⟨-, hstem⟩
    · omega
    · omega

theorem sound_start (b : Bench σ) (u : ProgramUnit) : (start b u).Sound := by
  have hnone : Sound { bench := b, members := [] } := by
    constructor <;> simp
  exact hnone.join u

theorem Sound.copy {s : Family σ} (hs : s.Sound) {m : Member} (hm : m ∈ s.members) :
    (s.copy m).Sound := by
  have hold : ∀ m' ∈ (s.copy m).members, m' ∈ s.members := by
    intro m' hm'
    rcases List.mem_append.mp hm' with hm' | hm'
    · exact hm'
    · rwa [List.mem_singleton.mp hm']
  constructor
  · intro m' hm'
    exact hs.placed m' (hold m' hm')
  · intro m' hm' m'' hm''
    exact hs.shared m' (hold m' hm') m'' (hold m'' hm'')
  · intro m' hm'
    have hlength : (s.copy m).members.length = s.members.length + 1 := by
      simp [Family.copy]
    have := hs.known m' (hold m' hm')
    omega

theorem Sound.step {s : Family σ} (hs : s.Sound) (t : Toolchain σ) (move : Move) :
    (s.step t move).Sound := by
  rcases step_cases t s move with ⟨-, hmembers, hfencils⟩ |
    ⟨m, -, answer, -, -, hmembers, hfencils⟩ | ⟨m, hm, -, heq⟩ | ⟨m, -, backend, -, heq⟩
  · exact hs.of_eq hmembers (by rw [hfencils])
  · exact hs.of_eq hmembers (by rw [hfencils, length_fill])
  · rw [heq]
    exact hs.copy hm
  · rw [heq]
    exact hs.join _

theorem Sound.run {s : Family σ} (hs : s.Sound) (t : Toolchain σ) (moves : List Move) :
    (s.run t moves).Sound := by
  induction moves generalizing s with
  | nil => exact hs
  | cons move moves ih => exact ih (hs.step t move)

/-! ## Caches -/

/-- What is kept for the members of a stem. -/
def cache (s : Family σ) (stem : Nat) : Option Fencil :=
  (s.members.find? fun m => m.stem == stem).bind fun m => m.unit.kept? s.bench

theorem Sound.cache_eq {s : Family σ} (hs : s.Sound) {m : Member} (hm : m ∈ s.members) :
    s.cache m.stem = m.unit.kept? s.bench := by
  unfold cache
  cases hfind : s.members.find? fun m' => m'.stem == m.stem with
  | none => simpa using List.find?_eq_none.mp hfind m hm
  | some m' =>
    have hstem : m'.stem = m.stem := by simpa using List.find?_some hfind
    have hplace := (hs.shared m' (List.mem_of_find?_eq_some hfind) m hm).mp hstem
    show m'.unit.kept? s.bench = m.unit.kept? s.bench
    unfold ProgramUnit.kept?
    rw [hplace]

/-- Families with the same members for a stem have the same cache for it, if the bench keeps the same
for each of them. -/
theorem cache_congr {s s' : Family σ} {stem : Nat}
    (hmembers : s'.members = s.members)
    (hkept : ∀ m ∈ s.members, m.stem = stem → m.unit.kept? s'.bench = m.unit.kept? s.bench) :
    s'.cache stem = s.cache stem := by
  unfold cache
  rw [hmembers]
  cases hfind : s.members.find? fun m => m.stem == stem with
  | none => rfl
  | some m => exact hkept m (List.mem_of_find?_eq_some hfind) (by simpa using List.find?_some hfind)

/-- A lowering fills the cache of its stem. -/
theorem Sound.cache_of_attempt {s s' : Family σ} (hs : s.Sound) (hs' : s'.Sound) {t : Toolchain σ}
    {m : Member} (hm : m ∈ s.members) (hmembers : s'.members = s.members)
    {answer : Except Error Fencil} (hanswer : answer = Stage.answer (m.unit.lower t) s.bench)
    (hfencils : s'.bench.fencils = fill s.bench.fencils m.unit.fencil answer) :
    s'.cache m.stem = (s.cache m.stem).or answer.toOption := by
  rw [hs'.cache_eq (by rw [hmembers]; exact hm), hs.cache_eq hm]
  cases answer with
  | error e =>
    show m.unit.kept? s'.bench = (m.unit.kept? s.bench).or none
    unfold ProgramUnit.kept?
    rw [hfencils, Option.or_none]
    rfl
  | ok f =>
    show m.unit.kept? s'.bench = (m.unit.kept? s.bench).or (some f)
    rw [ProgramUnit.kept?_of_set hfencils (hs.placed m hm)]
    -- What is kept already is what was answered.
    cases hkept : m.unit.kept? s.bench with
    | none => rfl
    | some f' => rw [ProgramUnit.eq_of_kept? hanswer.symm hkept, Option.some_or]

/-- A lowering leaves the caches of other stems alone. -/
theorem Sound.cache_of_attempt_ne {s s' : Family σ} (hs : s.Sound) {m : Member}
    (hm : m ∈ s.members) (hmembers : s'.members = s.members) {answer : Except Error Fencil}
    (hfencils : s'.bench.fencils = fill s.bench.fencils m.unit.fencil answer) {stem : Nat}
    (hne : m.stem ≠ stem) : s'.cache stem = s.cache stem := by
  refine cache_congr hmembers ?_
  intro m' hm' hstem
  have hplace := hs.fencil_ne hm hm' (by rw [hstem]; exact hne)
  exact ProgramUnit.kept?_of_fill_ne hfencils hplace

/-- A copy adds no cache. -/
theorem cache_copy {s : Family σ} {m : Member} (hm : m ∈ s.members) (stem : Nat) :
    (s.copy m).cache stem = s.cache stem := by
  unfold cache Family.copy
  rw [List.find?_append]
  cases hfind : s.members.find? fun m' => m'.stem == stem with
  | some m' => rfl
  | none =>
    have hstem : (m.stem == stem) = false := by simpa using List.find?_eq_none.mp hfind m hm
    simp [hstem]

/-- A new place adds an empty cache. -/
theorem Sound.cache_join {s : Family σ} (hs : s.Sound) (u : ProgramUnit) (stem : Nat) :
    (s.join u).cache stem = s.cache stem := by
  unfold cache Family.join
  rw [List.find?_append]
  cases hfind : s.members.find? fun m => m.stem == stem with
  | some m =>
    have hplaced := hs.placed m (List.mem_of_find?_eq_some hfind)
    show (s.bench.fencils ++ [none])[m.unit.fencil]?.join = s.bench.fencils[m.unit.fencil]?.join
    rw [List.getElem?_append_left hplaced]
  | none =>
    -- The stem is the new one, whose place is empty, or there is no such stem.
    rw [Option.none_or, List.find?_singleton]
    split
    · show (s.bench.fencils ++ [none])[s.bench.fencils.length]?.join = none
      rw [List.getElem?_concat_length]
      rfl
    · rfl

/-- **One move**: what a stem keeps stays, and an empty cache is filled by a success of the stem and by
nothing else. -/
theorem Sound.cache_step {s : Family σ} (hs : s.Sound) (t : Toolchain σ) (move : Move) (stem : Nat) :
    (s.step t move).cache stem = (s.cache stem).or (s.success? t stem move) := by
  have hs' := hs.step t move
  rcases step_cases t s move with ⟨hnone, hmembers, hfencils⟩ |
    ⟨m, hm, answer, hanswer, hattempt, hmembers, hfencils⟩ | ⟨m, hm, hnone, heq⟩ |
    ⟨m, hm, backend, hnone, heq⟩
  · have hsame : (s.step t move).cache stem = s.cache stem := by
      refine cache_congr hmembers ?_
      intro m _ _
      unfold ProgramUnit.kept?
      rw [hfencils]
    rw [hsame, success?, hnone, Option.or_none]
  · by_cases hstem : m.stem = stem
    · subst hstem
      rw [hs.cache_of_attempt hs' hm hmembers hanswer hfencils, success?, hattempt]
      cases answer with
      | error e => rfl
      | ok f => simp [Except.toOption]
    · rw [hs.cache_of_attempt_ne hm hmembers hfencils hstem, success?, hattempt]
      cases answer with
      | error e => simp
      | ok f => simp [hstem]
  · rw [heq, cache_copy hm, success?, hnone, Option.or_none]
  · rw [heq, hs.cache_join, success?, hnone, Option.or_none]

/-- **A whole run**: a cache holds what it held, or else the first success of its stem. -/
theorem Sound.cache_run {s : Family σ} (hs : s.Sound) (t : Toolchain σ) (moves : List Move)
    (stem : Nat) :
    (s.run t moves).cache stem = (s.cache stem).or (s.firstSuccess? t stem moves) := by
  induction moves generalizing s with
  | nil => rw [firstSuccess?, Option.or_none]; rfl
  | cons move moves ih =>
    show ((s.step t move).run t moves).cache stem = _
    rw [ih (hs.step t move), hs.cache_step, firstSuccess?, Option.or_assoc]

/-! ## Lowering happens once -/

/-- A unit has its fencil for good: lowering answers it, calling runs it, and whatever the toolchain,
nothing is lowered. -/
def Settled (u : ProgramUnit) (f : Fencil) (b : Bench σ) : Prop :=
  ∀ t : Toolchain σ, u.lower t b = (.ok f, b) ∧ ∀ args kwargs offsets,
    u.call t args kwargs offsets b = u.callOn t.config t.execute f args kwargs offsets b

theorem settled_of_kept {u : ProgramUnit} {f : Fencil} {b : Bench σ} (h : u.kept? b = some f) :
    Settled u f b := by
  intro t
  exact ⟨ProgramUnit.lower_of_kept h t, ProgramUnit.call_of_kept h t⟩

/-- After a success the members of the stem are settled, now and after any further moves. -/
theorem Sound.settled_run {s : Family σ} (hs : s.Sound) {t : Toolchain σ} {move : Move} {m : Member}
    {f : Fencil} (h : s.attempt? t move = some (m, .ok f)) (more : List Move) {m' : Member}
    (hm' : m' ∈ ((s.step t move).run t more).members) (hstem : m'.stem = m.stem) :
    Settled m'.unit f ((s.step t move).run t more).bench := by
  obtain ⟨hm, -, hmembers, hfencils⟩ := step_of_attempt h
  have hstep := hs.step t move
  have hfilled : (s.step t move).cache m.stem = some f := by
    rw [hstep.cache_eq (by rw [hmembers]; exact hm)]
    exact ProgramUnit.kept?_of_set hfencils (hs.placed m hm)
  have hkept := (hstep.run t more).cache_eq hm'
  rw [hstem, hstep.cache_run, hfilled, Option.some_or] at hkept
  exact settled_of_kept hkept.symm

/-- After a failure nothing is kept, for as long as no lowering of the stem succeeds. -/
theorem Sound.kept?_run_of_error {s : Family σ} (hs : s.Sound) {t : Toolchain σ} {move : Move}
    {m : Member} {e : Error} (h : s.attempt? t move = some (m, .error e)) {more : List Move}
    (hmore : (s.step t move).firstSuccess? t m.stem more = none) {m' : Member}
    (hm' : m' ∈ ((s.step t move).run t more).members) (hstem : m'.stem = m.stem) :
    m'.unit.kept? ((s.step t move).run t more).bench = none := by
  obtain ⟨hm, hanswer, -, -⟩ := step_of_attempt h
  have hempty : s.cache m.stem = none := by
    rw [hs.cache_eq hm]
    exact ProgramUnit.kept?_eq_none_of_error hanswer.symm
  have hstep : (s.step t move).cache m.stem = none := by
    rw [hs.cache_step, hempty, success?, h]
    rfl
  have hkept := ((hs.step t move).run t more).cache_eq hm'
  rw [hstem, (hs.step t move).cache_run, hstep, hmore] at hkept
  exact hkept.symm

/-- **A unit is lowered once.** Take any moves from a new program, with any toolchain, and a move that
lowers a member. If that succeeds, the fencil is settled for every unit of the stem from then on. If
it fails, nothing is kept and the next lowering tries anew, until one succeeds. A unit with another
backend starts a stem of its own, with nothing kept, and members of different stems neither read nor
change what is kept for each other. -/
theorem lowered_once (t : Toolchain σ) (b : Bench σ) (u : ProgramUnit) (moves : List Move) :
    let s := (start b u).run t moves
    (∀ move m f, s.attempt? t move = some (m, .ok f) → ∀ more,
      let s' := (s.step t move).run t more
      ∀ m' ∈ s'.members, m'.stem = m.stem → Settled m'.unit f s'.bench) ∧
    (∀ move m e, s.attempt? t move = some (m, .error e) → ∀ more,
      (s.step t move).firstSuccess? t m.stem more = none →
      let s' := (s.step t move).run t more
      ∀ m' ∈ s'.members, m'.stem = m.stem →
        m'.unit.kept? s'.bench = none ∧
        m'.unit.lower t s'.bench = m'.unit.lowerAndKeep t s'.bench) ∧
    (∀ i backend m, s.members[i]? = some m →
      let s' := s.step t (.withBackend i backend)
      ∃ m', s'.members = s.members ++ [m'] ∧
        m'.unit = { m.unit with backend := some backend, fencil := m'.unit.fencil } ∧
        (∀ old ∈ s.members, old.stem ≠ m'.stem) ∧ m'.unit.kept? s'.bench = none) ∧
    (∀ m ∈ s.members, ∀ m' ∈ s.members, m.stem ≠ m'.stem →
      (∀ f?, m'.unit.lower t (s.bench.put m.unit.fencil f?) =
        (Stage.answer (m'.unit.lower t) s.bench,
          (Stage.after (m'.unit.lower t) s.bench).put m.unit.fencil f?)) ∧
      ∀ move answer, s.attempt? t move = some (m', answer) →
        m.unit.kept? (s.step t move).bench = m.unit.kept? s.bench) := by
  intro s
  have hs : s.Sound := (sound_start b u).run t moves
  refine ⟨?_, ?_, ?_, ?_⟩
  · intro move m f h more s' m' hm' hstem
    exact hs.settled_run h more hm' hstem
  · intro move m e h more hmore s' m' hm' hstem
    have hkept := hs.kept?_run_of_error h hmore hm' hstem
    exact ⟨hkept, ProgramUnit.lower_of_not_kept hkept⟩
  · intro i backend m hm s'
    refine ⟨⟨{ m.unit with backend := some backend, fencil := s.bench.fencils.length },
      s.members.length⟩, ?_, rfl, ?_, ?_⟩
    · simp only [s', step, hm]
      rfl
    · intro old hold
      exact Nat.ne_of_lt (hs.known old hold)
    · have hfencils : s'.bench.fencils = s.bench.fencils ++ [none] := by
        simp only [s', step, hm]
        rfl
      unfold ProgramUnit.kept?
      rw [hfencils, List.getElem?_concat_length]
      rfl
  · intro m hm m' hm' hne
    have hplace := hs.fencil_ne hm hm' hne
    refine ⟨ProgramUnit.lower_put hplace t s.bench, ?_⟩
    intro move answer h
    obtain ⟨-, -, -, hfencils⟩ := step_of_attempt h
    exact ProgramUnit.kept?_of_fill_ne hfencils hplace.symm

/-- A toolchain that fails at first, and then gives a fencil of another name every time. -/
def fickle : Toolchain Nat where
  lowerOperator _ := throw (.stage "lowering" "refused")
  lowerProgram _ definitions := fun n =>
    match n with
    | 0 => (.error (.stage "lowering" "busy"), 1)
    | n + 1 => (.ok { id := if n = 0 then "first" else "later", definitions, params := [],
                      closures := [] }, n + 2)
  execute _ _ _ _ := pure ()

/-- A program that does nothing. -/
def idle : ProgramUnit where
  node :=
    { id := "idle", params := [], body := [], captured := [],
      loc := { source := "ops.py", line := 1, column := 1 } }
  captured := {}
  fencil := 0

theorem flatten_empty (t : Toolchain σ) (callables : List Callable) :
    flatten t callables {} = pure [] := by
  unfold flatten
  show (closureGraph callables).collectFrom (Visit.lower t callables) [] [] = pure []
  rw [ClosureGraph.collectFrom]

/-- A unit that closes over nothing is lowered by one stage. -/
theorem lower_of_closed {t : Toolchain σ} {u : ProgramUnit} {b : Bench σ}
    (hcheck : u.check = .ok ()) (hcaptured : u.captured = {}) (hkept : u.kept? b = none) :
    u.lower t b =
      match t.lowerProgram u.node [] b.tools with
      | (.ok f, tools) => (.ok f, Bench.put { b with tools } u.fencil (some f))
      | (.error e, tools) => (.error e, { b with tools }) := by
  have hanew : u.lowerAnew t b = Task.consult (t.lowerProgram u.node []) b := by
    unfold ProgramUnit.lowerAnew
    rw [hcheck, hcaptured]
    show Task.consult (flatten t b.callables {} >>= t.lowerProgram u.node) b = _
    rw [flatten_empty, pure_bind]
  rw [ProgramUnit.lower_of_not_kept hkept, ProgramUnit.lowerAndKeep_eq, Stage.answer, Stage.after,
    hanew, Task.consult]
  rcases t.lowerProgram u.node [] b.tools with ⟨_ | f, tools⟩
  · rfl
  · rfl

/-- The first attempt fails. The second one, on a copy, settles the fencil for both; the unit with
another backend gets its own. -/
theorem fickle_lowered_once :
    let s := (start { tools := 0 } idle).run fickle [.lower 0, .clone 0]
    let s' := (s.step fickle (.lower 1)).run fickle [.withBackend 0 "gpu", .lower 2]
    let fencil (id : String) : Fencil := { id, definitions := [], params := [], closures := [] }
    s.attempt? fickle (.lower 1) = some (⟨idle, 0⟩, .ok (fencil "first")) ∧
      s'.bench.fencils = [some (fencil "first"), some (fencil "later")] ∧
      ∀ m' ∈ s'.members, m'.stem = 0 → Settled m'.unit (fencil "first") s'.bench := by
  intro s s' fencil
  let bench (fencils : List (Option Fencil)) (n : Nat) : Bench Nat := { fencils, tools := n }
  have hfails : idle.lower fickle (bench [none] 0) =
      (.error (.stage "lowering" "busy"), bench [none] 1) := lower_of_closed rfl rfl rfl
  have hlowers : idle.lower fickle (bench [none] 1) =
      (.ok (fencil "first"), bench [some (fencil "first")] 2) := lower_of_closed rfl rfl rfl
  let other : ProgramUnit := { idle with backend := some "gpu", fencil := 1 }
  have hother : other.lower fickle (bench [some (fencil "first"), none] 2) =
      (.ok (fencil "later"), bench [some (fencil "first"), some (fencil "later")] 3) :=
    lower_of_closed rfl rfl rfl
  have hs : s = ⟨bench [none] 1, [⟨idle, 0⟩, ⟨idle, 0⟩]⟩ := by
    show (⟨(idle.lower fickle (bench [none] 0)).2, [⟨idle, 0⟩, ⟨idle, 0⟩]⟩ : Family Nat) = _
    rw [hfails]
  have hattempt : s.attempt? fickle (.lower 1) = some (⟨idle, 0⟩, .ok (fencil "first")) := by
    rw [hs]
    show some (_, (idle.lower fickle (bench [none] 1)).1) = _
    rw [hlowers]
  have hstep : s.step fickle (.lower 1) =
      ⟨bench [some (fencil "first")] 2, [⟨idle, 0⟩, ⟨idle, 0⟩]⟩ := by
    rw [hs]
    show (⟨(idle.lower fickle (bench [none] 1)).2, _⟩ : Family Nat) = _
    rw [hlowers]
  have hfencils : s'.bench.fencils = [some (fencil "first"), some (fencil "later")] := by
    show ((s.step fickle (.lower 1)).run fickle _).bench.fencils = _
    rw [hstep]
    show (other.lower fickle (bench [some (fencil "first"), none] 2)).2.fencils = _
    rw [hother]
  have honce := lowered_once fickle { tools := 0 } idle [.lower 0, .clone 0]
  exact ⟨hattempt, hfencils, honce.1 _ _ _ hattempt [.withBackend 0 "gpu", .lower 2]⟩

end Family

end FieldView
