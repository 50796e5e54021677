import Mathlib.Order.Bounds.Defs
import FieldView.Proofs.Text.Fresh

/-!
# A supply that answers requests

A supply is asked for names one after another, for any name or for one that is not taken, each time
with other names taken. `answers` is such a sequence. Its numbers only rise, so no name is given
twice, and each is the least that the request allows.

The search for a free number crosses off the taken names that it has met. `Loop` is the search
without that: names are drawn from a counter of 32 bits until one is not taken. The two agree as
long as the counter does not overflow, so the loop ends, though nothing in it says so.
-/

set_option autoImplicit false

namespace FieldView.Text

/-- What a supply is asked for. -/
inductive Request
  /-- The next name. -/
  | next
  /-- The next name that is not one of these. -/
  | avoiding (taken : List String)

/-- The names that a request does not allow. -/
def Request.taken : Request → List String
  | next => []
  | avoiding taken => taken

namespace NameSupply

/-- The name given on a request, and the supply after it. -/
def answer (s : NameSupply) : Request → String × NameSupply
  | .next => s.fresh
  | .avoiding taken => s.freshUnless taken

/-- The names given on several requests, and the supply after them. -/
def answers (s : NameSupply) : List Request → List String × NameSupply
  | [] => ([], s)
  | r :: rs => ((s.answer r).1 :: ((s.answer r).2.answers rs).1, ((s.answer r).2.answers rs).2)

/-- The name has the least number, not below the next one, that the request allows, and the supply
goes on behind that number. -/
def Gives (s : NameSupply) (r : Request) (name : String) (s' : NameSupply) : Prop :=
  ∃ k, name = s.stem ++ "_" ++ toString k ∧
    IsLeast {j | s.next ≤ j ∧ s.stem ++ "_" ++ toString j ∉ r.taken} k ∧
    s' = { s with next := k + 1 }

end NameSupply

/-! ## Drawing from a counter -/

/-- A supply with a counter of 32 bits. -/
structure Counter where
  stem : String
  next : UInt32

namespace Counter

/-- The name with the number of the counter, which is then raised. -/
def draw (c : Counter) : String × Counter :=
  (c.stem ++ "_" ++ toString c.next, { c with next := c.next + 1 })

/-- Names are drawn until one is not taken. -/
inductive Loop (taken : List String) : Counter → String → Counter → Prop
  | found {c : Counter} : c.draw.1 ∉ taken → Loop taken c c.draw.1 c.draw.2
  | again {c c' : Counter} {name : String} :
      c.draw.1 ∈ taken → Loop taken c.draw.2 name c' → Loop taken c name c'

/-- How a request is answered from a counter. -/
inductive Answers : Counter → Request → String → Counter → Prop
  | next {c : Counter} : Answers c .next c.draw.1 c.draw.2
  | avoiding {c c' : Counter} {taken : List String} {name : String} :
      Loop taken c name c' → Answers c (.avoiding taken) name c'

theorem Loop.unique {taken : List String} {c c₁ c₂ : Counter} {name₁ name₂ : String}
    (h₁ : Loop taken c name₁ c₁) (h₂ : Loop taken c name₂ c₂) : name₁ = name₂ ∧ c₁ = c₂ := by
  induction h₁ with
  | found hfree =>
    cases h₂ with
    | found _ => exact ⟨rfl, rfl⟩
    | again htaken _ => exact absurd htaken hfree
  | again htaken _ ih =>
    cases h₂ with
    | found hfree => exact absurd htaken hfree
    | again _ h₂ => exact ih h₂

theorem Answers.unique {r : Request} {c c₁ c₂ : Counter} {name₁ name₂ : String}
    (h₁ : Answers c r name₁ c₁) (h₂ : Answers c r name₂ c₂) : name₁ = name₂ ∧ c₁ = c₂ := by
  cases h₁ with
  | next =>
    cases h₂ with
    | next => exact ⟨rfl, rfl⟩
  | avoiding h₁ =>
    cases h₂ with
    | avoiding h₂ => exact h₁.unique h₂

end Counter

namespace NameSupply

variable {s : NameSupply}

/-- The counter at a number. -/
def counterAt (s : NameSupply) (k : Nat) : Counter := { stem := s.stem, next := UInt32.ofNat k }

/-- The counter at the next number. -/
def counter (s : NameSupply) : Counter := s.counterAt s.next

/-! ## One request -/

theorem answer_eq (s : NameSupply) (r : Request) : s.answer r = s.freshUnless r.taken := by
  cases r with
  | next => rfl
  | avoiding taken => rfl

/-- **The least allowed number is found.** -/
theorem gives_answer (s : NameSupply) (r : Request) : Gives s r (s.answer r).1 (s.answer r).2 := by
  rw [answer_eq]
  refine ⟨s.firstFree r.taken s.next, rfl, ⟨⟨?_, ?_⟩, ?_⟩, rfl⟩
  · exact s.le_firstFree r.taken s.next
  · exact s.nameAt_firstFree_notMem r.taken s.next
  · rintro j ⟨hle, hfree⟩
    by_contra hbefore
    exact hfree (nameAt_mem_of_lt_firstFree hle (Nat.lt_of_not_le hbefore))

theorem firstFree_nil (s : NameSupply) (k : Nat) : s.firstFree [] k = k := by
  rw [firstFree, dif_neg List.not_mem_nil]

/-- The search passes over as many numbers as there are taken names, at most. -/
theorem firstFree_le (s : NameSupply) (taken : List String) (k : Nat) :
    s.firstFree taken k ≤ k + taken.length := by
  fun_induction firstFree s taken k with
  | case1 taken k h ih =>
    rw [List.length_erase_of_mem h] at ih
    have := List.length_pos_of_mem h
    omega
  | case2 taken k h => exact Nat.le_add_right k _


theorem draw_counterAt {k : Nat} (h : k < UInt32.size) :
    (s.counterAt k).draw = (s.nameAt k, s.counterAt (k + 1)) := by
  have hname : toString (UInt32.ofNat k) = toString k :=
    congrArg toString (UInt32.toNat_ofNat_of_lt' h)
  have hnext : UInt32.ofNat k + 1 = UInt32.ofNat (k + 1) := (UInt32.ofNat_add k 1).symm
  rw [Counter.draw, counterAt, counterAt, nameAt, hname, hnext]

/-- **Drawing ends at the first free number.** The names that are crossed off on the way there have
smaller numbers than those still to be drawn. -/
theorem loop_firstFree {crossed taken : List String} {k : Nat}
    (hsame : ∀ j, k ≤ j → (s.nameAt j ∈ crossed ↔ s.nameAt j ∈ taken))
    (hfits : s.firstFree crossed k < UInt32.size) :
    Counter.Loop taken (s.counterAt k) (s.nameAt (s.firstFree crossed k))
      (s.counterAt (s.firstFree crossed k + 1)) := by
  fun_induction firstFree s crossed k with
  | case1 crossed k h ih =>
    have hlater := s.le_firstFree (crossed.erase (s.nameAt k)) (k + 1)
    have hdraw : (s.counterAt k).draw = (s.nameAt k, s.counterAt (k + 1)) :=
      draw_counterAt (by omega)
    refine .again ?_ ?_
    · rw [hdraw]
      exact (hsame k (Nat.le_refl k)).mp h
    · rw [hdraw]
      refine ih ?_ hfits
      intro j hj
      rw [nameAt_mem_erase_iff hj]
      exact hsame j (Nat.le_of_lt hj)
  | case2 crossed k h =>
    have hdraw : (s.counterAt k).draw = (s.nameAt k, s.counterAt (k + 1)) := draw_counterAt hfits
    have hfree : (s.counterAt k).draw.1 ∉ taken := by
      rw [hdraw]
      exact fun htaken => h ((hsame k (Nat.le_refl k)).mpr htaken)
    have hfound := Counter.Loop.found hfree
    rw [hdraw] at hfound
    exact hfound

/-- A counter answers as the supply does, and in no other way. -/
theorem counter_answers_iff {r : Request} (hfits : (s.answer r).2.next < UInt32.size)
    {name : String} {c : Counter} :
    Counter.Answers s.counter r name c ↔ name = (s.answer r).1 ∧ c = (s.answer r).2.counter := by
  have hanswers : Counter.Answers s.counter r (s.answer r).1 (s.answer r).2.counter := by
    cases r with
    | next =>
      have hanswer : s.answer .next = (s.nameAt s.next, { s with next := s.next + 1 }) := by
        rw [answer, fresh, freshUnless, firstFree_nil]
      have hnext : Counter.Answers s.counter .next _ _ := .next
      rw [hanswer] at hfits ⊢
      rw [counter, draw_counterAt (Nat.lt_of_succ_lt hfits)] at hnext
      exact hnext
    | avoiding taken =>
      exact .avoiding (loop_firstFree (fun _ _ => Iff.rfl) (Nat.lt_of_succ_lt hfits))
  constructor
  · intro h
    exact h.unique hanswers
  · rintro ⟨rfl, rfl⟩
    exact hanswers

/-! ## Several requests -/

theorem answers_append (s : NameSupply) (rs rs' : List Request) :
    s.answers (rs ++ rs') =
      ((s.answers rs).1 ++ ((s.answers rs).2.answers rs').1, ((s.answers rs).2.answers rs').2) := by
  induction rs generalizing s with
  | nil => rfl
  | cons r rs ih =>
    rw [List.cons_append, answers, ih]
    rfl

theorem length_answers (s : NameSupply) (rs : List Request) :
    (s.answers rs).1.length = rs.length := by
  induction rs generalizing s with
  | nil => rfl
  | cons r rs ih => rw [answers, List.length_cons, ih, List.length_cons]

/-- The numbers of the names rise, and lie between the supply before and the one after. -/
theorem exists_numbers (s : NameSupply) (rs : List Request) :
    ∃ ks : List Nat, (s.answers rs).1 = ks.map s.nameAt ∧ ks.Pairwise (· < ·) ∧
      (∀ k ∈ ks, s.next ≤ k) ∧ s.next ≤ (s.answers rs).2.next := by
  induction rs generalizing s with
  | nil => exact ⟨[], rfl, .nil, nofun, Nat.le_refl _⟩
  | cons r rs ih =>
    obtain ⟨k, hname, ⟨⟨hle, -⟩, -⟩, hafter⟩ := s.gives_answer r
    obtain ⟨ks, hnames, hrise, hbound, hforward⟩ := ih (s.answer r).2
    rw [hafter] at hnames hbound hforward
    have hlater : ∀ j ∈ ks, k < j := hbound
    refine ⟨k :: ks, ?_, List.pairwise_cons.mpr ⟨hlater, hrise⟩, ?_, ?_⟩
    · rw [answers, hname, hafter, hnames]
      rfl
    · intro j hj
      obtain rfl | hj := List.mem_cons.mp hj
      · exact hle
      · exact Nat.le_of_lt (Nat.lt_of_le_of_lt hle (hlater j hj))
    · rw [answers, hafter]
      exact Nat.le_trans hle (Nat.le_of_succ_le hforward)

theorem nodup_answers (s : NameSupply) (rs : List Request) : (s.answers rs).1.Nodup := by
  obtain ⟨ks, hnames, hrise, -⟩ := s.exists_numbers rs
  rw [hnames]
  exact List.Nodup.map s.nameAt_injective (hrise.imp Nat.ne_of_lt)

theorem next_le_answers (s : NameSupply) (rs : List Request) : s.next ≤ (s.answers rs).2.next := by
  obtain ⟨-, -, -, -, hforward⟩ := s.exists_numbers rs
  exact hforward

/-- The numbers that are used are no more than the names given and those taken. -/
theorem next_answers_le (s : NameSupply) (rs : List Request) :
    (s.answers rs).2.next ≤ s.next + rs.length + (rs.flatMap Request.taken).length := by
  induction rs generalizing s with
  | nil => exact Nat.le_add_right s.next 0
  | cons r rs ih =>
    have hstep : (s.answer r).2.next ≤ s.next + r.taken.length + 1 := by
      rw [answer_eq]
      exact Nat.succ_le_succ (s.firstFree_le r.taken s.next)
    have hrest := ih (s.answer r).2
    rw [answers, List.flatMap_cons, List.length_append, List.length_cons]
    show ((s.answer r).2.answers rs).2.next ≤ _
    omega

section Place

variable {rs : List Request} {r : Request} {i : Nat}

theorem answers_take_succ (hr : rs[i]? = some r) :
    s.answers (rs.take (i + 1)) =
      ((s.answers (rs.take i)).1 ++ [((s.answers (rs.take i)).2.answer r).1],
        ((s.answers (rs.take i)).2.answer r).2) := by
  rw [List.take_add_one, hr, Option.toList_some, answers_append]
  rfl

theorem getElem?_answers (hr : rs[i]? = some r) :
    (s.answers rs).1[i]? = some ((s.answers (rs.take i)).2.answer r).1 := by
  obtain ⟨hi, -⟩ := List.getElem?_eq_some_iff.mp hr
  have hlength : (s.answers (rs.take i)).1.length = i := by
    rw [length_answers, List.length_take, Nat.min_eq_left (Nat.le_of_lt hi)]
  have hcut := s.answers_append (rs.take (i + 1)) (rs.drop (i + 1))
  rw [List.take_append_drop, answers_take_succ hr] at hcut
  rw [hcut, List.append_assoc, List.getElem?_append_right (Nat.le_of_eq hlength), hlength,
    Nat.sub_self]
  rfl

end Place

/-- **Names are fresh, and giving them ends.** -/
theorem answers_fresh (s : NameSupply) (rs : List Request) :
    (s.answers rs).1.length = rs.length ∧ (s.answers rs).1.Nodup ∧
    (s.answers rs).2.next ≤ s.next + rs.length + (rs.flatMap Request.taken).length ∧
    ∀ i r, rs[i]? = some r → ∃ name, (s.answers rs).1[i]? = some name ∧
      Gives (s.answers (rs.take i)).2 r name (s.answers (rs.take (i + 1))).2 ∧
      ((s.answers rs).2.next < UInt32.size → ∀ name' c,
        Counter.Answers (s.answers (rs.take i)).2.counter r name' c ↔
          name' = name ∧ c = (s.answers (rs.take (i + 1))).2.counter) := by
  refine ⟨s.length_answers rs, s.nodup_answers rs, s.next_answers_le rs, ?_⟩
  intro i r hr
  have hnext : (s.answers (rs.take (i + 1))).2.next ≤ (s.answers rs).2.next := by
    have hlater := (s.answers (rs.take (i + 1))).2.next_le_answers (rs.drop (i + 1))
    have hcut := s.answers_append (rs.take (i + 1)) (rs.drop (i + 1))
    rw [List.take_append_drop] at hcut
    rw [hcut]
    exact hlater
  rw [answers_take_succ hr] at hnext ⊢
  refine ⟨_, getElem?_answers hr, gives_answer _ r, ?_⟩
  intro hfits name' c
  exact counter_answers_iff (Nat.lt_of_le_of_lt hnext hfits)

/-- A request for any name between two that avoid some, where the last avoids the next number. -/
def mixedRequests : List Request :=
  [.next, .avoiding ["n_1", "n_3"], .next, .avoiding ["n_5", "n_4"]]

theorem answers_fresh_mixedRequests :
    answers { stem := "n" } mixedRequests =
      (["n_0", "n_2", "n_3", "n_6"], { stem := "n", next := 7 }) ∧
    ["n_0", "n_2", "n_3", "n_6"].Nodup ∧
    Gives { stem := "n", next := 4 } (.avoiding ["n_5", "n_4"]) "n_6" { stem := "n", next := 7 } ∧
    Counter.Answers { stem := "n", next := 4 } (.avoiding ["n_5", "n_4"]) "n_6"
      { stem := "n", next := 7 } := by
  have hall : answers { stem := "n" } mixedRequests =
      (["n_0", "n_2", "n_3", "n_6"], { stem := "n", next := 7 }) := by decide +kernel
  have hthree : answers { stem := "n" } (mixedRequests.take 3) =
      (["n_0", "n_2", "n_3"], { stem := "n", next := 4 }) := by decide +kernel
  obtain ⟨-, hnodup, -, hplace⟩ := answers_fresh { stem := "n" } mixedRequests
  obtain ⟨name, hname, hgives, hcounter⟩ := hplace 3 _ rfl
  rw [show mixedRequests.take (3 + 1) = mixedRequests from rfl, hthree, hall] at hgives hcounter
  rw [hall] at hnodup hname
  cases hname
  exact ⟨hall, hnodup, hgives, (hcounter (by decide) _ _).mpr ⟨rfl, rfl⟩⟩

end NameSupply

end FieldView.Text
