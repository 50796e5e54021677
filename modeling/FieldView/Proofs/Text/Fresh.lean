import Mathlib.Data.List.Nodup
import Mathlib.Data.List.Perm.Subperm
import FieldView.Text.Fresh

/-!
# What a supply of names gives

The names of a supply are numbered, and different numbers make different names. So a name that is
crossed off is met no more, and the search for a free one finds the least number that is not taken
(`firstFree`, by the three lemmas about it).

`Draws` is what several names from one supply have in common, with all numbers that were passed
over. As every number on the way was given out or belongs to a taken name, the supply goes no
further than there are names of either kind (`Draws.next_le`).
-/

set_option autoImplicit false

namespace FieldView.Text.NameSupply

variable {s s' : NameSupply} {taken : List String} {ks : List Nat}

theorem nameAt_injective (s : NameSupply) : Function.Injective s.nameAt := by
  intro i j h
  have htext : toString i = toString j := (String.append_right_inj _).mp h
  have hdigits : Nat.toDigits 10 i = Nat.toDigits 10 j := by
    simpa only [Nat.toString_eq_repr, Nat.toList_repr] using congrArg String.toList htext
  have hvalue := congrArg (Nat.ofDigitChars 10 · 0) hdigits
  simpa only [Nat.ofDigitChars_toDigits (b := 10) (by decide) (by decide)] using hvalue

/-! ## The first free number -/

theorem le_firstFree (s : NameSupply) (taken : List String) (k : Nat) :
    k ≤ s.firstFree taken k := by
  fun_induction firstFree s taken k with
  | case1 taken k h ih => omega
  | case2 taken k h => exact Nat.le_refl k

/-- Crossing off the name of a number does not concern later numbers. -/
theorem nameAt_mem_erase_iff {j k : Nat} (h : k < j) :
    s.nameAt j ∈ taken.erase (s.nameAt k) ↔ s.nameAt j ∈ taken := by
  refine List.mem_erase_of_ne ?_
  intro hsame
  have := s.nameAt_injective hsame
  omega

theorem nameAt_firstFree_notMem (s : NameSupply) (taken : List String) (k : Nat) :
    s.nameAt (s.firstFree taken k) ∉ taken := by
  fun_induction firstFree s taken k with
  | case1 taken k h ih =>
    have hlater := s.le_firstFree (taken.erase (s.nameAt k)) (k + 1)
    rwa [nameAt_mem_erase_iff hlater] at ih
  | case2 taken k h => exact h

theorem nameAt_mem_of_lt_firstFree {j k : Nat} (hkj : k ≤ j) (hj : j < s.firstFree taken k) :
    s.nameAt j ∈ taken := by
  fun_induction firstFree s taken k with
  | case1 taken k h ih =>
    rcases Nat.eq_or_lt_of_le hkj with rfl | hlt
    · exact h
    · exact (nameAt_mem_erase_iff hlt).mp (ih hlt hj)
  | case2 taken k h => omega

/-! ## Several names -/

/-- The numbers of names drawn from a supply, in order, with the supply after them: none of the
names is taken, and every number that was passed over belongs to a taken one. -/
structure Draws (s : NameSupply) (taken : List String) (ks : List Nat) (s' : NameSupply) :
    Prop where
  stem : s'.stem = s.stem
  ascending : ks.Pairwise (· < ·)
  within : ∀ k ∈ ks, s.next ≤ k ∧ k < s'.next
  free : ∀ k ∈ ks, s.nameAt k ∉ taken
  covered : ∀ j, s.next ≤ j → j < s'.next → j ∈ ks ∨ s.nameAt j ∈ taken
  forward : s.next ≤ s'.next

theorem Draws.nil (s : NameSupply) (taken : List String) : Draws s taken [] s where
  stem := rfl
  ascending := .nil
  within := by simp
  free := by simp
  covered := by omega
  forward := Nat.le_refl _

/-- The next name that is not taken, and then others. -/
theorem Draws.cons (h : Draws (s.freshUnless taken).2 taken ks s') :
    Draws s taken (s.firstFree taken s.next :: ks) s' := by
  have hfirst := s.le_firstFree taken s.next
  have hforward : s.firstFree taken s.next + 1 ≤ s'.next := h.forward
  refine ⟨h.stem, ?_, ?_, ?_, ?_, by omega⟩
  · refine List.pairwise_cons.mpr ⟨?_, h.ascending⟩
    intro k hk
    exact (h.within k hk).1
  · intro k hk
    rcases List.mem_cons.mp hk with rfl | hk
    · exact ⟨hfirst, hforward⟩
    · obtain ⟨hle, hlt⟩ : s.firstFree taken s.next + 1 ≤ k ∧ k < s'.next := h.within k hk
      exact ⟨by omega, hlt⟩
  · intro k hk
    rcases List.mem_cons.mp hk with rfl | hk
    · exact s.nameAt_firstFree_notMem taken s.next
    · exact h.free k hk
  · intro j hle hlt
    rcases Nat.lt_trichotomy j (s.firstFree taken s.next) with hj | rfl | hj
    · exact .inr (nameAt_mem_of_lt_firstFree hle hj)
    · exact .inl List.mem_cons_self
    · exact (h.covered j hj hlt).imp_left (List.mem_cons_of_mem _)

/-- **Names are drawn one after another.** -/
theorem freshMany_draws (s : NameSupply) (taken : List String) (n : Nat) :
    ∃ ks, ks.length = n ∧ (s.freshMany taken n).1 = ks.map s.nameAt ∧
      Draws s taken ks (s.freshMany taken n).2 := by
  induction n generalizing s with
  | zero => exact ⟨[], rfl, rfl, .nil s taken⟩
  | succ n ih =>
    obtain ⟨ks, hlength, hnames, hdraws⟩ := ih (s.freshUnless taken).2
    refine ⟨s.firstFree taken s.next :: ks, ?_, ?_, hdraws.cons⟩
    · rw [List.length_cons, hlength]
    · show _ :: ((s.freshUnless taken).2.freshMany taken n).1 = _
      rw [hnames]
      rfl

theorem Draws.notMem_map (h : Draws s taken ks s') : ∀ id ∈ ks.map s.nameAt, id ∉ taken := by
  rw [List.forall_mem_map]
  exact h.free

theorem Draws.nodup_map (h : Draws s taken ks s') : (ks.map s.nameAt).Nodup :=
  List.Nodup.map s.nameAt_injective (h.ascending.imp Nat.ne_of_lt)

/-- **The supply goes no further than there are names**, drawn or taken: all numbers it has passed
have different names, and these are drawn or taken. -/
theorem Draws.next_le (h : Draws s taken ks s') :
    s'.next ≤ s.next + ks.length + taken.length := by
  have hnodup : ((List.range' s.next (s'.next - s.next)).map s.nameAt).Nodup :=
    List.Nodup.map s.nameAt_injective (List.nodup_range' 1)
  have hsubset : (List.range' s.next (s'.next - s.next)).map s.nameAt ⊆
      ks.map s.nameAt ++ taken := by
    intro id hid
    obtain ⟨j, hj, rfl⟩ := List.mem_map.mp hid
    obtain ⟨hle, hlt⟩ := List.mem_range'_1.mp hj
    rcases h.covered j hle (by omega) with hk | hk
    · exact List.mem_append_left _ (List.mem_map_of_mem hk)
    · exact List.mem_append_right _ hk
  have hlength := (List.subperm_of_subset hnodup hsubset).length_le
  simp only [List.length_map, List.length_range', List.length_append] at hlength
  omega

end FieldView.Text.NameSupply
