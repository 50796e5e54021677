import Mathlib.Data.List.GetD
import FieldView.Proofs.Token.Grammar

/-!
# Widths of lines

The layout keeps the widths of the open blocks on a stack and compares each new line with the stack
alone. What it accepts in this way is a property of all widths so far (`Steady`): every line is
wider than the one before it, or as wide as some earlier line with no narrower line between the two.

The two views meet in `Tracks`: the stack, with the outermost width under it, falls strictly from
the innermost block outwards and holds just the widths that a next line may come back to. A line
that the stack accepts keeps this (`Tracks.settle`), and the stack accepts exactly the lines that
leave the widths steady (`Tracks.steady_snoc_iff`).
-/

set_option autoImplicit false

namespace FieldView.Layout

/-! ## The history of widths -/

/-- One of the first `n` lines has this width, and none of those after it is narrower. -/
def Returns (ws : List Nat) (n w : Nat) : Prop :=
  ∃ j < n, ws.getD j 0 = w ∧ ∀ m < n, j < m → w ≤ ws.getD m 0

/-- Every line but the first is wider than the line before it, or as wide as an earlier one with no
narrower line between the two. -/
def Steady (ws : List Nat) : Prop :=
  ∀ i < ws.length, 1 ≤ i → ws.getD (i - 1) 0 < ws.getD i 0 ∨ Returns ws i (ws.getD i 0)

instance (ws : List Nat) (n w : Nat) : Decidable (Returns ws n w) :=
  inferInstanceAs (Decidable (∃ j < n, ws.getD j 0 = w ∧ ∀ m < n, j < m → w ≤ ws.getD m 0))

instance : DecidablePred Steady := fun ws =>
  inferInstanceAs (Decidable (∀ i < ws.length, 1 ≤ i →
    ws.getD (i - 1) 0 < ws.getD i 0 ∨ Returns ws i (ws.getD i 0)))

section History

variable {ws : List Nat} {n w : Nat}

theorem returns_succ_iff :
    Returns ws (n + 1) w ↔ ws.getD n 0 = w ∨ w ≤ ws.getD n 0 ∧ Returns ws n w := by
  constructor
  · rintro ⟨j, hj, hw, hafter⟩
    by_cases hjn : j = n
    · subst hjn
      exact .inl hw
    · have hj' : j < n := by omega
      refine .inr ⟨hafter n n.lt_succ_self hj', j, hj', hw, ?_⟩
      intro m hm
      exact hafter m (Nat.lt_succ_of_lt hm)
  · rintro (hw | ⟨hle, j, hj, hw, hafter⟩)
    · refine ⟨n, n.lt_succ_self, hw, ?_⟩
      intro m hm hlt
      omega
    · refine ⟨j, Nat.lt_succ_of_lt hj, hw, ?_⟩
      intro m hm hjm
      rcases Nat.lt_succ_iff_lt_or_eq.mp hm with hm | rfl
      · exact hafter m hm hjm
      · exact hle

/-- What the first lines come back to does not depend on the lines after them. -/
theorem returns_append_iff (vs : List Nat) (hn : n ≤ ws.length) :
    Returns (ws ++ vs) n w ↔ Returns ws n w := by
  have hgetD : ∀ m < n, (ws ++ vs).getD m 0 = ws.getD m 0 := fun m hm =>
    List.getD_append _ _ _ _ (Nat.lt_of_lt_of_le hm hn)
  constructor
  · rintro ⟨j, hj, hw, hafter⟩
    refine ⟨j, hj, hgetD j hj ▸ hw, ?_⟩
    intro m hm hjm
    exact hgetD m hm ▸ hafter m hm hjm
  · rintro ⟨j, hj, hw, hafter⟩
    refine ⟨j, hj, (hgetD j hj).trans hw, ?_⟩
    intro m hm hjm
    rw [hgetD m hm]
    exact hafter m hm hjm

theorem returns_snoc_iff {u : Nat} :
    Returns (ws ++ [u]) (ws ++ [u]).length w ↔ u = w ∨ w ≤ u ∧ Returns ws ws.length w := by
  rw [List.length_append, List.length_singleton, returns_succ_iff, returns_append_iff _ le_rfl]
  simp

/-- Whether the lines stay steady is decided by the last of them. -/
theorem steady_snoc_iff (hws : ws ≠ []) :
    Steady (ws ++ [w]) ↔
      Steady ws ∧ (ws.getD (ws.length - 1) 0 < w ∨ Returns ws ws.length w) := by
  have hpos : 0 < ws.length := List.length_pos_of_ne_nil hws
  have hgetD : ∀ {m}, m < ws.length → (ws ++ [w]).getD m 0 = ws.getD m 0 := fun hm =>
    List.getD_append _ _ _ _ hm
  have hlast : (ws ++ [w]).getD ws.length 0 = w := by simp
  unfold Steady
  rw [List.length_append, List.length_singleton, Nat.forall_lt_succ_right, hlast,
    hgetD (Nat.sub_lt hpos Nat.one_pos), returns_append_iff _ le_rfl]
  refine and_congr ?_ (forall_prop_of_true hpos)
  refine forall_congr' fun i => forall_congr' fun hi => forall_congr' fun _ => ?_
  rw [hgetD hi, hgetD (Nat.lt_of_le_of_lt (Nat.sub_le i 1) hi), returns_append_iff _ hi.le]

theorem Steady.of_append {vs : List Nat} (h : Steady (ws ++ vs)) : Steady ws := by
  intro i hi hpos
  have hbefore : i - 1 < ws.length := Nat.lt_of_le_of_lt (Nat.sub_le i 1) hi
  have hhere := h i (Nat.lt_of_lt_of_le hi (by simp)) hpos
  rwa [List.getD_append _ _ _ _ hi, List.getD_append _ _ _ _ hbefore,
    returns_append_iff _ hi.le] at hhere

end History

/-! ## The stack of blocks -/

/-- The blocks that are open when a line of some width begins, if it may begin. -/
def settle? (blocks : List Nat) (width : Nat) : Option (List Nat) :=
  if blocks.headD 0 < width then some (width :: blocks)
  else if (blocks.dropWhile (width < ·)).headD 0 = width then some (blocks.dropWhile (width < ·))
  else none

theorem closeBlocks_eq_dropWhile (width : Nat) (blocks : List Nat) :
    (closeBlocks width blocks).2 = blocks.dropWhile (width < ·) := by
  induction blocks with
  | nil => rfl
  | cons b blocks ih =>
    rw [closeBlocks, List.dropWhile_cons]
    by_cases hb : width < b
    · rw [if_pos hb, if_pos (decide_eq_true hb), ← ih]
    · rw [if_neg hb, if_neg (by simpa using hb)]

/-- The first token of a line goes through where no tab stands before it and the stack takes its
width. -/
theorem indentLine_eq_ok_iff {st : Layout} {blocks : List Nat} :
    (∃ lead, st.indentLine = .ok (lead, blocks)) ↔
      '\t' ∉ st.margin ∧ settle? st.blocks (byteLength st.margin) = some blocks := by
  unfold indentLine settle? marginSpan
  simp only [closeBlocks_eq_dropWhile, List.contains_iff_mem]
  by_cases htab : '\t' ∈ st.margin
  · simp [htab]
  · rw [if_neg htab]
    split
    · simp [htab]
    · split
      · simp [htab]
      · simp

section Stack

variable {blocks : List Nat} {w : Nat}

/-- A stack that falls from its head to the outermost width. -/
def Falls (blocks : List Nat) : Prop := (blocks ++ [0]).Pairwise (· > ·)

theorem Falls.le_headD (h : Falls blocks) {v : Nat} (hv : v ∈ blocks ++ [0]) :
    v ≤ blocks.headD 0 := by
  cases blocks with
  | nil => exact (List.mem_singleton.mp hv).le
  | cons b blocks =>
    rcases List.mem_cons.mp hv with rfl | hv
    · exact le_rfl
    · exact ((List.pairwise_cons.mp h).1 v hv).le

theorem headD_mem (blocks : List Nat) : blocks.headD 0 ∈ blocks ++ [0] := by
  cases blocks with
  | nil => exact List.mem_singleton_self 0
  | cons b blocks => exact List.mem_cons_self

/-- The blocks that are closed are on top, so those that stay are the ones that are not wider. -/
theorem Falls.dropWhile_append (h : Falls blocks) (w : Nat) :
    blocks.dropWhile (w < ·) ++ [0] = (blocks ++ [0]).filter (· ≤ w) := by
  induction blocks with
  | nil => simp
  | cons b blocks ih =>
    rw [Falls, List.cons_append, List.pairwise_cons] at h
    rw [List.cons_append, List.dropWhile_cons, List.filter_cons]
    by_cases hb : w < b
    · rw [if_pos (decide_eq_true hb), if_neg (by simpa using hb)]
      exact ih h.2
    · have hrest : ∀ v ∈ blocks ++ [0], decide (v ≤ w) = true := by
        intro v hv
        have hlt := h.1 v hv
        exact decide_eq_true (by omega)
      rw [if_neg (by simpa using hb), if_pos (by simpa using hb), List.filter_eq_self.mpr hrest]
      rfl

end Stack

/-- The stack of blocks after lines of these widths: it falls, and it holds the widths that the next
line may come back to. -/
structure Tracks (blocks ws : List Nat) : Prop where
  falls : Falls blocks
  mem_iff : ∀ v, v ∈ blocks ++ [0] ↔ Returns ws ws.length v

namespace Tracks

variable {blocks blocks' ws : List Nat} {w : Nat}

theorem start : Tracks [] [0] where
  falls := List.pairwise_singleton _ _
  mem_iff v := by
    rw [← List.nil_append [0], returns_snoc_iff]
    simp [Returns, eq_comm]

theorem ne_nil (h : Tracks blocks ws) : ws ≠ [] := by
  rintro rfl
  obtain ⟨j, hj, -⟩ := (h.mem_iff 0).mp (by simp)
  cases hj

/-- The innermost block is as wide as the last line. -/
theorem headD_eq (h : Tracks blocks ws) : blocks.headD 0 = ws.getD (ws.length - 1) 0 := by
  have hpos : 0 < ws.length := List.length_pos_of_ne_nil h.ne_nil
  have hlast : Returns ws ws.length (ws.getD (ws.length - 1) 0) := by
    refine ⟨ws.length - 1, Nat.sub_lt hpos Nat.one_pos, rfl, ?_⟩
    intro m hm hlt
    omega
  apply Nat.le_antisymm
  · obtain ⟨j, hj, hw, hafter⟩ := (h.mem_iff _).mp (headD_mem blocks)
    by_cases hlt : j < ws.length - 1
    · exact hafter _ (Nat.sub_lt hpos Nat.one_pos) hlt
    · have hj' : j = ws.length - 1 := by omega
      rw [← hw, hj']
  · exact h.falls.le_headD ((h.mem_iff _).mpr hlast)

/-- The blocks that stay have the line's width on top exactly if the line comes back to it. -/
theorem headD_dropWhile_eq_iff (h : Tracks blocks ws) :
    (blocks.dropWhile (w < ·)).headD 0 = w ↔ Returns ws ws.length w := by
  have hkept := h.falls.dropWhile_append w
  have hmem : ∀ v, v ∈ blocks.dropWhile (w < ·) ++ [0] ↔ v ∈ blocks ++ [0] ∧ v ≤ w := by
    intro v
    rw [hkept, List.mem_filter, decide_eq_true_iff]
  rw [← h.mem_iff]
  constructor
  · intro hhead
    have hw := headD_mem (blocks.dropWhile (w < ·))
    rw [hhead] at hw
    exact ((hmem w).mp hw).1
  · intro hw
    have hfalls : Falls (blocks.dropWhile (w < ·)) := by
      rw [Falls, hkept]
      exact h.falls.filter _
    apply Nat.le_antisymm
    · exact ((hmem _).mp (headD_mem _)).2
    · exact hfalls.le_headD ((hmem w).mpr ⟨hw, le_rfl⟩)

/-- **The stack accepts exactly the lines that leave the widths steady.** -/
theorem steady_snoc_iff (h : Tracks blocks ws) (hsteady : Steady ws) :
    Steady (ws ++ [w]) ↔ ∃ blocks', settle? blocks w = some blocks' := by
  rw [Layout.steady_snoc_iff h.ne_nil, ← h.headD_eq, ← h.headD_dropWhile_eq_iff]
  unfold settle?
  by_cases hwider : blocks.headD 0 < w
  · rw [if_pos hwider]
    exact ⟨fun _ => ⟨_, rfl⟩, fun _ => ⟨hsteady, .inl hwider⟩⟩
  · rw [if_neg hwider]
    by_cases hback : (blocks.dropWhile (w < ·)).headD 0 = w
    · rw [if_pos hback]
      exact ⟨fun _ => ⟨_, rfl⟩, fun _ => ⟨hsteady, .inr hback⟩⟩
    · rw [if_neg hback]
      constructor
      · rintro ⟨-, hw⟩
        exact (hw.elim hwider hback).elim
      · rintro ⟨blocks', hnone⟩
        cases hnone

/-- **A line that the stack accepts keeps it on track.** -/
theorem settle (h : Tracks blocks ws) (hsettle : settle? blocks w = some blocks') :
    Tracks blocks' (ws ++ [w]) := by
  unfold settle? at hsettle
  split at hsettle
  · next hwider =>
    cases hsettle
    have hbelow : ∀ v ∈ blocks ++ [0], v < w := fun v hv =>
      Nat.lt_of_le_of_lt (h.falls.le_headD hv) hwider
    constructor
    · exact List.pairwise_cons.mpr ⟨hbelow, h.falls⟩
    · intro v
      rw [returns_snoc_iff, ← h.mem_iff, List.cons_append, List.mem_cons, eq_comm]
      apply or_congr_right
      constructor
      · intro hv
        exact ⟨(hbelow v hv).le, hv⟩
      · rintro ⟨-, hv⟩
        exact hv
  · split at hsettle
    · next hback =>
      cases hsettle
      rw [h.headD_dropWhile_eq_iff, ← h.mem_iff] at hback
      have hkept := h.falls.dropWhile_append w
      constructor
      · rw [Falls, hkept]
        exact h.falls.filter _
      · intro v
        rw [hkept, returns_snoc_iff, ← h.mem_iff, List.mem_filter, decide_eq_true_iff, and_comm]
        constructor
        · intro hv
          exact .inr hv
        · rintro (rfl | hv)
          · exact ⟨le_rfl, hback⟩
          · exact hv
    · cases hsettle

end Tracks

end FieldView.Layout
