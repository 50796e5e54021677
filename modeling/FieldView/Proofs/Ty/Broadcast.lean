import Mathlib.Data.List.Infix
import FieldView.Ty.Broadcast

/-!
# Which dimensions fit each other

`isRunOf` looks for the two ends of the short list in the long one, takes the first place of each,
and compares what stands between them. What it finds is an unbroken run of the long list
(`infix_of_isRunOf`). It finds every such run if the long list names no dimension twice, since the
ends then have no other places (`isRunOf_iff_infix`).

Of two lists of equal length the left one counts as the short one. The answer does not depend on
this, repeated dimensions or not: a list is a run of another of its length only if they are the
same.
-/

set_option autoImplicit false

namespace FieldView.Deduced

/-! ## Places -/

theorem placeOf?_append {x : String} {before : List String} (hx : x ∉ before)
    (after : List String) : placeOf? (some x) (before ++ x :: after) = some before.length := by
  unfold placeOf?
  have hbefore : before.findIdx? (fun n => some n == some x) = none := by
    rw [List.findIdx?_eq_none_iff]
    intro n hn
    rw [beq_eq_false_iff_ne]
    rintro h
    cases h
    exact hx hn
  rw [List.findIdx?_append, hbefore, List.findIdx?_cons]
  simp

/-! ## Runs -/

theorem infix_of_isRunOf {short long : List String} (h : isRunOf short long = true) :
    short <:+: long := by
  unfold isRunOf at h
  split at h
  · rename_i first last _ _
    rw [Bool.and_eq_true, beq_iff_eq] at h
    rw [← h.2]
    exact (List.take_prefix _ _).isInfix.trans (List.drop_suffix _ _).isInfix
  · cases h

/-- With every dimension named once, both ends of a run stand at one place only. -/
theorem isRunOf_of_infix {short long : List String} (hshort : short ≠ []) (hlong : long.Nodup)
    (h : short <:+: long) : isRunOf short long = true := by
  obtain ⟨before, after, rfl⟩ := h
  have hrun : (before ++ short).Nodup := (List.nodup_append.mp hlong).1
  have hapart := (List.nodup_append.mp hrun).2.2
  have hfirst : placeOf? short.head? (before ++ short ++ after) = some before.length := by
    obtain ⟨x, tail, rfl⟩ := List.exists_cons_of_ne_nil hshort
    rw [List.head?_cons, List.append_assoc, List.cons_append]
    apply placeOf?_append
    intro hx
    exact hapart x hx x List.mem_cons_self rfl
  have hlast : placeOf? short.getLast? (before ++ short ++ after) =
      some (before.length + short.length - 1) := by
    obtain ⟨init, y, rfl⟩ := (List.eq_nil_or_concat short).resolve_left hshort
    rw [List.concat_eq_append] at hrun ⊢
    have hy : y ∉ before ++ init := by
      rw [← List.append_assoc] at hrun
      intro hy
      exact (List.nodup_append.mp hrun).2.2 y hy y List.mem_cons_self rfl
    have hplace := placeOf?_append hy after
    simpa [Nat.add_assoc] using hplace
  have hpos : 0 < short.length := List.length_pos_iff.mpr hshort
  unfold isRunOf
  simp only [hfirst, hlast, Bool.and_eq_true, decide_eq_true_eq, beq_iff_eq]
  refine ⟨by omega, ?_⟩
  rw [List.append_assoc, List.drop_left,
    show before.length + short.length - 1 + 1 - before.length = short.length by omega,
    List.take_left]

theorem isRunOf_iff_infix {short long : List String} (hshort : short ≠ []) (hlong : long.Nodup) :
    isRunOf short long = true ↔ short <:+: long :=
  ⟨infix_of_isRunOf, isRunOf_of_infix hshort hlong⟩

theorem eq_of_isRunOf {l r : List String} (hlength : l.length = r.length)
    (h : isRunOf l r = true) : l = r :=
  (infix_of_isRunOf h).eq_of_length hlength

theorem isRunOf_comm {l r : List String} (hlength : l.length = r.length) :
    isRunOf l r = isRunOf r l := by
  rw [Bool.eq_iff_iff]
  constructor
  · intro h
    obtain rfl := eq_of_isRunOf hlength h
    exact h
  · intro h
    obtain rfl := eq_of_isRunOf hlength.symm h
    exact h

/-! ## Lists of dimensions and operands -/

theorem dimsFit_comm (l r : List String) : dimsFit l r = dimsFit r l := by
  unfold dimsFit
  rw [Bool.or_comm l.isEmpty]
  rcases Nat.lt_trichotomy l.length r.length with h | h | h
  · rw [if_pos (Nat.le_of_lt h), if_neg (Nat.not_le_of_lt h)]
  · rw [if_pos (Nat.le_of_eq h), if_pos (Nat.le_of_eq h.symm), isRunOf_comm h]
  · rw [if_neg (Nat.not_le_of_lt h), if_pos (Nat.le_of_lt h)]

theorem dimsFit_iff {l r : List String} (hl : l ≠ []) (hr : r ≠ []) (hlNodup : l.Nodup)
    (hrNodup : r.Nodup) :
    dimsFit l r = true ↔ if l.length ≤ r.length then l <:+: r else r <:+: l := by
  have hlEmpty : l.isEmpty = false := by simpa using hl
  have hrEmpty : r.isEmpty = false := by simpa using hr
  unfold dimsFit
  rw [hlEmpty, hrEmpty, Bool.false_or, Bool.false_or]
  split
  · exact isRunOf_iff_infix hl hrNodup
  · exact isRunOf_iff_infix hr hlNodup

theorem broadcastable_comm (l r : Deduced) : broadcastable l r = broadcastable r l := by
  unfold broadcastable
  rw [Bool.beq_comm (a := dtype? l)]
  congr 1
  cases dims? l with
  | none =>
    cases dims? r with
    | none => rfl
    | some rd => cases rd <;> rfl
  | some ld =>
    cases dims? r with
    | none => cases ld <;> rfl
    | some rd =>
      cases ld with
      | any => cases rd <;> rfl
      | known ls =>
        cases rd with
        | any => rfl
        | known rs => exact dimsFit_comm ls rs

/-- **Operands fit when one's dimensions are an unbroken run of the other's.** For fields that have
dimensions and name none of them twice, this and equal elements are all that is asked; and whatever
the operands are, it does not matter which of them stands on the left. -/
theorem broadcastable_iff_containment :
    (∀ (ls rs : List String) (s t : ScalarTy), ls ≠ [] → rs ≠ [] → ls.Nodup → rs.Nodup →
      (broadcastable (some (.field (.known ls) s)) (some (.field (.known rs) t)) = true ↔
        s = t ∧ if ls.length ≤ rs.length then ls <:+: rs else rs <:+: ls)) ∧
    ∀ l r : Deduced, broadcastable l r = broadcastable r l := by
  refine ⟨?_, broadcastable_comm⟩
  intro ls rs s t hls hrs hlsNodup hrsNodup
  rw [← dimsFit_iff hls hrs hlsNodup hrsNodup]
  unfold broadcastable
  simp only [dims?, dtype?, Bool.and_eq_true, beq_iff_eq, Option.some.injEq]
  exact and_comm

/-- `[J, K]` stands in `[I, J, K]` without a gap and `[I, K]` does not. -/
theorem broadcastable_inner_run :
    ["J", "K"] <:+: ["I", "J", "K"] ∧
      broadcastable (some (.field (.known ["I", "J", "K"]) { kind := .int32 }))
        (some (.field (.known ["J", "K"]) { kind := .int32 })) = true ∧
      broadcastable (some (.field (.known ["I", "K"]) { kind := .int32 }))
        (some (.field (.known ["I", "J", "K"]) { kind := .int32 })) = false := by
  have hrun : ["J", "K"] <:+: ["I", "J", "K"] := by decide
  have hgap : ¬ ["I", "K"] <:+: ["I", "J", "K"] := by decide
  refine ⟨hrun, ?_, ?_⟩
  · have h := broadcastable_iff_containment.1 ["I", "J", "K"] ["J", "K"] { kind := .int32 }
      { kind := .int32 } (by decide) (by decide) (by decide) (by decide)
    exact h.mpr ⟨rfl, hrun⟩
  · have h := broadcastable_iff_containment.1 ["I", "K"] ["I", "J", "K"] { kind := .int32 }
      { kind := .int32 } (by decide) (by decide) (by decide) (by decide)
    rw [Bool.eq_false_iff]
    intro hfits
    exact hgap (h.mp hfits).2

end FieldView.Deduced
