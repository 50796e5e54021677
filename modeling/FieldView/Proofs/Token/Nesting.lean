import Mathlib.Data.List.Basic
import FieldView.Token.Layout

/-!
# Nested brackets

What it means that the brackets of a run of tokens pair up, said twice. `Nested` is the language of
such runs, by rules. `nestAll` goes over the tokens with the open brackets on a stack, as the layout
does. The two agree: a nested run leaves every stack as it was (`Nested.nestAll_eq`), and a run that
empties the stack is cut by it into nested runs (`closes_of_nestAll`).

`Opens` is the same from the other end: the run that built a stack has its brackets in it, and what
stands between two of them is nested. So from any place inside a bracket both partners can be found.
-/

set_option autoImplicit false

namespace FieldView

/-- Every bracket has a partner of its own kind, and what stands between the two is nested too. -/
inductive Nested : List Kind → Prop
  | nil : Nested []
  | plain {k : Kind} {ks : List Kind} :
      k.isOpening = false → k.isClosing = false → Nested ks → Nested (k :: ks)
  | group {b : Bracket} {inner ks : List Kind} :
      Nested inner → Nested ks → Nested (.opening b :: (inner ++ .closing b :: ks))

/-- The brackets open after a token, innermost first. It fails where the token closes another
bracket than the innermost. -/
def nest? (bs : List Bracket) : Kind → Option (List Bracket)
  | .opening b => some (b :: bs)
  | .closing b => if bs.head? = some b then some bs.tail else none
  | _ => some bs

/-- The brackets open after some tokens. -/
def nestAll (bs : List Bracket) : List Kind → Option (List Bracket)
  | [] => some bs
  | k :: ks => (nest? bs k).bind fun bs' => nestAll bs' ks

section Stack

variable {bs bs' : List Bracket} {k : Kind} {ks : List Kind}

theorem nest?_of_plain (ho : k.isOpening = false) (hc : k.isClosing = false) :
    nest? bs k = some bs := by
  cases k with
  | opening b => cases ho
  | closing b => cases hc
  | _ => rfl

theorem nest?_closing_eq_some {b : Bracket} :
    nest? bs (.closing b) = some bs' ↔ bs = b :: bs' := by
  cases bs with
  | nil => simp [nest?]
  | cons c bs =>
    by_cases hc : c = b
    · simp [nest?, hc]
    · simp [nest?, hc]

theorem nestAll_append (bs : List Bracket) (ks ls : List Kind) :
    nestAll bs (ks ++ ls) = (nestAll bs ks).bind fun bs' => nestAll bs' ls := by
  induction ks generalizing bs with
  | nil => rfl
  | cons k ks ih =>
    rw [List.cons_append, nestAll, nestAll, Option.bind_assoc]
    simp only [ih]

/-- Brackets further out are left alone. -/
theorem nest?_frame (h : nest? bs k = some bs') (tail : List Bracket) :
    nest? (bs ++ tail) k = some (bs' ++ tail) := by
  cases k with
  | opening b =>
    cases h
    rfl
  | closing b =>
    rw [nest?_closing_eq_some] at h ⊢
    rw [h]
    rfl
  | _ =>
    cases h
    rfl

theorem nestAll_frame (h : nestAll bs ks = some bs') (tail : List Bracket) :
    nestAll (bs ++ tail) ks = some (bs' ++ tail) := by
  induction ks generalizing bs with
  | nil =>
    cases h
    rfl
  | cons k ks ih =>
    obtain ⟨mid, hk, hks⟩ := Option.bind_eq_some_iff.mp h
    rw [nestAll, nest?_frame hk]
    exact ih hks

end Stack

/-! ## Nested runs -/

namespace Nested

variable {ks ls : List Kind}

theorem append (hk : Nested ks) (hl : Nested ls) : Nested (ks ++ ls) := by
  induction hk with
  | nil => exact hl
  | plain ho hc _ ih => exact .plain ho hc ih
  | group hinner _ _ ih =>
    rw [List.cons_append, List.append_assoc, List.cons_append]
    exact .group hinner ih

theorem bracketed (hk : Nested ks) (b : Bracket) : Nested (.opening b :: (ks ++ [.closing b])) :=
  .group hk .nil

theorem nestAll_eq (h : Nested ks) (bs : List Bracket) : nestAll bs ks = some bs := by
  induction h generalizing bs with
  | nil => rfl
  | plain ho hc _ ih =>
    rw [nestAll, nest?_of_plain ho hc]
    exact ih bs
  | @group b inner ks _ _ ihinner ihks =>
    have hclose : nest? (b :: bs) (.closing b) = some bs := nest?_closing_eq_some.mpr rfl
    rw [nestAll]
    show nestAll (b :: bs) (inner ++ .closing b :: ks) = some bs
    rw [nestAll_append, ihinner, Option.bind_some, nestAll, hclose]
    exact ihks bs

/-- Anywhere inside a nested run the brackets around it are still open. -/
theorem nestAll_prefix (h : Nested (ks ++ ls)) (bs : List Bracket) :
    ∃ own, nestAll bs ks = some (own ++ bs) := by
  have hwhole := h.nestAll_eq []
  rw [nestAll_append] at hwhole
  obtain ⟨own, hown, -⟩ := Option.bind_eq_some_iff.mp hwhole
  exact ⟨own, nestAll_frame hown bs⟩

end Nested

/-- A run that closes the brackets of a stack, one after another and with nested runs around. -/
inductive Closes : List Bracket → List Kind → Prop
  | done {ks : List Kind} : Nested ks → Closes [] ks
  | close {b : Bracket} {bs : List Bracket} {inner ks : List Kind} :
      Nested inner → Closes bs ks → Closes (b :: bs) (inner ++ .closing b :: ks)

/-- What closes a stack still does so after a nested run. -/
theorem Closes.prepend {bs : List Bracket} {ks ls : List Kind} (hl : Nested ls)
    (h : Closes bs ks) : Closes bs (ls ++ ks) := by
  cases h with
  | done hk => exact .done (hl.append hk)
  | close hinner hk =>
    rw [← List.append_assoc]
    exact .close (hl.append hinner) hk

theorem closes_of_nestAll {bs : List Bracket} {ks : List Kind} (h : nestAll bs ks = some []) :
    Closes bs ks := by
  induction ks generalizing bs with
  | nil =>
    cases h
    exact .done .nil
  | cons k ks ih =>
    obtain ⟨mid, hk, hks⟩ := Option.bind_eq_some_iff.mp h
    by_cases ho : k.isOpening = true
    · cases k with
      | opening b =>
        cases hk
        -- The bracket is closed further on, and makes a group with what stands before that.
        cases ih hks with
        | @close _ _ inner rest hinner hrest =>
          have hgroup := hrest.prepend (hinner.bracketed b)
          rw [List.cons_append, List.append_assoc] at hgroup
          exact hgroup
      | _ => cases ho
    · by_cases hc : k.isClosing = true
      · cases k with
        | closing b =>
          obtain rfl := nest?_closing_eq_some.mp hk
          exact .close .nil (ih hks)
        | _ => cases hc
      · rw [Bool.not_eq_true] at ho hc
        rw [nest?_of_plain ho hc] at hk
        cases hk
        exact (ih hks).prepend (.plain ho hc .nil)

theorem nested_of_nestAll {ks : List Kind} (h : nestAll [] ks = some []) : Nested ks := by
  cases closes_of_nestAll h with
  | done hk => exact hk

/-! ## Runs that leave brackets open -/

/-- A run that leaves the brackets of a stack open, with nested runs around them. -/
inductive Opens : List Bracket → List Kind → Prop
  | start {ks : List Kind} : Nested ks → Opens [] ks
  | opened {b : Bracket} {bs : List Bracket} {ks inner : List Kind} :
      Opens bs ks → Nested inner → Opens (b :: bs) (ks ++ .opening b :: inner)

theorem Opens.append {bs : List Bracket} {ks ls : List Kind} (h : Opens bs ks) (hl : Nested ls) :
    Opens bs (ks ++ ls) := by
  cases h with
  | start hk => exact .start (hk.append hl)
  | opened hk hinner =>
    rw [List.append_assoc, List.cons_append]
    exact .opened hk (hinner.append hl)

theorem Opens.step {bs bs' : List Bracket} {ks : List Kind} {k : Kind} (h : Opens bs ks)
    (hk : nest? bs k = some bs') : Opens bs' (ks ++ [k]) := by
  by_cases ho : k.isOpening = true
  · cases k with
    | opening b =>
      cases hk
      exact .opened h .nil
    | _ => cases ho
  · by_cases hc : k.isClosing = true
    · cases k with
      | closing b =>
        obtain rfl := nest?_closing_eq_some.mp hk
        -- The bracket and its partner make a group behind what was open before them.
        cases h with
        | @opened _ _ before inner hbefore hinner =>
          have hgroup := hbefore.append (hinner.bracketed b)
          rw [List.append_assoc, List.cons_append]
          exact hgroup
      | _ => cases hc
    · rw [Bool.not_eq_true] at ho hc
      rw [nest?_of_plain ho hc] at hk
      cases hk
      exact h.append (.plain ho hc .nil)

theorem Opens.nestAll_eq {bs : List Bracket} {ks : List Kind} (h : Opens bs ks) :
    nestAll [] ks = some bs := by
  induction h with
  | start hk => exact hk.nestAll_eq []
  | @opened b bs ks inner _ hinner ih =>
    rw [nestAll_append, ih]
    exact hinner.nestAll_eq (b :: bs)

end FieldView
