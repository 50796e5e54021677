import Mathlib.Data.List.Basic
import FieldView.Scope.Statement

/-!
# Runs that a search passes over

Every position of the scope analysis is found by going over tokens until one of them stops the
search. This file says which runs are passed over whole: those whose brackets are balanced and whose
tokens outside brackets are of kinds that do not stop it (`Level.positionFrom_append`). A cut of a
longer run is then found by naming the parts: the level run before the cut, the token at it, and the
rest.

The runs here are lists of kinds. `toks` makes tokens of them, all with the same span; that spans do
not matter is shown elsewhere.
-/

set_option autoImplicit false

namespace FieldView

/-- A token of this kind with no text of its own. -/
def Kind.bare (k : Kind) : Token := { kind := k, span := { offset := 0, length := 0 } }

@[simp] theorem Kind.kind_bare (k : Kind) : k.bare.kind = k := rfl

/-- Whether a token neither is a bracket nor belongs to the layout of lines. -/
def Kind.isFlat : Kind → Bool
  | .opening _ => false
  | .closing _ => false
  | .newline => false
  | .indent => false
  | .dedent => false
  | .eof => false
  | _ => true

namespace Scope

/-- The tokens of these kinds. -/
def toks (ks : List Kind) : List Token := ks.map Kind.bare

@[simp] theorem toks_nil : toks [] = [] := rfl

@[simp] theorem toks_cons (k : Kind) (ks : List Kind) : toks (k :: ks) = k.bare :: toks ks := rfl

@[simp] theorem toks_append (ks ls : List Kind) : toks (ks ++ ls) = toks ks ++ toks ls :=
  List.map_append

@[simp] theorem length_toks (ks : List Kind) : (toks ks).length = ks.length := List.length_map ..

@[simp] theorem take_toks (ks : List Kind) (rest : List Token) :
    (toks ks ++ rest).take ks.length = toks ks := List.take_left' (length_toks ks)

@[simp] theorem drop_toks (ks : List Kind) (rest : List Token) :
    (toks ks ++ rest).drop ks.length = rest := List.drop_left' (length_toks ks)

@[simp] theorem drop_toks_succ (ks : List Kind) (t : Token) (rest : List Token) :
    (toks ks ++ t :: rest).drop (ks.length + 1) = rest := by
  rw [← List.drop_drop, drop_toks]
  rfl

/-! ## Level runs -/

/-- Brackets are balanced, no line ends inside or between them, and `q` holds of what stands outside
of brackets. -/
inductive Level : (Kind → Bool) → List Kind → Prop
  | nil {q : Kind → Bool} : Level q []
  | flat {q : Kind → Bool} {k : Kind} {ks : List Kind} :
      q k = true → k.isFlat = true → Level q ks → Level q (k :: ks)
  | group {q : Kind → Bool} {b c : Bracket} {inner ks : List Kind} :
      Level (fun _ => true) inner → Level q ks →
      Level q (.opening b :: (inner ++ .closing c :: ks))

namespace Level

variable {q r : Kind → Bool} {ks ls : List Kind}

theorem append (hk : Level q ks) (hl : Level q ls) : Level q (ks ++ ls) := by
  induction hk with
  | nil => exact hl
  | flat hq hflat _ ih => exact .flat hq hflat (ih hl)
  | group hinner _ _ ih =>
    rw [List.cons_append, List.append_assoc, List.cons_append]
    exact .group hinner (ih hl)

theorem mono (hk : Level q ks) (hqr : ∀ k, q k = true → r k = true) : Level r ks := by
  induction hk with
  | nil => exact .nil
  | flat hq hflat _ ih => exact .flat (hqr _ hq) hflat (ih hqr)
  | group hinner _ _ ih => exact .group hinner (ih hqr)

theorem any (hk : Level q ks) : Level (fun _ => true) ks := hk.mono fun _ _ => rfl

theorem of_cons {k : Kind} (h : Level q (k :: ks)) (hflat : k.isFlat = true) : Level q ks := by
  cases h with
  | flat _ _ hks => exact hks
  | group _ _ => cases hflat

theorem single {k : Kind} (hq : q k = true) (hflat : k.isFlat = true) : Level q [k] :=
  .flat hq hflat .nil

end Level

/-! ## Searches that go on -/

/-- A search that passes over everything of `q` at its depth and over everything deeper inside. -/
structure Passes (stop : Nat → Kind → Bool) (depth : Nat) (q : Kind → Bool) : Prop where
  flat : ∀ k, q k = true → k.isFlat = true → stop depth k = false
  opening : ∀ b, stop depth (.opening b) = false
  inner : ∀ d k, depth < d → (k.isFlat || k.isOpening || k.isClosing) = true → stop d k = false

theorem Passes.deeper {stop : Nat → Kind → Bool} {depth : Nat} {q : Kind → Bool}
    (h : Passes stop depth q) : Passes stop (depth + 1) (fun _ => true) where
  flat k _ hflat := h.inner _ k (Nat.lt_succ_self _) (by simp [hflat])
  opening b := h.inner _ _ (Nat.lt_succ_self _) rfl
  inner d k hd hk := h.inner d k (Nat.lt_of_succ_lt hd) hk

theorem nest_of_isFlat {k : Kind} (h : k.isFlat = true) (depth : Nat) : nest depth k = depth := by
  cases k with
  | opening b => cases h
  | closing b => cases h
  | _ => rfl

/-- **A search that passes what stands outside of brackets passes the run.** -/
theorem Level.positionFrom_append {stop : Nat → Kind → Bool} {depth : Nat} {q : Kind → Bool}
    {ks : List Kind} (hk : Level q ks) (hs : Passes stop depth q) (rest : List Token) :
    positionFrom stop depth (toks ks ++ rest) = ks.length + positionFrom stop depth rest := by
  induction hk generalizing depth rest with
  | nil => simp
  | @flat q k ks hq hflat _ ih =>
    simp only [toks_cons, List.cons_append, positionFrom, Kind.kind_bare, hs.flat k hq hflat,
      nest_of_isFlat hflat, Bool.false_eq_true, if_false, ih hs rest, List.length_cons]
    omega
  | @group q b c inner ks _ _ ihinner ih =>
    have hclosing : stop (depth + 1) (.closing c) = false :=
      hs.inner _ _ (Nat.lt_succ_self _) rfl
    simp only [toks_cons, toks_append, List.cons_append, List.append_assoc, positionFrom,
      Kind.kind_bare, hs.opening b, Bool.false_eq_true, if_false, List.length_cons,
      List.length_append]
    -- The bracket is left at the depth at which it was entered.
    rw [show nest depth (.opening b) = depth + 1 from rfl, ihinner hs.deeper]
    simp only [positionFrom, Kind.kind_bare, hclosing, Bool.false_eq_true, if_false]
    rw [show nest (depth + 1) (.closing c) = depth from rfl, ih hs]
    omega

/-- A search among the tokens outside of brackets stops at none of those in `q`. -/
structure Avoids (q p : Kind → Bool) : Prop where
  flat : ∀ k, q k = true → k.isFlat = true → p k = false
  opening : ∀ b, p (.opening b) = false

namespace Avoids

variable {q p p' : Kind → Bool}

theorem beq {k : Kind} (hq : q k = false) (hk : k.isFlat = true) : Avoids q (· == k) where
  flat l hl _ := by
    rw [beq_eq_false_iff_ne]
    intro h
    rw [h, hq] at hl
    cases hl
  opening b := by
    rw [beq_eq_false_iff_ne]
    intro h
    rw [← h] at hk
    cases hk

theorem closing : Avoids q Kind.isClosing where
  flat k _ hk := by
    cases k with
    | closing b => cases hk
    | _ => rfl
  opening _ := rfl

theorem or (h : Avoids q p) (h' : Avoids q p') : Avoids q (fun k => p k || p' k) where
  flat k hq hk := by simp [h.flat k hq hk, h'.flat k hq hk]
  opening b := by simp [h.opening b, h'.opening b]

theorem passes (h : Avoids q p) : Passes (fun d k => d == 0 && p k) 0 q where
  flat k hq hk := by simp [h.flat k hq hk]
  opening b := by simp [h.opening b]
  inner d k hd _ := by
    have : (d == 0) = false := by simpa using Nat.ne_of_gt hd
    simp [this]

end Avoids

/-! ## The cuts -/

section Cuts

variable {q p : Kind → Bool} {ks : List Kind} {k : Kind}

theorem topAt_level (hks : Level q ks) (hp : Avoids q p) : topAt p (toks ks) = ks.length := by
  have h := hks.positionFrom_append hp.passes []
  rw [List.append_nil] at h
  exact h

theorem topAt_append (hks : Level q ks) (hp : Avoids q p) (hk : p k = true) (rest : List Token) :
    topAt p (toks ks ++ k.bare :: rest) = ks.length := by
  unfold topAt
  rw [hks.positionFrom_append hp.passes]
  simp [positionFrom, hk]

theorem splitTop_level (hks : Level q ks) (hp : Avoids q p) : splitTop p (toks ks) = [toks ks] := by
  rw [splitTop, topAt_level hks hp]
  simp

theorem splitTop_append (hks : Level q ks) (hp : Avoids q p) (hk : p k = true)
    (rest : List Token) :
    splitTop p (toks ks ++ k.bare :: rest) = toks ks :: splitTop p rest := by
  rw [splitTop, topAt_append hks hp hk]
  have hlt : ks.length < (toks ks ++ k.bare :: rest).length := by simp
  simp only [hlt, if_true, take_toks, drop_toks_succ]

theorem closingAt_append (hks : Level q ks) (b : Bracket) (rest : List Token) :
    closingAt (toks ks ++ (Kind.closing b).bare :: rest) = ks.length := by
  unfold closingAt
  rw [hks.positionFrom_append Avoids.closing.passes]
  rfl

theorem passes_endsStatement (hq : q (.punct .semicolon) = false) : Passes endsStatement 0 q where
  flat k hqk hk := by
    have hsemicolon := (Avoids.beq hq rfl).flat k hqk hk
    cases k with
    | newline => cases hk
    | eof => cases hk
    | _ => simp_all [endsStatement]
  opening _ := rfl
  inner d k hd hk := by
    have : (d == 0) = false := by simpa using Nat.ne_of_gt hd
    cases k with
    | newline => cases hk
    | eof => cases hk
    | _ => simp [endsStatement, this]

/-- The end of a statement whose first token has been taken off already. -/
theorem positionFrom_endsStatement (hks : Level q (k :: ks)) (hq : q (.punct .semicolon) = false)
    {stop : Kind} (hstop : endsStatement 0 stop = true) (rest : List Token) :
    positionFrom endsStatement (nest 0 k) (toks ks ++ stop.bare :: rest) = ks.length := by
  have hpasses := passes_endsStatement hq
  have hwhole := hks.positionFrom_append hpasses (stop.bare :: rest)
  have hfirst : endsStatement 0 k = false := by
    cases hks with
    | flat hqk hk _ => exact hpasses.flat k hqk hk
    | group _ _ => rfl
  have hend : positionFrom endsStatement 0 (stop.bare :: rest) = 0 := by simp [positionFrom, hstop]
  rw [hend] at hwhole
  simp only [toks_cons, List.cons_append, positionFrom, Kind.kind_bare, hfirst, Bool.false_eq_true,
    if_false, List.length_cons] at hwhole
  omega

/-- Headers hold no colon and no lambda outside of brackets. -/
theorem Level.colonFrom_append {depth lambdas : Nat} (hks : Level q ks)
    (hcolon : depth = 0 → Avoids q (· == .punct .colon))
    (hlambda : depth = 0 → Avoids q (· == .keyword .lambdaKw)) (rest : List Token) :
    colonFrom depth lambdas (toks ks ++ rest) = ks.length + colonFrom depth lambdas rest := by
  induction hks generalizing depth rest with
  | nil => simp
  | @flat q k ks hq hflat _ ih =>
    have hnotColon : ¬ (depth = 0 ∧ k = .punct .colon) := by
      intro h
      simpa [h.2] using (hcolon h.1).flat k hq hflat
    have hnotLambda : ¬ (depth = 0 ∧ k = .keyword .lambdaKw) := by
      intro h
      simpa [h.2] using (hlambda h.1).flat k hq hflat
    simp only [toks_cons, List.cons_append, colonFrom, Kind.kind_bare, if_neg hnotColon,
      if_neg hnotLambda, nest_of_isFlat hflat, ih hcolon hlambda, List.length_cons]
    omega
  | @group q b c inner ks _ _ ihinner ih =>
    simp only [toks_cons, toks_append, List.cons_append, List.append_assoc, List.length_cons,
      List.length_append, colonFrom, Kind.kind_bare, reduceCtorEq, and_false, if_false]
    rw [show nest depth (.opening b) = depth + 1 from rfl,
      ihinner (fun h => absurd h (Nat.succ_ne_zero _)) (fun h => absurd h (Nat.succ_ne_zero _))]
    simp only [colonFrom, Kind.kind_bare, reduceCtorEq, and_false, if_false]
    rw [show nest (depth + 1) (.closing c) = depth from rfl, ih hcolon hlambda]
    omega

theorem colonAt_append (hks : Level q ks) (hcolon : q (.punct .colon) = false)
    (hlambda : q (.keyword .lambdaKw) = false) (rest : List Token) :
    colonAt (toks ks ++ (Kind.punct .colon).bare :: rest) = ks.length := by
  unfold colonAt
  rw [hks.colonFrom_append (fun _ => .beq hcolon rfl) (fun _ => .beq hlambda rfl)]
  simp [colonFrom]

/-- Blocks begin and end between statements only. -/
theorem Level.blockEnd_append (hks : Level q ks) (inner : Nat) (rest : List Token) :
    blockEnd inner (toks ks ++ rest) = ks.length + blockEnd inner rest := by
  induction hks generalizing rest with
  | nil => simp
  | @flat q k ks _ hflat _ ih =>
    cases k with
    | indent => cases hflat
    | dedent => cases hflat
    | eof => cases hflat
    | _ =>
      simp only [toks_cons, List.cons_append, List.length_cons, blockEnd, Kind.kind_bare, ih]
      omega
  | @group q b c group ks _ _ ihinner ih =>
    simp only [toks_cons, toks_append, List.cons_append, List.append_assoc, List.length_cons,
      List.length_append, blockEnd, Kind.kind_bare]
    rw [ihinner]
    simp only [blockEnd, Kind.kind_bare]
    rw [ih]
    omega

end Cuts

end Scope

end FieldView
