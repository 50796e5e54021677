import FieldView.Proofs.Scope.Cursor

/-!
# Expressions are read inside their run

Every checked step of the reader by positions is shown to succeed, function by function, and its
result is the one that the structural definition has. The two speak of places differently: what
stands at place `i` of a run is the head of `ts.drop i`, so each lemma says what the reader does at
`i` in terms of `ts.drop i`. `Reads` holds the facts about one such head.

Most places come from a search that may have found nothing. What bounds them is `positionFrom_le`: a
search that fails answers with the length of what it looked through. So one more step behind such a
place can leave the run, and `drop_min_length` and `slice_min` say that nothing is read there.

A name needs the token before it. `Follows` says what the reader finds when it looks back, which is
where the structural definitions pass a flag along.
-/

set_option autoImplicit false

namespace FieldView.Scope.Cursor

/-! ## Checked steps -/

@[simp]
theorem ok_bind {α β : Type} (a : α) (f : α → Checked β) : (Except.ok a >>= f) = f a := rfl

@[simp]
theorem pure_eq_ok {α : Type} (a : α) : (pure a : Checked α) = .ok a := rfl

theorem slice_eq {ts : List Token} {start stop : Nat} (h : start ≤ stop)
    (hstop : stop ≤ ts.length) :
    slice ts start stop = .ok ((ts.take stop).drop start) := if_pos ⟨h, hstop⟩

theorem slice_front {ts : List Token} {stop : Nat} (h : stop ≤ ts.length) :
    slice ts 0 stop = .ok (ts.take stop) := slice_eq (Nat.zero_le _) h

theorem slice_back {ts : List Token} {start : Nat} (h : start ≤ ts.length) :
    slice ts start ts.length = .ok (ts.drop start) := by
  rw [slice_eq h (Nat.le_refl _), List.take_length]

/-- A stretch of what is left is a stretch of the run. -/
theorem slice_drop {ts : List Token} {start size : Nat} (h : start + size ≤ ts.length) :
    slice ts start (start + size) = .ok ((ts.drop start).take size) := by
  rw [slice_eq (Nat.le_add_right _ _) h, List.drop_take, Nat.add_sub_cancel_left]

/-- A stretch that would end behind the run is cut off with it. -/
theorem slice_min {ts : List Token} {start : Nat} (h : start ≤ ts.length) (size : Nat) :
    slice ts start (min (start + size) ts.length) = .ok ((ts.drop start).take size) := by
  by_cases hsize : start + size ≤ ts.length
  · rw [Nat.min_eq_left hsize, slice_drop hsize]
  · rw [Nat.min_eq_right (by omega), slice_back h, List.take_of_length_le]
    rw [List.length_drop]
    omega

theorem minus_eq {m n : Nat} (h : n ≤ m) : minus m n = .ok (m - n) := if_pos h

/-- A run with a token at a place, and what is left behind it. -/
structure Reads (ts : List Token) (i : Nat) (t : Token) (rest : List Token) : Prop where
  token : ts[i]? = some t
  back : ts.drop (i + 1) = rest
  length : ts.length = i + 1 + rest.length

theorem reads_of_drop {ts : List Token} {i : Nat} {t : Token} {rest : List Token}
    (h : ts.drop i = t :: rest) : Reads ts i t rest := by
  have hlength := congrArg List.length h
  rw [List.length_drop, List.length_cons] at hlength
  refine ⟨?_, ?_, by omega⟩
  · rw [← List.head?_drop, h, List.head?_cons]
  · rw [← List.drop_drop, h, List.drop_one, List.tail_cons]

theorem reads_of_getElem? {ts : List Token} {i : Nat} {t : Token} (h : ts[i]? = some t) :
    Reads ts i t (ts.drop (i + 1)) := by
  obtain ⟨hlt, rfl⟩ := List.getElem?_eq_some_iff.mp h
  exact reads_of_drop (List.drop_eq_getElem_cons hlt)

namespace Reads

variable {ts : List Token} {i : Nat} {t : Token} {rest : List Token}

theorem lt (h : Reads ts i t rest) : i < ts.length := by
  have := h.length
  omega

theorem drop_eq (h : Reads ts i t rest) : ts.drop i = t :: rest := by
  rw [List.drop_eq_getElem_cons h.lt, h.back, (List.getElem_eq_iff h.lt).mpr h.token]

theorem tokenAt_eq (h : Reads ts i t rest) : tokenAt ts i = .ok t := by
  rw [tokenAt, h.token]

theorem slice_eq (h : Reads ts i t rest) {n : Nat} (hn : n ≤ rest.length) :
    slice ts (i + 1) (i + 1 + n) = .ok (rest.take n) := by
  have hlength := h.length
  rw [slice_drop (by omega), h.back]

theorem slice_whole (h : Reads ts i t rest) {n : Nat} (hn : n ≤ rest.length) :
    slice ts i (i + 1 + n) = .ok (t :: rest.take n) := by
  have hlength := h.length
  rw [Nat.add_assoc, Nat.add_comm 1, slice_drop (by omega), h.drop_eq, List.take_succ_cons]

theorem getElem?_succ (h : Reads ts i t rest) : ts[i + 1]? = rest.head? := by
  rw [← h.back, List.head?_drop]

theorem getElem?_add (h : Reads ts i t rest) (n : Nat) : ts[i + 1 + n]? = rest[n]? := by
  rw [← h.back, List.getElem?_drop]

theorem drop_add (h : Reads ts i t rest) (n : Nat) : ts.drop (i + 1 + n) = rest.drop n := by
  rw [← List.drop_drop, h.back]

end Reads

/-! ## Searches -/

section Searches

variable {ts : List Token} {stop : Nat → Kind → Bool}

theorem searchFrom_eq {missing depth i : Nat} (h : missing = i + ts.length) :
    searchFrom stop missing depth i ts = i + positionFrom stop depth ts := by
  induction ts generalizing depth i with
  | nil => exact h
  | cons t ts ih =>
    rw [searchFrom, positionFrom]
    split
    · rfl
    · rw [ih (by rw [h, List.length_cons]; omega)]
      omega

theorem search_eq {start : Nat} (h : start ≤ ts.length) :
    search stop ts start = start + positionFrom stop 0 (ts.drop start) := by
  apply searchFrom_eq
  rw [List.length_drop]
  omega

/-- Counting from the bracket itself, what closes it is met one level deeper. -/
theorem positionFrom_deeper (depth : Nat) (ts : List Token) :
    positionFrom (fun d k => d ≤ 1 && k.isClosing) (depth + 1) ts =
      positionFrom (fun d k => d == 0 && k.isClosing) depth ts := by
  induction ts generalizing depth with
  | nil => rfl
  | cons t ts ih =>
    simp only [positionFrom]
    cases hk : t.kind with
    | closing b =>
      cases depth with
      | zero => rfl
      | succ depth => simpa [Kind.isClosing, nest] using ih depth
    | opening b => simpa [Kind.isClosing, nest] using ih (depth + 1)
    | _ => simpa [Kind.isClosing, nest] using ih depth

theorem matchingClose_eq {i : Nat} {t : Token} {rest : List Token} (h : Reads ts i t rest)
    (ht : t.kind.isOpening = true) : matchingClose ts i = i + 1 + closingAt rest := by
  unfold matchingClose
  rw [search_eq (Nat.le_of_lt h.lt), h.drop_eq, positionFrom]
  cases hk : t.kind with
  | opening b =>
    have hplain : (Kind.opening b).isClosing = false := rfl
    simp only [hplain, Bool.and_false, Bool.false_eq_true, if_false, nest]
    rw [positionFrom_deeper]
    unfold closingAt
    omega
  | _ =>
    rw [hk] at ht
    cases ht

/-- A token at which the search stops at any depth is not passed. -/
theorem positionFrom_le_of_stop {depth k : Nat} {u : Token} (h : ts[k]? = some u)
    (hstop : ∀ d, stop d u.kind = true) : positionFrom stop depth ts ≤ k := by
  induction ts generalizing depth k with
  | nil => cases h
  | cons t ts ih =>
    rw [positionFrom]
    split
    · exact Nat.zero_le k
    · rename_i hpass
      cases k with
      | zero =>
        cases h
        exact absurd (hstop depth) hpass
      | succ k => exact Nat.succ_le_succ (ih h)

theorem positionFrom_take (depth n : Nat) (ts : List Token) :
    positionFrom stop depth (ts.take n) = min n (positionFrom stop depth ts) := by
  induction ts generalizing depth n with
  | nil => simp [positionFrom]
  | cons t ts ih =>
    cases n with
    | zero => simp [positionFrom]
    | succ n =>
      rw [List.take_succ_cons, positionFrom, positionFrom]
      split
      · rfl
      · rw [ih, Nat.succ_min_succ]

theorem closingAt_le (ts : List Token) : closingAt ts ≤ ts.length := positionFrom_le ..

theorem statementEnd_eq {i : Nat} {t : Token} {rest : List Token} (h : Reads ts i t rest)
    (ht : endsStatement 0 t.kind = false) :
    statementEnd ts i = i + 1 + positionFrom endsStatement (nest 0 t.kind) rest := by
  unfold statementEnd
  rw [search_eq (Nat.le_of_lt h.lt), h.drop_eq, positionFrom, ht]
  simp only [Bool.false_eq_true, if_false]
  omega

theorem colonFrom_eq {missing depth lambdas i : Nat} (h : missing = i + ts.length) :
    colonFrom missing depth lambdas i ts = .ok (i + Scope.colonFrom depth lambdas ts) := by
  induction ts generalizing depth lambdas i with
  | nil => rw [h]; rfl
  | cons t ts ih =>
    have hrest : missing = i + 1 + ts.length := by
      rw [h, List.length_cons]
      omega
    rw [colonFrom, Scope.colonFrom.eq_def]
    simp only
    split
    · rw [ih hrest]
      congr 1
      omega
    · split
      · cases lambdas with
        | zero => rfl
        | succ outer =>
          rw [if_neg (Nat.succ_ne_zero _), minus_eq (Nat.le_add_left _ _), ok_bind,
            Nat.add_sub_cancel, ih hrest]
          simp only [Nat.add_assoc, Nat.add_comm 1]
      · rw [ih hrest]
        congr 1
        omega

theorem headerColon_eq {start stop : Nat} (h : start ≤ stop) (hstop : stop ≤ ts.length) :
    headerColon ts start stop = .ok (start + colonAt ((ts.take stop).drop start)) := by
  apply colonFrom_eq
  rw [List.length_drop, List.length_take]
  omega

/-! ## Cuts -/

/-- The places of a property begin with the first one, if there is one. -/
theorem placesFrom_eq (p : Kind → Bool) (depth i : Nat) (ts : List Token) :
    placesFrom p depth i ts =
      let n := positionFrom (fun d k => d == 0 && p k) depth ts
      if n < ts.length then (i + n) :: placesFrom p 0 (i + n + 1) (ts.drop (n + 1)) else [] := by
  induction ts generalizing depth i with
  | nil => rfl
  | cons t ts ih =>
    rw [placesFrom]
    by_cases hp : depth = 0 ∧ p t.kind = true
    · simp [positionFrom, hp]
    · have hstop : (depth == 0 && p t.kind) = false := by
        rw [Bool.and_eq_false_iff]
        by_cases hdepth : depth = 0
        · right
          simpa [hdepth] using hp
        · left
          simpa using hdepth
      -- one token further, and one place more to add
      rw [if_neg hp, ih]
      simp only [positionFrom, hstop, Bool.false_eq_true, if_false, List.length_cons,
        Nat.add_lt_add_iff_right, List.drop_succ_cons]
      simp only [Nat.add_assoc, Nat.add_comm 1]

theorem placesFrom_top (p : Kind → Bool) (i : Nat) (ts : List Token) :
    placesFrom p 0 i ts =
      if topAt p ts < ts.length then
        (i + topAt p ts) :: placesFrom p 0 (i + topAt p ts + 1) (ts.drop (topAt p ts + 1))
      else [] := placesFrom_eq p 0 i ts

theorem head?_places (p : Kind → Bool) (ts : List Token) :
    (places p ts).head? = if topAt p ts < ts.length then some (topAt p ts) else none := by
  unfold places
  rw [placesFrom_top, Nat.zero_add]
  split
  · rfl
  · rfl

theorem getD_head?_places (p : Kind → Bool) (ts : List Token) :
    (places p ts).head?.getD ts.length = topAt p ts := by
  have hle := topAt_le p ts
  rw [head?_places]
  split
  · rfl
  · rw [Option.getD_none]
    omega

/-- The cuts from a place on are those of what is left there. -/
theorem cutAt_eq (p : Kind → Bool) {last : Nat} {rest : List Token} (h : last ≤ ts.length)
    (hrest : ts.drop last = rest) :
    cutAt ts last (placesFrom p 0 last rest) = .ok (splitTop p rest) := by
  fun_induction splitTop p rest generalizing last with
  | case1 rest n hlt =>
    rename_i ih
    have hlength : rest.length = ts.length - last := by rw [← hrest, List.length_drop]
    have hnext : ts.drop (last + topAt p rest + 1) = rest.drop (topAt p rest + 1) := by
      rw [← hrest, List.drop_drop, Nat.add_assoc]
    rw [placesFrom_top, if_pos hlt, cutAt, slice_drop (by omega), hrest, ok_bind,
      ih (by omega) hnext]
    rfl
  | case2 rest n =>
    rename_i hlt
    rw [placesFrom_top, if_neg hlt, cutAt, slice_back h, hrest]
    rfl

theorem split_eq (p : Kind → Bool) (ts : List Token) : split p ts = .ok (splitTop p ts) :=
  cutAt_eq p (Nat.zero_le _) rfl

end Searches

/-! ## Suites -/

section Suites

variable {ts : List Token}

/-- What is left at a place is nothing, or a token and what follows it. -/
theorem drop_cases (ts : List Token) (i : Nat) :
    ts.drop i = [] ∧ ¬i < ts.length ∨ ∃ t rest, ts.drop i = t :: rest ∧ Reads ts i t rest := by
  cases h : ts.drop i with
  | nil => exact .inl ⟨rfl, Nat.not_lt.mpr (List.drop_eq_nil_iff.mp h)⟩
  | cons t rest => exact .inr ⟨t, rest, rfl, reads_of_drop h⟩

/-- Where reading goes on behind a block: a dedent belongs to the block that it closes. -/
def behindBlock (ts : List Token) (stop : Nat) : Nat :=
  if isAt ts stop .dedent then stop + 1 else stop

theorem isAt_eq {i : Nat} {t : Token} {rest : List Token} (h : Reads ts i t rest) (k : Kind) :
    isAt ts i k = (t.kind == k) := by
  rw [isAt, h.token, Option.any_some]

theorem isAt_missing {i : Nat} (h : ¬i < ts.length) (k : Kind) : isAt ts i k = false := by
  rw [isAt, List.getElem?_eq_none (Nat.not_lt.mp h), Option.any_none]

theorem blockFrom_eq (inner i : Nat) :
    blockFrom ts (inner + 1) i =
      .ok (i + blockEnd inner (ts.drop i), behindBlock ts (i + blockEnd inner (ts.drop i))) := by
  obtain ⟨hnil, hlt⟩ | ⟨t, rest, hcons, h⟩ := drop_cases ts i
  · rw [blockFrom, if_neg hlt, hnil, blockEnd, behindBlock, Nat.add_zero, isAt_missing hlt]
    rfl
  · have hlt := h.lt
    rw [blockFrom, if_pos hlt, h.tokenAt_eq, ok_bind, hcons, blockEnd.eq_def]
    simp only
    cases hk : t.kind with
    | indent =>
      rw [blockFrom_eq (inner + 1) (i + 1), h.back, Nat.add_right_comm i 1]
      rfl
    | dedent =>
      simp only [minus_eq (Nat.le_add_left 1 inner), ok_bind, Nat.add_sub_cancel]
      cases inner with
      | zero =>
        simp only [if_true, Nat.add_zero, behindBlock, isAt_eq h, hk]
        rfl
      | succ outer =>
        rw [if_neg (Nat.succ_ne_zero _), blockFrom_eq outer (i + 1), h.back,
          Nat.add_right_comm i 1]
        rfl
    | eof =>
      simp only [Nat.add_zero, behindBlock, isAt_eq h, hk]
      rfl
    | _ =>
      rw [blockFrom_eq inner (i + 1), h.back, Nat.add_right_comm i 1]
      rfl
termination_by ts.length - i

theorem lineFrom_eq (i : Nat) :
    lineFrom ts i = .ok (i + ((ts.drop i).takeWhile (·.kind != .newline)).length) := by
  obtain ⟨hnil, hlt⟩ | ⟨t, rest, hcons, h⟩ := drop_cases ts i
  · rw [lineFrom, if_neg hlt, hnil]
    rfl
  · have hlt := h.lt
    rw [lineFrom, if_pos hlt, h.tokenAt_eq, ok_bind, hcons, List.takeWhile_cons]
    by_cases hk : t.kind = .newline
    · simp [hk]
    · rw [if_neg hk, lineFrom_eq (i + 1), h.back]
      simp [hk]
      omega
termination_by ts.length - i

/-- The places of a suite after a place. -/
def rangeAt (s : Suite) (i : Nat) : Range := ⟨i + s.start, i + s.start + s.size⟩

theorem beginsBlock_drop (ts : List Token) (i : Nat) :
    beginsBlock (ts.drop i) = (isAt ts i .newline && isAt ts (i + 1) .indent) := by
  obtain ⟨hnil, hlt⟩ | ⟨t, rest, hcons, h⟩ := drop_cases ts i
  · rw [hnil, isAt_missing hlt]
    rfl
  · obtain ⟨hnil, hlt⟩ | ⟨u, us, hback, hu⟩ := drop_cases ts (i + 1)
    · rw [hcons, ← h.back, hnil, isAt_missing hlt, Bool.and_false]
      rfl
    · rw [hcons, ← h.back, hback, isAt_eq h, isAt_eq hu]
      rfl

theorem any_head?_drop (i : Nat) (k : Kind) :
    (ts.drop i).head?.any (·.kind == k) = isAt ts i k := by
  rw [List.head?_drop]
  rfl

/-- A suite is found by the end of its header's line. A header that ends its line ends it right
behind the colon. -/
theorem suiteAfter_eq {colon lineEnd : Nat}
    (hline : isAt ts (colon + 1) .newline = true → colon + 1 = lineEnd) :
    suiteAfter ts colon lineEnd =
      .ok (rangeAt (suite (ts.drop (colon + 1))) (colon + 1),
        colon + 1 + (suite (ts.drop (colon + 1))).next) := by
  have hbegins := beginsBlock_drop ts (colon + 1)
  rw [suiteAfter, suite]
  by_cases hblock : beginsBlock (ts.drop (colon + 1)) = true
  · rw [hblock, eq_comm, Bool.and_eq_true] at hbegins
    have hend := hline hbegins.1
    subst hend
    rw [if_pos ⟨rfl, hbegins⟩, if_pos hblock, blockFrom_eq]
    simp only [ok_bind, List.drop_drop, any_head?_drop, behindBlock, rangeAt, Nat.add_assoc]
    split
    · rfl
    · rfl
  · have hplain : ¬(colon + 1 = lineEnd ∧ isAt ts lineEnd .newline = true ∧
        isAt ts (lineEnd + 1) .indent = true) := by
      rintro ⟨rfl, hnewline, hindent⟩
      rw [hnewline, hindent] at hbegins
      exact hblock hbegins
    rw [if_neg hplain, if_neg hblock, lineFrom_eq]
    rfl

theorem blockEnd_le (inner : Nat) (ts : List Token) : blockEnd inner ts ≤ ts.length := by
  fun_induction blockEnd inner ts with
  | case1 => simp
  | case3 => simp
  | case5 => simp
  | _ =>
    rw [List.length_cons]
    omega

theorem suite_le (ts : List Token) : (suite ts).start + (suite ts).size ≤ ts.length := by
  unfold suite
  split
  · rename_i hbegins
    have hlength : 2 ≤ ts.length := by
      cases ts with
      | nil => cases hbegins
      | cons t ts =>
        cases ts with
        | nil => cases hbegins
        | cons u us => simp
    have hle := blockEnd_le 0 (ts.drop 2)
    rw [List.length_drop] at hle
    simp only
    omega
  · simpa using (List.takeWhile_sublist _).length_le

/-- The body of a suite can be cut from the run that holds it. -/
theorem slice_rangeAt {i : Nat} (h : i ≤ ts.length) :
    slice ts (rangeAt (suite (ts.drop i)) i).start (rangeAt (suite (ts.drop i)) i).stop =
      .ok ((suite (ts.drop i)).body (ts.drop i)) := by
  have hle := suite_le (ts.drop i)
  rw [List.length_drop] at hle
  have hstop : i + (suite (ts.drop i)).start + (suite (ts.drop i)).size ≤ ts.length := by omega
  unfold rangeAt Suite.body
  rw [slice_drop hstop, List.drop_drop]

end Suites

/-! ## Expressions and targets -/

section Expressions

variable {ts : List Token} {i : Nat} {t : Token} {rest : List Token}

theorem endsWithDot_take_succ (h : Reads ts i t rest) :
    endsWithDot (ts.take (i + 1)) = (t.kind == .punct .dot) := by
  unfold endsWithDot
  rw [List.take_add_one, h.token, Option.toList_some, List.getLast?_concat, Option.any_some]

theorem afterDot_eq (h : i ≤ ts.length) : afterDot ts i = .ok (endsWithDot (ts.take i)) := by
  cases i with
  | zero => rfl
  | succ i =>
    obtain ⟨-, hlt⟩ | ⟨t, rest, -, hreads⟩ := drop_cases ts i
    · omega
    · rw [afterDot, if_pos (Nat.succ_pos i), minus_eq (Nat.le_add_left 1 i), ok_bind,
        Nat.add_sub_cancel, hreads.tokenAt_eq, endsWithDot_take_succ hreads]
      rfl

/-- A name at the place stands behind a dot or not, as `dotted` says. Where no name stands, the
token before the place does not matter. -/
def Follows (ts : List Token) (i : Nat) (dotted : Bool) : Prop :=
  ∀ t name, ts[i]? = some t → t.kind = .ident name → endsWithDot (ts.take i) = dotted

theorem follows_zero (ts : List Token) : Follows ts 0 false := by
  intro t name _ _
  rfl

theorem follows_succ (h : Reads ts i t rest) : Follows ts (i + 1) (t.kind == .punct .dot) := by
  intro u name _ _
  exact endsWithDot_take_succ h

/-- A position is the end of its run, or a token stands there at which the search stops. -/
theorem stop_of_positionFrom {stop : Nat → Kind → Bool} {depth : Nat}
    (h : ts[positionFrom stop depth ts]? = some t) : ∃ d, stop d t.kind = true := by
  induction ts generalizing depth with
  | nil => cases h
  | cons u us ih =>
    rw [positionFrom] at h
    split at h
    · rename_i hstop
      cases h
      exact ⟨depth, hstop⟩
    · exact ih h

theorem isClosing_of_closingAt (h : rest[closingAt rest]? = some t) : t.kind.isClosing = true := by
  obtain ⟨d, hstop⟩ := stop_of_positionFrom h
  exact (Bool.and_eq_true_iff.mp hstop).2

/-- Behind the bracket that closes no name stands after a dot, and behind a bracket that does not
close there is no name. -/
theorem follows_closing (h : Reads ts i t rest) :
    Follows ts (i + 1 + closingAt rest + 1) false := by
  obtain ⟨-, hlt⟩ | ⟨u, us, -, hu⟩ := drop_cases ts (i + 1 + closingAt rest)
  · intro v name hv
    rw [List.getElem?_eq_none (by omega)] at hv
    cases hv
  · have hclosing : u.kind.isClosing = true :=
      isClosing_of_closingAt (by rw [← h.getElem?_add, hu.token])
    have hdot : (u.kind == .punct .dot) = false := by
      cases hk : u.kind with
      | closing b => rfl
      | _ =>
        rw [hk] at hclosing
        cases hclosing
    rw [← hdot]
    exact follows_succ hu

/-- What ends a lambda at its depth. -/
def endsLambda (depth : Nat) (k : Kind) : Bool :=
  depth == 0 && (k.isClosing || k == .punct .comma)

theorem lambdaFrom_eq (ts : List Token) (depth i : Nat) :
    lambdaFrom ts depth i =
      .ok (min (i + positionFrom endsLambda depth (ts.drop i)) ts.length) := by
  obtain ⟨hnil, hlt⟩ | ⟨t, rest, hcons, h⟩ := drop_cases ts i
  · rw [lambdaFrom, if_neg hlt, hnil, positionFrom, Nat.min_eq_right (by omega)]
    rfl
  · have hlt := h.lt
    have next (d : Nat) : lambdaFrom ts d (i + 1) =
        .ok (min (i + (positionFrom endsLambda d rest + 1)) ts.length) := by
      rw [lambdaFrom_eq ts d (i + 1), h.back, Nat.add_right_comm]
      rfl
    have here : Except.ok i = (Except.ok (min (i + 0) ts.length) : Checked Nat) := by
      rw [Nat.add_zero, Nat.min_eq_left (Nat.le_of_lt hlt)]
    rw [lambdaFrom, if_pos hlt, h.tokenAt_eq, ok_bind, hcons, positionFrom]
    cases hk : t.kind with
    | opening b =>
      have hstop : endsLambda depth (.opening b) = false := by simp [endsLambda, Kind.isClosing]
      simp only [hstop, Bool.false_eq_true, if_false]
      exact next (depth + 1)
    | closing b =>
      cases depth with
      | zero => exact here
      | succ depth =>
        simp only [minus_eq (Nat.le_add_left 1 depth), ok_bind, Nat.add_sub_cancel]
        exact next depth
    | punct p =>
      by_cases hcomma : p = .comma ∧ depth = 0
      · obtain ⟨rfl, rfl⟩ := hcomma
        exact here
      · have hstop : endsLambda depth (.punct p) = false := by
          simp only [endsLambda, Kind.isClosing]
          grind
        have hkind : ¬(Kind.punct p = .punct .comma ∧ depth = 0) := by
          rwa [Kind.punct.injEq]
        rw [if_neg hkind, hstop]
        exact next depth
    | _ => simpa [endsLambda, Kind.isOpening, Kind.isClosing, nest] using next depth
termination_by ts.length - i

/-- A place behind the run holds no more than its end. -/
theorem drop_min_length (ts : List Token) (n : Nat) : ts.drop (min n ts.length) = ts.drop n := by
  by_cases h : n ≤ ts.length
  · rw [Nat.min_eq_left h]
  · rw [Nat.min_eq_right (by omega), List.drop_length, List.drop_eq_nil_of_le (by omega)]

theorem skipLambda_eq (h : Reads ts i t rest) :
    skipLambda ts i = .ok (min (i + 1 + lambdaEnd rest) ts.length) := by
  unfold skipLambda
  rw [headerColon_eq h.lt (Nat.le_refl _), List.take_length, h.back, ok_bind, lambdaFrom_eq,
    Nat.add_assoc (i + 1), h.drop_add]
  simp only [lambdaEnd, Nat.add_assoc]
  rfl

theorem follows_lambda (h : Reads ts i t rest) :
    Follows ts (min (i + 1 + lambdaEnd rest) ts.length) false := by
  intro u name hu hk
  have hplace : (ts.drop (i + 1 + lambdaEnd rest)).head? = some u := by
    rw [← drop_min_length, List.head?_drop, hu]
  rw [List.head?_drop, h.getElem?_add] at hplace
  unfold lambdaEnd at hplace
  rw [← List.getElem?_drop] at hplace
  obtain ⟨d, hstop⟩ := stop_of_positionFrom hplace
  rw [hk] at hstop
  simp [Kind.isClosing] at hstop

/-- A trailer that is cut off ends behind the run. -/
theorem trailerFrom_eq (ts : List Token) (i : Nat) :
    trailerFrom ts i = .ok (i + Scope.trailerEnd (ts.drop i)) := by
  obtain ⟨hnil, hlt⟩ | ⟨t, rest, hcons, h⟩ := drop_cases ts i
  · rw [trailerFrom, if_neg hlt, hnil, Scope.trailerEnd]
    rfl
  · have hlt := h.lt
    -- a subscript and a call end at the bracket that closes them
    have bracket (hopen : t.kind.isOpening = true) :
        (if i < matchingClose ts i + 1 then trailerFrom ts (matchingClose ts i + 1)
          else .error .stall) =
        .ok (i + (2 + closingAt rest + Scope.trailerEnd (rest.drop (closingAt rest + 1)))) := by
      rw [matchingClose_eq h hopen, if_pos (by omega), trailerFrom_eq ts, Nat.add_assoc (i + 1),
        h.drop_add]
      congr 1
      omega
    rw [trailerFrom, if_pos hlt, h.tokenAt_eq, ok_bind, hcons, Scope.trailerEnd]
    cases hk : t.kind with
    | punct p =>
      cases p with
      | dot =>
        simp only
        rw [trailerFrom_eq ts (i + 2), ← Nat.add_assoc i 1 1, h.drop_add]
        congr 1
        omega
      | _ => rfl
    | opening b =>
      cases b with
      | brace => rfl
      | _ => exact bracket (by rw [hk]; rfl)
    | _ => rfl
termination_by ts.length - i

theorem trailerEnd_eq (ts : List Token) (i : Nat) :
    trailerEnd ts i = .ok (min (i + Scope.trailerEnd (ts.drop i)) ts.length) := by
  unfold trailerEnd
  rw [trailerFrom_eq]
  rfl

theorem firstIterable_eq {inner : List Token} {forAt : Nat} (h : forAt < inner.length) :
    firstIterable inner forAt = .ok (Scope.firstIterable (inner.drop (forAt + 1))) := by
  have hback : slice inner (forAt + 1) inner.length = .ok (inner.drop (forAt + 1)) := slice_back h
  unfold firstIterable Scope.firstIterable
  rw [hback, ok_bind, head?_places]
  split
  · rename_i inAt hin
    split at hin
    · cases hin
      rw [slice_back (by omega), ok_bind, getD_head?_places, slice_front (topAt_le _ _)]
    · cases hin
  · rename_i hin
    split at hin
    · cases hin
    · rw [List.drop_eq_nil_of_le (by omega)]
      rfl

/-- A comprehension's first iterable is shorter than what is left where the comprehension begins. -/
theorem length_firstIterable_lt (h : Reads ts i t rest) (close n : Nat) :
    (Scope.firstIterable ((rest.take close).drop n)).length < ts.length - i := by
  have hle := length_firstIterable_le ((rest.take close).drop n)
  rw [List.length_drop, List.length_take] at hle
  have hlength := h.length
  omega

theorem scanExpr_eq (ts : List Token) (i : Nat) (dotted : Bool) (hdot : Follows ts i dotted) :
    scanExpr ts i = .ok (exprMarks dotted (ts.drop i)) := by
  obtain ⟨hnil, hlt⟩ | ⟨t, rest, hcons, h⟩ := drop_cases ts i
  · rw [scanExpr, if_neg hlt, hnil, exprMarks]
    rfl
  · have hlt := h.lt
    have hlength := h.length
    have next : scanExpr ts (i + 1) = .ok (exprMarks (t.kind == .punct .dot) rest) := by
      rw [scanExpr_eq ts (i + 1) _ (follows_succ h), h.back]
    rw [scanExpr, if_pos hlt, h.tokenAt_eq, ok_bind, hcons, exprMarks]
    cases hk : t.kind with
    | ident name =>
      simp only
      rw [afterDot_eq (Nat.le_of_lt hlt), hdot t name h.token hk, ok_bind, next, ok_bind, h.back,
        hk]
      rfl
    | keyword w =>
      rw [hk] at next
      cases w with
      | lambdaKw =>
        -- the search for the end begins behind the colon, so it is past the lambda
        simp only
        have hnext : i < min (i + 1 + lambdaEnd rest) ts.length := by omega
        rw [skipLambda_eq h, ok_bind, if_pos hnext, scanExpr_eq ts _ false (follows_lambda h),
          drop_min_length, h.drop_add]
      | _ => exact next
    | opening b =>
      rw [hk] at next
      have hle := closingAt_le rest
      have hclose : min (matchingClose ts i) ts.length = i + 1 + closingAt rest := by
        rw [matchingClose_eq h (by rw [hk]; rfl)]
        omega
      simp only [hclose, Nat.max_eq_left (Nat.le_add_right (i + 1) _), h.slice_eq hle, ok_bind,
        head?_places]
      by_cases hfor : topAt (· == .keyword .forKw) (rest.take (closingAt rest)) <
          (rest.take (closingAt rest)).length
      · have hshort := length_firstIterable_lt h (closingAt rest)
          (topAt (· == .keyword .forKw) (rest.take (closingAt rest)) + 1)
        simp only [hfor, if_true, firstIterable_eq hfor, ok_bind]
        rw [if_pos ⟨hshort, by omega⟩, scanExpr_eq _ 0 false (follows_zero _), List.drop_zero,
          ok_bind, scanExpr_eq ts _ false (follows_closing h), Nat.add_assoc (i + 1), h.drop_add]
        rfl
      · simp only [hfor, if_false]
        exact next
    | _ =>
      rw [hk] at next
      exact next
termination_by ts.length - i

theorem trailerEnd_pos (h : rest.head?.any (beginsTrailer ·.kind) = true) :
    0 < Scope.trailerEnd rest := by
  cases rest with
  | nil => cases h
  | cons u us =>
    rw [List.head?_cons, Option.any_some] at h
    rw [Scope.trailerEnd]
    split
    · omega
    · simp only
      omega
    · simp only
      omega
    · grind [beginsTrailer]

theorem follows_trailer (h : Reads ts i t rest) {n : Nat} (hn : 0 < n) :
    Follows ts (min (i + 1 + n) ts.length) (endsWithDot (rest.take n)) := by
  intro u name hu _
  have hlt := (List.getElem?_eq_some_iff.mp hu).1
  have hmin : min (i + 1 + n) ts.length = i + 1 + n := by omega
  have hrest : rest.take n ≠ [] := by
    intro hnil
    have hlength := congrArg List.length hnil
    rw [List.length_take, List.length_nil] at hlength
    have := h.length
    omega
  unfold endsWithDot
  rw [hmin, List.take_add, h.back, List.getLast?_append, List.getLast?_eq_some_getLast hrest,
    Option.some_or]

theorem bindTargets_eq (ts : List Token) (i : Nat) (dotted : Bool) (hdot : Follows ts i dotted) :
    bindTargets ts i = .ok (targetMarks dotted (ts.drop i)) := by
  obtain ⟨hnil, hlt⟩ | ⟨t, rest, hcons, h⟩ := drop_cases ts i
  · rw [bindTargets, if_neg hlt, hnil, targetMarks]
    rfl
  · have hlt := h.lt
    have next : bindTargets ts (i + 1) = .ok (targetMarks (t.kind == .punct .dot) rest) := by
      rw [bindTargets_eq ts (i + 1) _ (follows_succ h), h.back]
    rw [bindTargets, if_pos hlt, h.tokenAt_eq, ok_bind, hcons, targetMarks]
    cases hk : t.kind with
    | ident name =>
      rw [hk] at next
      simp only [afterDot_eq (Nat.le_of_lt hlt), hdot t name h.token hk, ok_bind, h.getElem?_succ]
      cases dotted with
      | true => exact next
      | false =>
        simp only [Bool.false_eq_true, if_false]
        by_cases htrailer : rest.head?.any (beginsTrailer ·.kind) = true
        · -- the trailer is not empty, so it is read before the rest and its last token is known
          have hpos := trailerEnd_pos htrailer
          have hnext : i < min (i + 1 + Scope.trailerEnd rest) ts.length := by omega
          rw [if_pos htrailer, if_pos htrailer, trailerEnd_eq, h.back, ok_bind, slice_min h.lt,
            h.back, ok_bind, scanExpr_eq _ 0 false (follows_zero _), ok_bind, if_pos hnext,
            bindTargets_eq ts _ _ (follows_trailer h hpos), drop_min_length, h.drop_add]
          rfl
        · rw [if_neg htrailer, if_neg htrailer, next]
          rfl
    | _ =>
      rw [hk] at next
      exact next
termination_by ts.length - i

@[simp]
theorem scanExpr_whole (ts : List Token) : scanExpr ts 0 = .ok (exprMarks false ts) :=
  scanExpr_eq ts 0 false (follows_zero ts)

@[simp]
theorem bindTargets_whole (ts : List Token) : bindTargets ts 0 = .ok (targetMarks false ts) :=
  bindTargets_eq ts 0 false (follows_zero ts)

end Expressions

end FieldView.Scope.Cursor
