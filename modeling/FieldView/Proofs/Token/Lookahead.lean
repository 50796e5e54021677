import Mathlib.Data.List.Find
import FieldView.Proofs.Token.Cutting

/-!
# How far lexemes look ahead

A lexeme that ends before a line break is the same whatever stands behind the break
(`Lexeme.measure_line`). Blanks, comments, words, numbers and operators end there at the latest, so
they are what they would be if the text ended. A string literal that closes is settled by its own
characters and the next one (`Quoted.longest?_append`). Only a tripled literal that does not close
can change with the text behind the break: as long as some text would close it, it is open
(`Quoted.IsOpen`), and the line break is one of its characters.
-/

set_option autoImplicit false

namespace FieldView

theorem takeWhile_append_stop {p : Char → Bool} {d : Char} (hd : p d = false)
    (v x : List Char) : (v ++ d :: x).takeWhile p = v.takeWhile p := by
  induction v with
  | nil => simp [hd]
  | cons c v ih => simp [List.takeWhile_cons, ih]

/-! ## Numbers -/

namespace Number

variable (v x : List Char)

theorem runLength_line : runLength (v ++ '\n' :: x) = runLength v := by
  rw [runLength, takeWhile_append_stop (by decide), runLength]

theorem signLength_le (v : List Char) : signLength v ≤ v.length := by
  unfold signLength
  split <;> simp

theorem signLength_line : signLength (v ++ '\n' :: x) = signLength v := by
  cases v with
  | nil => rfl
  | cons c v =>
    rw [List.cons_append]
    unfold signLength
    split <;> simp_all

theorem exponentLength_line : exponentLength (v ++ '\n' :: x) = exponentLength v := by
  cases v with
  | nil => rfl
  | cons c v =>
    simp only [List.cons_append, exponentLength, signLength_line,
      List.drop_append_of_le_length (signLength_le v), runLength_line]

theorem letteredLength_line : letteredLength (v ++ '\n' :: x) = letteredLength v := by
  cases v with
  | nil => rfl
  | cons c v =>
    by_cases hc : c = '0'
    · subst hc
      cases v with
      | nil => rfl
      | cons d v =>
        simp only [List.cons_append, letteredLength]
        cases Radix.ofLetter? d with
        | none => rfl
        | some radix =>
          have hstop : radix.isRunChar '\n' = false := by cases radix <;> rfl
          simp only [takeWhile_append_stop hstop]
    · simp [letteredLength, hc]

theorem runLength_le (v : List Char) : runLength v ≤ v.length :=
  (List.takeWhile_prefix _).length_le

theorem atDigit_line : atDigit (v ++ '\n' :: x) = atDigit v := by
  unfold atDigit
  simp only [letteredLength_line, runLength_line, List.drop_append_of_le_length (runLength_le v)]
  generalize v.drop (runLength v) = w
  cases letteredLength v with
  | succ n => rfl
  | zero =>
    cases w with
    | nil => rfl
    | cons d w =>
      by_cases hd : d = '.'
      · subst hd
        simp only [List.cons_append, runLength_line,
          List.drop_append_of_le_length (runLength_le w), exponentLength_line]
      · have hrest := exponentLength_line (d :: w) x
        simp only [List.cons_append] at hrest ⊢
        simp [hd, hrest]

theorem atPoint?_line : atPoint? (v ++ '\n' :: x) = atPoint? v := by
  cases v with
  | nil => rfl
  | cons c v =>
    by_cases hc : c = '.'
    · subst hc
      cases v with
      | nil => rfl
      | cons d v =>
        have hdrop : (d :: v ++ '\n' :: x).drop (1 + runLength v) =
            (d :: v).drop (1 + runLength v) ++ '\n' :: x := by
          apply List.drop_append_of_le_length
          have hrun := runLength_le v
          rw [List.length_cons]
          omega
        simp only [List.cons_append] at hdrop ⊢
        simp only [atPoint?, runLength_line, hdrop, exponentLength_line]
    · simp [atPoint?, hc]

theorem longest?_line (c : Char) : longest? (c :: v ++ '\n' :: x) = longest? (c :: v) := by
  rw [longest?, List.cons_append, longest?, ← List.cons_append, atDigit_line, atPoint?_line]

end Number

/-! ## String literals -/

namespace Quoted

variable {q : Char} {cs : List Char} {n : Nat}

/-- The text begins with a literal that goes on to its end: with some text behind it, the literal
would close and hold all of it. -/
def IsOpen (cs : List Char) : Prop :=
  ∃ more n, longest? (cs ++ more) = some (some n) ∧ cs.length ≤ n

theorem opening?_line (v x : List Char) : opening? (v ++ '\n' :: x) = opening? v := by
  cases v with
  | nil => rfl
  | cons a v =>
    cases v with
    | nil => rfl
    | cons b v =>
      cases v with
      | nil => rfl
      | cons c v => rfl

theorem isBarren_line (v x : List Char) : isBarren (v ++ '\n' :: x) = isBarren v := by
  cases v with
  | nil => rfl
  | cons a v =>
    cases v with
    | nil => rfl
    | cons b v => rfl

theorem isQuote_of_isMark {c : Char} (h : isMark c = true) : isQuote c = false := by
  have hmem : c ∈ ['r', 'R', 'b', 'B', 'u', 'U', 'f', 'F'] := List.contains_iff_mem.mp h
  simp only [List.mem_cons, List.not_mem_nil, or_false] at hmem
  rcases hmem with rfl | rfl | rfl | rfl | rfl | rfl | rfl | rfl <;> rfl

/-- At most two letters and a quote open a literal. -/
theorem opening?_append {marks : List Char} (hlength : marks.length ≤ 2)
    (hmarks : ∀ c ∈ marks, isMark c = true) (hq : isQuote q = true) (rest : List Char) :
    opening? (marks ++ q :: rest) = some (marks.length, q) := by
  cases marks with
  | nil => simp [opening?, hq]
  | cons a marks =>
    have ha := hmarks a List.mem_cons_self
    cases marks with
    | nil => simp [opening?, hq, ha, isQuote_of_isMark ha]
    | cons b marks =>
      have hb := hmarks b (by simp)
      cases marks with
      | nil => simp [opening?, hq, ha, hb, isQuote_of_isMark ha, isQuote_of_isMark hb]
      | cons c marks =>
        simp only [List.length_cons] at hlength
        omega

/-- Nothing else does. -/
theorem exists_of_opening? {letters : Nat} (h : opening? cs = some (letters, q)) :
    ∃ marks rest, cs = marks ++ q :: rest ∧ marks.length = letters ∧ marks.length ≤ 2 ∧
      (∀ c ∈ marks, isMark c = true) ∧ isQuote q = true := by
  fun_cases opening? cs with
  | case2 a as ha =>
    simp only [opening?, ha, if_true] at h
    cases h
    exact ⟨[], as, rfl, rfl, by simp, by simp, ha⟩
  | case4 a ha hma b bs hb =>
    simp only [opening?, ha, hma, hb, if_true] at h
    cases h
    exact ⟨[a], bs, rfl, rfl, by simp, by simpa using hma, hb⟩
  | case6 a ha hma b hb hmb c rest hc =>
    simp only [opening?, ha, hma, hb, hmb, hc, if_true] at h
    cases h
    exact ⟨[a, b], rest, rfl, rfl, by simp, by simpa using ⟨hma, hmb⟩, hc⟩
  | _ => simp_all [opening?]

/-! ### The characters of a literal -/

section Steps

variable {c : Char}

theorem lineLength?_close (q : Char) (cs : List Char) : lineLength? q (q :: cs) = some 1 := by
  rw [lineLength?.eq_def]
  simp

theorem lineLength?_escaped (hq : q ≠ '\\') (hc : c ≠ '\n') (cs : List Char) :
    lineLength? q ('\\' :: c :: cs) = (lineLength? q cs).map (· + 2) := by
  rw [lineLength?.eq_def]
  simp [hq.symm, hc]

theorem lineLength?_plain (hcq : c ≠ q) (hn : c ≠ '\n') (hc : c ≠ '\\') (cs : List Char) :
    lineLength? q (c :: cs) = (lineLength? q cs).map (· + 1) := by
  rw [lineLength?.eq_def]
  simp [hcq, hn, hc]

theorem blockLength?_close (hq : q ≠ '\\') (cs : List Char) :
    blockLength? q (q :: q :: q :: cs) = some 3 := by
  rw [blockLength?.eq_def]
  simp [hq]

theorem blockLength?_escaped (q c : Char) (cs : List Char) :
    blockLength? q ('\\' :: c :: cs) = (blockLength? q cs).map (· + 2) := by
  rw [blockLength?.eq_def]
  simp

theorem blockLength?_plain (hc : c ≠ '\\') (hcq : c ≠ q) (cs : List Char) :
    blockLength? q (c :: cs) = (blockLength? q cs).map (· + 1) := by
  rw [blockLength?.eq_def]
  simp [hc, hcq]

theorem blockLength?_quote (hq : q ≠ '\\') (hc : c ≠ '\\') (hcq : c ≠ q) (cs : List Char) :
    blockLength? q (q :: c :: cs) = (blockLength? q cs).map (· + 2) := by
  rw [blockLength?.eq_def]
  simp [hq, hc, hcq]

theorem blockLength?_quotes (hq : q ≠ '\\') (hc : c ≠ '\\') (hcq : c ≠ q) (cs : List Char) :
    blockLength? q (q :: q :: c :: cs) = (blockLength? q cs).map (· + 3) := by
  rw [blockLength?.eq_def]
  simp [hq, hc, hcq]

end Steps

/-- Whether and where a one-line literal closes is settled by its own characters. -/
theorem lineLength?_take (h : lineLength? q cs = some n) (more : List Char) :
    lineLength? q (cs.take n ++ more) = some n := by
  fun_induction lineLength? q cs generalizing n with
  | case2 =>
    cases h
    simp [lineLength?_close]
  | case6 c cs hc hq hn ih =>
    obtain ⟨k, hk, rfl⟩ := Option.map_eq_some_iff.mp h
    simp [lineLength?_escaped (Ne.symm hq) hc, ih hk]
  | case7 c cs hq hn hc ih =>
    obtain ⟨k, hk, rfl⟩ := Option.map_eq_some_iff.mp h
    simp [lineLength?_plain hq hn hc, ih hk]
  | _ => cases h

/-- The same for a tripled literal. -/
theorem blockLength?_take (h : blockLength? q cs = some n) (more : List Char) :
    blockLength? q (cs.take n ++ more) = some n := by
  fun_induction blockLength? q cs generalizing n with
  | case3 c cs ih =>
    obtain ⟨k, hk, rfl⟩ := Option.map_eq_some_iff.mp h
    simp [blockLength?_escaped, ih hk]
  | case6 cs hq =>
    cases h
    simp [blockLength?_close hq]
  | case8 c cs hcq hc hq ih =>
    obtain ⟨k, hk, rfl⟩ := Option.map_eq_some_iff.mp h
    simp [blockLength?_quotes hq hc hcq, ih hk]
  | case10 c cs hcq hc hq ih =>
    obtain ⟨k, hk, rfl⟩ := Option.map_eq_some_iff.mp h
    simp [blockLength?_quote hq hc hcq, ih hk]
  | case11 c cs hc hcq ih =>
    obtain ⟨k, hk, rfl⟩ := Option.map_eq_some_iff.mp h
    simp [blockLength?_plain hc hcq, ih hk]
  | _ => cases h

/-! ### Literals that close -/

variable {s x : List Char}

theorem startsDoubled_append (hs : 2 ≤ s.length) (y : List Char) :
    startsDoubled q (s ++ x) = startsDoubled q (s ++ y) := by
  cases s with
  | nil => cases hs
  | cons a s =>
    cases s with
    | nil => simp at hs
    | cons b s => rfl

/-- An empty literal is known by the character behind it, so one more than its own is needed. -/
theorem bodyLength?_append (h : bodyLength? q (s ++ x) = some n) (hn : n < s.length)
    (y : List Char) : bodyLength? q (s ++ y) = some n := by
  unfold bodyLength? at h ⊢
  split at h
  · next hdoubled =>
    obtain ⟨k, hk, rfl⟩ := Option.map_eq_some_iff.mp h
    have hlength : 2 ≤ s.length := by omega
    rw [startsDoubled_append hlength y] at hdoubled
    rw [List.drop_append_of_le_length hlength] at hk ⊢
    have htake := blockLength?_take hk ((s.drop 2).drop k ++ y)
    rw [List.take_append_of_le_length (by rw [List.length_drop]; omega), ← List.append_assoc,
      List.take_append_drop] at htake
    rw [if_pos hdoubled, htake]
    rfl
  · next hdoubled =>
    have hpos : n ≠ 0 := by
      rintro rfl
      have hnone := lineLength?_take h []
      cases hnone
    rw [startsDoubled_append (by omega) y] at hdoubled
    have htake := lineLength?_take h (s.drop n ++ y)
    rw [List.take_append_of_le_length hn.le, ← List.append_assoc, List.take_append_drop] at htake
    rw [if_neg hdoubled, htake]

theorem longest?_eq_some_some_iff :
    longest? cs = some (some n) ↔ ∃ letters q k, opening? cs = some (letters, q) ∧
      bodyLength? q (cs.drop (letters + 1)) = some k ∧ n = letters + 1 + k := by
  constructor
  · intro h
    unfold longest? at h
    split at h
    · cases h
    · next letters q hopening =>
      simp only at h
      split at h
      · cases h
      · obtain ⟨k, hk, rfl⟩ := Option.map_eq_some_iff.mp (Option.some.inj h)
        exact ⟨letters, q, k, hopening, hk, rfl⟩
  · rintro ⟨letters, q, k, hopening, hk, rfl⟩
    obtain ⟨-, -, -, -, -, -, hquote⟩ := exists_of_opening? hopening
    have hbarren : ¬ isBarren (cs.drop (letters + 1)) = true := by
      intro hbarren
      rw [bodyLength?_of_isBarren hquote hbarren] at hk
      cases hk
    simp [longest?, hopening, hbarren, hk]

/-- **A literal that closes in a text closes in every text that goes on otherwise.** -/
theorem longest?_append (h : longest? (s ++ x) = some (some n)) (hn : n < s.length)
    (y : List Char) : longest? (s ++ y) = some (some n) := by
  rw [longest?_eq_some_some_iff] at h ⊢
  obtain ⟨letters, q, k, hopening, hk, rfl⟩ := h
  have hdrop : ∀ z, (s ++ z).drop (letters + 1) = s.drop (letters + 1) ++ z := by
    intro z
    exact List.drop_append_of_le_length (by omega)
  rw [hdrop] at hk
  refine ⟨letters, q, k, ?_, ?_, rfl⟩
  · obtain ⟨marks, rest, hcs, rfl, hlength, hmarks, hquote⟩ := exists_of_opening? hopening
    have hs : s = marks ++ q :: s.drop (marks.length + 1) := by
      have htake := congrArg (List.take (marks.length + 1)) hcs
      rw [List.take_append_of_le_length (by omega), List.take_append] at htake
      nth_rewrite 1 [← List.take_append_drop (marks.length + 1) s]
      rw [htake]
      simp [List.take_of_length_le]
    rw [hs, List.append_assoc]
    exact opening?_append hlength hmarks hquote _
  · rw [hdrop]
    exact bodyLength?_append hk (by rw [List.length_drop]; omega) y

/-! ### Literals before a line break -/

/-- Whether a literal is opened before a line break does not depend on what is behind it. -/
theorem longest?_line_eq_none_iff (v x : List Char) :
    longest? (v ++ '\n' :: x) = none ↔ longest? v = none := by
  unfold longest?
  rw [opening?_line]
  split
  · simp
  · next letters q hopening =>
    obtain ⟨marks, rest, rfl, rfl, -, -, -⟩ := exists_of_opening? hopening
    have hbody : (marks ++ q :: rest ++ '\n' :: x).drop (marks.length + 1) =
        (marks ++ q :: rest).drop (marks.length + 1) ++ '\n' :: x :=
      List.drop_append_of_le_length (by simp)
    simp only [hbody, isBarren_line]
    split
    · simp
    · simp

/-- A literal that closes before a line break, or that is not open there, does not depend on what
is behind it. -/
theorem longest?_line {v x : List Char}
    (hend : ∀ n, longest? (v ++ '\n' :: x) = some (some n) → n ≤ v.length)
    (hopen : longest? (v ++ '\n' :: x) = some none → ¬ IsOpen (v ++ ['\n'])) (y : List Char) :
    longest? (v ++ '\n' :: y) = longest? (v ++ '\n' :: x) := by
  have hsplit : ∀ z : List Char, v ++ '\n' :: z = v ++ ['\n'] ++ z := by simp
  have hlength : (v ++ ['\n']).length = v.length + 1 := by simp
  cases hx : longest? (v ++ '\n' :: x) with
  | none =>
    rw [longest?_line_eq_none_iff] at hx ⊢
    exact hx
  | some close =>
    cases close with
    | some n =>
      have hn := hend n hx
      rw [hsplit] at hx ⊢
      exact longest?_append hx (by omega) y
    | none =>
      cases hy : longest? (v ++ '\n' :: y) with
      | none =>
        rw [longest?_line_eq_none_iff, ← longest?_line_eq_none_iff v x, hx] at hy
        cases hy
      | some close =>
        cases close with
        | none => rfl
        | some n =>
          -- It closes with `y` and not with `x`, so it closes behind the break: it is open there.
          have hopen := hopen hx
          rw [hsplit] at hx hy
          by_cases hn : n < (v ++ ['\n']).length
          · rw [longest?_append hy hn x] at hx
            cases hx
          · exact absurd ⟨y, n, hy, Nat.le_of_not_lt hn⟩ hopen

end Quoted

/-! ## Lexemes -/

namespace Lexeme

theorem operators_oneLine : operators.all (fun entry => !entry.1.contains '\n') = true := by
  decide +kernel

theorem isPrefixOf_line {w : List Char} (hw : '\n' ∉ w) (v x : List Char) :
    w.isPrefixOf (v ++ '\n' :: x) = w.isPrefixOf v := by
  induction w generalizing v with
  | nil => simp
  | cons a w ih =>
    rw [List.mem_cons, not_or] at hw
    cases v with
    | nil => simp [List.isPrefixOf_cons_cons, Ne.symm hw.1]
    | cons b v => simp [List.isPrefixOf_cons_cons, ih hw.2]

theorem operator?_line (v x : List Char) : operator? (v ++ '\n' :: x) = operator? v := by
  unfold operator?
  apply List.find?_congr
  intro entry hentry
  have hline := List.all_eq_true.mp operators_oneLine entry hentry
  exact isPrefixOf_line (by simpa using hline) v x

theorem breakLength_line (v x y : List Char) :
    breakLength (v ++ '\n' :: y) = breakLength (v ++ '\n' :: x) := by
  cases v with
  | nil => rfl
  | cons a v =>
    cases v with
    | nil =>
      by_cases ha : a = '\n'
      · subst ha
        rfl
      by_cases ha' : a = '\r'
      · subst ha'
        rfl
      simp [breakLength, ha, ha']
    | cons b v =>
      by_cases ha : a = '\n'
      · subst ha
        rfl
      by_cases ha' : a = '\r'
      · subst ha'
        by_cases hb : b = '\n'
        · subst hb
          rfl
        simp [breakLength, hb]
      simp [breakLength, ha, ha']

theorem measure_blank {c : Char} (hc : isGap c = true) (cs : List Char) :
    measure c cs = (.blank, (cs.takeWhile isGap).length) := by
  rw [measure, if_pos hc]

theorem measure_comment (cs : List Char) :
    measure '#' cs = (.comment, (cs.takeWhile (· != '\n')).length) := rfl

theorem measure_newline (cs : List Char) : measure '\n' cs = (.newline, 0) := rfl

theorem measure_join {cs cs' : List Char} (h : breakLength cs = breakLength cs') :
    measure '\\' cs = measure '\\' cs' := by
  simp [measure, isGap, h]

/-- Where a literal opens, the lexeme is the literal or broken. -/
theorem measure_of_longest? {c : Char} {cs : List Char} {close : Option Nat}
    (h : Quoted.longest? (c :: cs) = some close) :
    measure c cs = close.elim (.broken, 0) (fun n => (.string, n - 1)) := by
  have hopening : ∃ first, Quoted.opening? (c :: cs) = some first := by
    cases hfirst : Quoted.opening? (c :: cs) with
    | none => simp [Quoted.longest?, hfirst] at h
    | some first => exact ⟨first, rfl⟩
  have hbefore : isGap c = false ∧ c ≠ '#' ∧ c ≠ '\n' ∧ c ≠ '\\' := by
    obtain ⟨first, hfirst⟩ := hopening
    refine ⟨?_, ?_, ?_, ?_⟩
    · rw [← Bool.not_eq_true]
      intro hgap
      simp only [isGap, Bool.or_eq_true, beq_iff_eq] at hgap
      rcases hgap with ((rfl | rfl) | rfl) | rfl <;> cases hfirst
    all_goals
      rintro rfl
      cases hfirst
  obtain ⟨hgap, hcomment, hbreak, hjoin⟩ := hbefore
  simp only [measure, hgap, hcomment, hbreak, hjoin, h, if_false]
  cases close with
  | none => rfl
  | some n => rfl

/-- **A lexeme that ends before a line break does not depend on what is behind it**, unless it is a
literal that is open there. -/
theorem measure_line {c : Char} {v x : List Char}
    (hend : (measure c (v ++ '\n' :: x)).2 ≤ v.length)
    (hopen : (measure c (v ++ '\n' :: x)).1 = .broken → ¬ Quoted.IsOpen (c :: v ++ ['\n']))
    (y : List Char) : measure c (v ++ '\n' :: y) = measure c (v ++ '\n' :: x) := by
  have hrun : ∀ (p : Char → Bool) (z : List Char), p '\n' = false →
      (v ++ '\n' :: z).takeWhile p = v.takeWhile p := fun p z hp => takeWhile_append_stop hp v z
  by_cases hgap : isGap c = true
  · simp only [measure_blank hgap, hrun isGap _ rfl]
  by_cases hcomment : c = '#'
  · subst hcomment
    simp only [measure_comment, hrun (· != '\n') _ rfl]
  by_cases hbreak : c = '\n'
  · subst hbreak
    rfl
  by_cases hjoin : c = '\\'
  · subst hjoin
    exact measure_join (breakLength_line v x y)
  have hquoted : Quoted.longest? (c :: v ++ '\n' :: y) = Quoted.longest? (c :: v ++ '\n' :: x) := by
    apply Quoted.longest?_line
    · intro n hn
      rw [List.cons_append] at hn
      rw [measure_of_longest? hn, Option.elim_some] at hend
      rw [List.length_cons]
      omega
    · intro hbroken
      rw [List.cons_append] at hbroken
      exact hopen (by rw [measure_of_longest? hbroken]; rfl)
  have hnumber : ∀ z, Number.longest? (c :: (v ++ '\n' :: z)) = Number.longest? (c :: v) :=
    fun z => Number.longest?_line v z c
  have hoperator : ∀ z, operator? (c :: (v ++ '\n' :: z)) = operator? (c :: v) :=
    fun z => operator?_line (c :: v) z
  rw [List.cons_append, List.cons_append] at hquoted
  simp only [measure, if_neg hgap, if_neg hcomment, if_neg hbreak, if_neg hjoin, hquoted, hnumber,
    hoperator, hrun Text.isWordPart _ rfl]

end Lexeme

end FieldView
