import Mathlib.Data.List.Forall2
import Mathlib.Data.List.TakeWhile
import FieldView.Text.Margin

/-!
# Taking the margin off

The margin of a text is the longest run of blanks and tabs that its lines have in common
(`prefix_marginOf_iff`), lines of white space apart. Without it no such run is left, so taking the
margin off twice is the same as once; and what is put before all lines alike comes off again with
the margin (`marginOf_map_shiftLine`). Both follow from what happens to the lines of a text, and
these are the lines of the result, since no line break is taken off or put on.

Where lines end in a carriage return and a line break, the margin is the same with the carriage
return counted to the line and without (`marginOf_bareLines`).
-/

set_option autoImplicit false

namespace FieldView.Text

/-! ## Lines -/

theorem lines_eq_splitOn (cs : List Char) : lines cs = cs.splitOn '\n' := by
  induction cs with
  | nil => rfl
  | cons c cs ih =>
    rw [List.splitOn, List.splitOnP_cons_eq_if_modifyHead, ← List.splitOn, ← ih, lines]
    by_cases hc : c = '\n'
    · simp [hc]
    · simp only [hc, if_false, beq_iff_eq]
      cases hlines : lines cs with
      | nil =>
        rw [ih] at hlines
        exact absurd hlines (List.splitOn_ne_nil _ _)
      | cons l ls => rfl

theorem unlines_eq_intercalate (ls : List (List Char)) : unlines ls = ['\n'].intercalate ls := by
  fun_induction unlines ls with
  | case1 => rfl
  | case2 l => simp
  | case3 l m ls ih =>
    rw [List.intercalate_cons_cons, ih]
    simp

theorem lines_ne_nil (cs : List Char) : lines cs ≠ [] := by
  rw [lines_eq_splitOn]
  exact List.splitOn_ne_nil _ _

theorem unlines_lines (cs : List Char) : unlines (lines cs) = cs := by
  rw [lines_eq_splitOn, unlines_eq_intercalate, List.intercalate_splitOn]

theorem lines_unlines {ls : List (List Char)} (hls : ls ≠ []) (h : ∀ l ∈ ls, '\n' ∉ l) :
    lines (unlines ls) = ls := by
  rw [lines_eq_splitOn, unlines_eq_intercalate, List.splitOn_intercalate _ h hls]

theorem newline_notMem_of_mem_lines {cs l : List Char} (h : l ∈ lines cs) : '\n' ∉ l := by
  induction cs generalizing l with
  | nil => simp_all [lines]
  | cons c cs ih =>
    rw [lines] at h
    by_cases hc : c = '\n'
    · rw [if_pos hc] at h
      rcases List.mem_cons.mp h with rfl | h
      · simp
      · exact ih h
    · rw [if_neg hc] at h
      cases hlines : lines cs with
      | nil => exact absurd hlines (lines_ne_nil cs)
      | cons m ls =>
        simp only [hlines] at h
        rcases List.mem_cons.mp h with rfl | h
        · have hm : '\n' ∉ m := ih (by simp [hlines])
          simp [hm, Ne.symm hc]
        · exact ih (by simp [hlines, h])

/-! ## Indentation -/

/-- A string of blanks and tabs. -/
def IsIndent (s : List Char) : Prop := ∀ c ∈ s, c = ' ' ∨ c = '\t'

variable {s p m l : List Char} {ls : List (List Char)}

theorem IsIndent.notMem_newline (h : IsIndent s) : '\n' ∉ s := by
  intro hmem
  rcases h _ hmem with hc | hc <;> cases hc

theorem IsIndent.isBlank (h : IsIndent s) : isBlank s = true := by
  rw [Text.isBlank, List.all_eq_true]
  intro c hc
  rcases h c hc with rfl | rfl <;> rfl

theorem IsIndent.isBlank_append (h : IsIndent s) : Text.isBlank (s ++ l) = Text.isBlank l := by
  rw [Text.isBlank, List.all_append]
  change (Text.isBlank s && Text.isBlank l) = _
  rw [h.isBlank, Bool.true_and]

theorem isBlank_nil : isBlank [] = true := rfl

theorem isIndent_indentOf (l : List Char) : IsIndent (indentOf l) := by
  intro c hc
  have htest := List.mem_takeWhile_imp hc
  simpa using htest

theorem IsIndent.indentOf_append (h : IsIndent s) : indentOf (s ++ l) = s ++ indentOf l := by
  apply List.takeWhile_append_of_pos
  intro c hc
  rcases h c hc with rfl | rfl <;> rfl

/-- The blanks and tabs before a line are all within its indentation. -/
theorem IsIndent.prefix_indentOf_iff (h : IsIndent s) : s <+: indentOf l ↔ s <+: l := by
  constructor
  · intro hs
    exact hs.trans (List.takeWhile_prefix _)
  · rintro ⟨rest, rfl⟩
    rw [h.indentOf_append]
    exact List.prefix_append s _

/-! ## What texts begin with in common -/

theorem prefix_commonLead_iff {a b : List Char} : s <+: commonLead a b ↔ s <+: a ∧ s <+: b := by
  fun_induction commonLead a b generalizing s with
  | case1 a as bs ih =>
    cases s with
    | nil => simp
    | cons c s =>
      simp only [List.cons_prefix_cons, ih]
      tauto
  | case2 a as b bs hne =>
    cases s with
    | nil => simp
    | cons c s =>
      simp only [List.cons_prefix_cons, List.prefix_nil]
      constructor
      · intro h
        cases h
      · rintro ⟨⟨rfl, -⟩, rfl, -⟩
        exact absurd rfl hne
  | case3 a b hnot =>
    cases s with
    | nil => simp
    | cons c s =>
      constructor
      · intro h
        cases List.prefix_nil.mp h
      · rintro ⟨⟨as, rfl⟩, bs, rfl⟩
        exact (hnot _ _ _ _ rfl rfl).elim

theorem commonLead_append (m a b : List Char) :
    commonLead (m ++ a) (m ++ b) = m ++ commonLead a b := by
  induction m with
  | nil => rfl
  | cons c m ih => simp [commonLead, ih]

theorem prefix_commonLeadAll_iff (hls : ls ≠ []) :
    s <+: commonLeadAll ls ↔ ∀ l ∈ ls, s <+: l := by
  fun_induction commonLeadAll ls with
  | case1 => exact absurd rfl hls
  | case2 l => simp
  | case3 l m ls ih =>
    rw [prefix_commonLead_iff, ih (List.cons_ne_nil m ls)]
    simp

theorem commonLeadAll_map_append (m : List Char) (hls : ls ≠ []) :
    commonLeadAll (ls.map (m ++ ·)) = m ++ commonLeadAll ls := by
  fun_induction commonLeadAll ls with
  | case1 => exact absurd rfl hls
  | case2 l => rfl
  | case3 l l' ls ih =>
    rw [← commonLead_append, ← ih (List.cons_ne_nil l' ls)]
    rfl

/-! ## The margin -/

/-- The lines that are not white space. -/
def inkedLines (ls : List (List Char)) : List (List Char) := ls.filter (!isBlank ·)

theorem marginOf_eq (ls : List (List Char)) :
    marginOf ls = commonLeadAll ((inkedLines ls).map indentOf) := rfl

theorem mem_inkedLines : l ∈ inkedLines ls ↔ l ∈ ls ∧ isBlank l = false := by
  simp [inkedLines]

/-- **The margin is what blanks and tabs the lines have in common.** -/
theorem prefix_marginOf_iff (hs : IsIndent s) (hls : inkedLines ls ≠ []) :
    s <+: marginOf ls ↔ ∀ l ∈ inkedLines ls, s <+: l := by
  rw [marginOf_eq, prefix_commonLeadAll_iff (by simpa using hls), List.forall_mem_map]
  simp only [hs.prefix_indentOf_iff]

theorem marginOf_prefix_indentOf (hl : l ∈ inkedLines ls) : marginOf ls <+: indentOf l := by
  have hne : (inkedLines ls).map indentOf ≠ [] := by
    simpa using List.ne_nil_of_mem hl
  exact (prefix_commonLeadAll_iff hne).mp (List.prefix_refl _) _ (List.mem_map_of_mem hl)

theorem marginOf_of_inkedLines_eq_nil (hls : inkedLines ls = []) : marginOf ls = [] := by
  rw [marginOf_eq, hls]
  rfl

theorem isIndent_marginOf (ls : List (List Char)) : IsIndent (marginOf ls) := by
  cases hls : inkedLines ls with
  | nil =>
    rw [marginOf_of_inkedLines_eq_nil hls]
    simp [IsIndent]
  | cons l rest =>
    have hl : l ∈ inkedLines ls := by simp [hls]
    intro c hc
    exact isIndent_indentOf l c ((marginOf_prefix_indentOf hl).mem hc)

/-- A line that is put to the right, unless it is white space. -/
def shiftLine (p line : List Char) : List Char := if isBlank line then line else p ++ line

theorem isBlank_shiftLine (hp : IsIndent p) : isBlank (shiftLine p l) = isBlank l := by
  unfold shiftLine
  split
  · rfl
  · rw [hp.isBlank_append]

theorem inkedLines_map_shiftLine (hp : IsIndent p) :
    inkedLines (ls.map (shiftLine p)) = (inkedLines ls).map (p ++ ·) := by
  unfold inkedLines
  have htest : ((!isBlank ·) ∘ shiftLine p) = (!isBlank ·) := by
    funext l
    simp [isBlank_shiftLine hp]
  rw [List.filter_map, htest]
  apply List.map_congr_left
  intro l hl
  simp [shiftLine, (mem_inkedLines.mp hl).2]

/-- **What is put before all lines is put before the margin.** -/
theorem marginOf_map_shiftLine (hp : IsIndent p) (hls : inkedLines ls ≠ []) :
    marginOf (ls.map (shiftLine p)) = p ++ marginOf ls := by
  rw [marginOf_eq, inkedLines_map_shiftLine hp, List.map_map, marginOf_eq,
    ← commonLeadAll_map_append p (by simpa using hls), List.map_map]
  congr 1
  apply List.map_congr_left
  intro l _
  exact hp.indentOf_append

/-! ### Carriage returns -/

/-- A line without the carriage return at its end. -/
def dropReturn (line : List Char) : List Char :=
  if line.getLast? = some '\r' then line.dropLast else line

/-- The lines of a text, where a carriage return before a line break belongs to the break. -/
def bareLines (cs : List Char) : List (List Char) :=
  (lines cs).dropLast.map dropReturn ++ (lines cs).getLast?.toList

theorem dropReturn_cases (line : List Char) :
    dropReturn line = line ∨ line = dropReturn line ++ ['\r'] := by
  unfold dropReturn
  split
  · next hlast => exact .inr (List.dropLast_append_getLast? _ hlast).symm
  · exact .inl rfl

theorem isBlank_dropReturn (line : List Char) : isBlank (dropReturn line) = isBlank line := by
  rcases dropReturn_cases line with h | h
  · rw [h]
  · nth_rewrite 2 [h]
    simp [isBlank, isSpace]

theorem indentOf_append_return (line : List Char) :
    indentOf (line ++ ['\r']) = indentOf line := by
  induction line with
  | nil => rfl
  | cons c line ih =>
    unfold indentOf at ih ⊢
    simp only [List.cons_append, List.takeWhile_cons, ih]

theorem indentOf_dropReturn (line : List Char) : indentOf (dropReturn line) = indentOf line := by
  rcases dropReturn_cases line with h | h
  · rw [h]
  · nth_rewrite 2 [h]
    rw [indentOf_append_return]

theorem indents_map_dropReturn (ls : List (List Char)) :
    (inkedLines (ls.map dropReturn)).map indentOf = (inkedLines ls).map indentOf := by
  have htest : ((!isBlank ·) ∘ dropReturn) = (!isBlank ·) := by
    funext l
    simp [isBlank_dropReturn]
  unfold inkedLines
  rw [List.filter_map, htest, List.map_map]
  apply List.map_congr_left
  intro l _
  exact indentOf_dropReturn l

/-- **It does not matter to the margin whether a carriage return belongs to its line.** -/
theorem marginOf_bareLines (cs : List Char) : marginOf (bareLines cs) = marginOf (lines cs) := by
  have hlines : (lines cs).dropLast ++ (lines cs).getLast?.toList = lines cs := by
    rw [List.getLast?_eq_getLast_of_ne_nil (lines_ne_nil cs)]
    exact List.dropLast_append_getLast (lines_ne_nil cs)
  have hsplit : ∀ ls ls' : List (List Char), (inkedLines (ls ++ ls')).map indentOf =
      (inkedLines ls).map indentOf ++ (inkedLines ls').map indentOf := by
    intro ls ls'
    simp [inkedLines]
  rw [marginOf_eq, bareLines, hsplit, indents_map_dropReturn, ← hsplit, hlines, marginOf_eq]

/-! ## The text without its margin -/

theorem dedentLine_eq (hl : l ∈ ls) :
    if isBlank l then dedentLine (marginOf ls) l = []
    else l = marginOf ls ++ dedentLine (marginOf ls) l := by
  unfold dedentLine
  split
  · rfl
  · next hblank =>
    have hmem : l ∈ inkedLines ls := mem_inkedLines.mpr ⟨hl, by simpa using hblank⟩
    obtain ⟨rest, hrest⟩ := (marginOf_prefix_indentOf hmem).trans (List.takeWhile_prefix _)
    nth_rewrite 2 [← hrest]
    rw [List.drop_left, hrest]

theorem dedentLine_shiftLine (hp : IsIndent p) :
    dedentLine (p ++ m) (shiftLine p l) = dedentLine m l := by
  unfold dedentLine
  rw [isBlank_shiftLine hp]
  split
  · rfl
  · next hblank =>
    rw [shiftLine, if_neg hblank, List.length_append, List.drop_append]
    simp

theorem newline_notMem_dedentLine (hl : '\n' ∉ l) : '\n' ∉ dedentLine m l := by
  unfold dedentLine
  split
  · simp
  · intro hmem
    exact hl (List.mem_of_mem_drop hmem)

/-- The lines of the result are what the lines of the text become. -/
theorem lines_dedentChars (cs : List Char) :
    lines (dedentChars cs) = (lines cs).map (dedentLine (marginOf (lines cs))) := by
  apply lines_unlines
  · simpa using lines_ne_nil cs
  · simp only [List.forall_mem_map]
    intro l hl
    exact newline_notMem_dedentLine (newline_notMem_of_mem_lines hl)

theorem isBlank_dedentLine (hl : l ∈ ls) :
    isBlank (dedentLine (marginOf ls) l) = isBlank l := by
  have hline := dedentLine_eq hl
  split at hline
  · next hblank => rw [hline, hblank, isBlank_nil]
  · nth_rewrite 2 [hline]
    rw [(isIndent_marginOf ls).isBlank_append]

/-- Where the lines are put back to the right, they are as they were, but for white space. -/
theorem shiftLine_dedentLine (hl : l ∈ ls) :
    shiftLine (marginOf ls) (dedentLine (marginOf ls) l) = if isBlank l then [] else l := by
  have hline := dedentLine_eq hl
  rw [shiftLine, isBlank_dedentLine hl]
  split at hline
  · next hblank => rw [if_pos hblank, if_pos hblank, hline]
  · next hblank => rw [if_neg hblank, if_neg hblank, ← hline]

/-- Which lines count does not depend on what white space there is in the others. -/
theorem inkedLines_map_clear (ls : List (List Char)) :
    inkedLines (ls.map fun l => if isBlank l then [] else l) = inkedLines ls := by
  induction ls with
  | nil => rfl
  | cons l ls ih =>
    unfold inkedLines at ih ⊢
    rw [List.map_cons, List.filter_cons, List.filter_cons, ih]
    by_cases hblank : isBlank l = true
    · simp [hblank, isBlank_nil]
    · simp [hblank]

/-- **No margin is left.** -/
theorem marginOf_map_dedentLine (ls : List (List Char)) :
    marginOf (ls.map (dedentLine (marginOf ls))) = [] := by
  by_cases hinked : inkedLines (ls.map (dedentLine (marginOf ls))) = []
  · exact marginOf_of_inkedLines_eq_nil hinked
  · -- Put back to the right, the lines have the old margin; so the new one adds nothing to it.
    have hback := marginOf_map_shiftLine (isIndent_marginOf ls) hinked
    have hlines : (ls.map (dedentLine (marginOf ls))).map (shiftLine (marginOf ls)) =
        ls.map fun l => if isBlank l then [] else l := by
      rw [List.map_map]
      apply List.map_congr_left
      intro l hl
      exact shiftLine_dedentLine hl
    rw [hlines, marginOf_eq, inkedLines_map_clear, ← marginOf_eq, eq_comm,
      List.append_right_eq_self] at hback
    exact hback

/-- A text without a margin and without white space on empty lines stays as it is. -/
theorem dedentChars_dedentChars (cs : List Char) :
    dedentChars (dedentChars cs) = dedentChars cs := by
  have hkept : ∀ l ∈ lines (dedentChars cs), dedentLine [] l = l := by
    rw [lines_dedentChars, List.forall_mem_map]
    intro l hl
    have hline := dedentLine_eq hl
    rw [dedentLine, isBlank_dedentLine hl]
    split at hline
    · next hblank => rw [if_pos hblank, hline]
    · next hblank => rw [if_neg hblank, List.length_nil, List.drop_zero]
  have hmargin : marginOf (lines (dedentChars cs)) = [] := by
    rw [lines_dedentChars, marginOf_map_dedentLine]
  calc dedentChars (dedentChars cs)
      = unlines ((lines (dedentChars cs)).map
          (dedentLine (marginOf (lines (dedentChars cs))))) := rfl
    _ = unlines ((lines (dedentChars cs)).map id) := by
        rw [hmargin, List.map_congr_left hkept]
        rfl
    _ = dedentChars cs := by rw [List.map_id, unlines_lines]

/-- A text of which every line is put to the right, white space apart. -/
def shiftChars (p cs : List Char) : List Char := unlines ((lines cs).map (shiftLine p))

theorem lines_shiftChars (hp : IsIndent p) (cs : List Char) :
    lines (shiftChars p cs) = (lines cs).map (shiftLine p) := by
  apply lines_unlines
  · simpa using lines_ne_nil cs
  · simp only [List.forall_mem_map]
    intro l hl
    have hl' := newline_notMem_of_mem_lines hl
    unfold shiftLine
    split
    · exact hl'
    · simp [hp.notMem_newline, hl']

theorem dedentChars_shiftChars (hp : IsIndent p) (cs : List Char) :
    dedentChars (shiftChars p cs) = dedentChars cs := by
  unfold dedentChars
  simp only [lines_shiftChars hp, List.map_map]
  congr 1
  apply List.map_congr_left
  intro l hl
  by_cases hinked : inkedLines (lines cs) = []
  · -- Without a line that counts there is no margin, and every line becomes empty.
    have hblank : isBlank l = true := by
      by_contra hno
      have hmem := mem_inkedLines.mpr ⟨hl, by simpa using hno⟩
      rw [hinked] at hmem
      cases hmem
    simp [dedentLine, isBlank_shiftLine hp, hblank]
  · rw [marginOf_map_shiftLine hp hinked]
    exact dedentLine_shiftLine hp

/-- The lines `outs` are the lines `ls` without the margin `m`, and have none themselves. -/
structure TakesOff (m : List Char) (ls outs : List (List Char)) : Prop where
  indent : IsIndent m
  lines : List.Forall₂ (fun l out => if isBlank l then out = [] else l = m ++ out) ls outs
  largest : ∀ s, IsIndent s → s ≠ [] → (∃ out ∈ outs, isBlank out = false) →
    ∃ out ∈ outs, isBlank out = false ∧ ¬ s <+: out

theorem takesOff_dedentChars (cs : List Char) :
    TakesOff (marginOf (lines cs)) (lines cs) (lines (dedentChars cs)) where
  indent := isIndent_marginOf _
  lines := by
    rw [lines_dedentChars, List.forall₂_map_right_iff, List.forall₂_same]
    intro l hl
    exact dedentLine_eq hl
  largest s hs hne := by
    rintro ⟨out, hout, hblank⟩
    have hmem : out ∈ inkedLines (lines (dedentChars cs)) := mem_inkedLines.mpr ⟨hout, hblank⟩
    by_contra hall
    push Not at hall
    -- A string before all lines would be in the margin, and that is empty.
    have hmargin : s <+: marginOf (Text.lines (dedentChars cs)) := by
      rw [prefix_marginOf_iff hs (List.ne_nil_of_mem hmem)]
      intro l hl
      obtain ⟨hl, hinked⟩ := mem_inkedLines.mp hl
      exact hall l hl hinked
    rw [lines_dedentChars, marginOf_map_dedentLine, List.prefix_nil] at hmargin
    exact hne hmargin

/-- A text with the same string before all lines that are not white space. -/
def shift (p : List Char) (text : String) : String := String.ofList (shiftChars p text.toList)

/-- **`dedent` takes the largest common margin off the lines of a text.** -/
theorem dedent_takesOff_margin (text : String) :
    TakesOff (marginOf (bareLines text.toList)) (lines text.toList) (lines (dedent text).toList) ∧
      dedent (dedent text) = dedent text ∧
      ∀ p, IsIndent p → dedent (shift p text) = dedent text := by
  refine ⟨?_, ?_, ?_⟩
  · rw [marginOf_bareLines, dedent, String.toList_ofList]
    exact takesOff_dedentChars text.toList
  · simp only [dedent, String.toList_ofList, dedentChars_dedentChars]
  · intro p hp
    simp only [dedent, shift, String.toList_ofList, dedentChars_shiftChars hp]

/-- Two lines that begin with a tab and a blank, and white space of another kind between them. -/
def tabbedText : String := "\t x\r\n\u00a0 \r\n\t  y"

theorem dedent_takesOff_margin_tabbed :
    marginOf (bareLines tabbedText.toList) = ['\t', ' '] ∧ dedent tabbedText = "x\r\n\n y" ∧
      IsIndent [' ', '\t'] ∧ dedent (shift [' ', '\t'] tabbedText) = dedent tabbedText := by
  have hindent : IsIndent [' ', '\t'] := by simp [IsIndent]
  exact ⟨by decide +kernel, by decide +kernel, hindent,
    (dedent_takesOff_margin tabbedText).2.2 _ hindent⟩

end FieldView.Text
