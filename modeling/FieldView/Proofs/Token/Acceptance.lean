import FieldView.Proofs.Token.Indentation

/-!
# Texts that have tokens

A text of valid lexemes has tokens exactly if its brackets are nested, no logical line has a tab
before its first token, and the widths of its logical lines are steady (`tokenize_ok_iff`).

Logical lines are found in the lexemes alone, without the layout: a token begins one if no token
stands before it, or if the text has broken outside of brackets since the last one (`beginsLine`).
`Layout.HasRead` ties the layout to the lexemes that it has read. A lexeme keeps it
(`HasRead.step`), and the layout goes on as long as the lexemes allow it (`HasRead.progress`).
-/

set_option autoImplicit false

namespace FieldView

/-! ## Brackets -/

/-- Whether the token opens or closes a bracket. -/
def Kind.isBracket (k : Kind) : Bool := k.isOpening || k.isClosing

theorem nestAll_filter_isBracket (bs : List Bracket) (ks : List Kind) :
    nestAll bs (ks.filter Kind.isBracket) = nestAll bs ks := by
  induction ks generalizing bs with
  | nil => rfl
  | cons k ks ih =>
    by_cases hk : k.isBracket = true
    · rw [List.filter_cons_of_pos hk, nestAll, nestAll]
      simp only [ih]
    · have hplain : k.isOpening = false ∧ k.isClosing = false := by
        simpa [Kind.isBracket] using hk
      rw [List.filter_cons_of_neg hk, nestAll, nest?_of_plain hplain.1 hplain.2, ih]
      rfl

/-- The brackets alone decide whether tokens are nested. -/
theorem nested_filter_isBracket_iff {ks : List Kind} :
    Nested (ks.filter Kind.isBracket) ↔ nestAll [] ks = some [] := by
  rw [← nestAll_filter_isBracket]
  exact ⟨fun h => h.nestAll_eq [], nested_of_nestAll⟩

/-- The open brackets are those that were opened and not closed. -/
theorem length_of_nestAll {bs bs' : List Bracket} {ks : List Kind} (h : nestAll bs ks = some bs') :
    bs.length + ks.countP Kind.isOpening = bs'.length + ks.countP Kind.isClosing := by
  induction ks generalizing bs with
  | nil =>
    cases h
    rfl
  | cons k ks ih =>
    obtain ⟨mid, hk, hks⟩ := Option.bind_eq_some_iff.mp h
    have hrest := ih hks
    rw [List.countP_cons, List.countP_cons]
    cases k with
    | opening b =>
      cases hk
      simp only [List.length_cons, Kind.isOpening, Kind.isClosing, if_true] at hrest ⊢
      simp
      omega
    | closing b =>
      obtain rfl := nest?_closing_eq_some.mp hk
      simp only [List.length_cons, Kind.isOpening, Kind.isClosing] at hrest ⊢
      simp
      omega
    | _ =>
      cases hk
      simpa [Kind.isOpening, Kind.isClosing] using hrest

/-! ## Physical lines -/

/-- What a text has on its last physical line. -/
def lastLine (cs : List Char) : List Char := (cs.reverse.takeWhile (· != '\n')).reverse

theorem lastLine_append_of_notMem (cs : List Char) {w : List Char} (h : '\n' ∉ w) :
    lastLine (cs ++ w) = lastLine cs ++ w := by
  have hw : ∀ c ∈ w.reverse, (c != '\n') = true := by
    intro c hc
    rw [bne_iff_ne]
    rintro rfl
    exact h (List.mem_reverse.mp hc)
  unfold lastLine
  rw [List.reverse_append, List.takeWhile_append_of_pos hw, List.reverse_append,
    List.reverse_reverse]

theorem lastLine_append_newline (cs : List Char) {w : List Char} (h : w.getLast? = some '\n') :
    lastLine (cs ++ w) = [] := by
  obtain ⟨front, rfl⟩ := List.getLast?_eq_some_iff.mp h
  simp [lastLine]

namespace Lexeme

theorem Shape.newline_notMem_gap {w rest : List Char} (h : Shape .gap w rest) : '\n' ∉ w := by
  cases h with
  | blank _ hgaps =>
    intro hmem
    cases hgaps _ hmem
  | comment hbody _ => simpa using hbody

/-! ## Logical lines -/

/-- Whether a lexeme is a token or stands between tokens, and is not faulty. -/
def isValid (l : Lexeme) : Bool :=
  match l.role with
  | .badInteger => false
  | .broken => false
  | .stray => false
  | _ => true

/-- The token that a lexeme becomes. -/
def token? (l : Lexeme) : Option Kind :=
  match l.role with
  | .token k => some k
  | _ => none

/-- The tokens of some lexemes, without those of the layout. -/
def kinds (ls : List Lexeme) : List Kind := ls.filterMap token?

/-- The brackets among the tokens. -/
def brackets (ls : List Lexeme) : List Kind := (kinds ls).filter Kind.isBracket

/-- As many brackets are closed as were opened. -/
def allClosed (ls : List Lexeme) : Bool :=
  (kinds ls).countP Kind.isOpening == (kinds ls).countP Kind.isClosing

/-- Whether a token after these lexemes begins a logical line: it is the first of all, or the text
has broken outside of brackets since the last one. -/
def beginsLine (ls : List Lexeme) : Bool :=
  (kinds ls).isEmpty ||
    (allClosed ls && (ls.reverse.takeWhile (·.token?.isNone)).any (·.role == .lineBreak))

/-- What the physical line of each logical line's first token has before that token. -/
def marginsFrom (before : List Lexeme) : List Lexeme → List (List Char)
  | [] => []
  | l :: ls =>
    if l.token?.isSome && beginsLine before then
      lastLine (before.flatMap text) :: marginsFrom (before ++ [l]) ls
    else marginsFrom (before ++ [l]) ls

/-- The margins of the logical lines, in order. -/
def margins (ls : List Lexeme) : List (List Char) := marginsFrom [] ls

/-- The widths of the margins in bytes, after that of an empty one. -/
def widths (ls : List Lexeme) : List Nat := 0 :: (margins ls).map byteLength

section Reading

variable {ls : List Lexeme} {l : Lexeme} {k : Kind}

theorem token?_eq_some (h : l.role = .token k) : l.token? = some k := by
  rw [token?, h]

theorem kinds_snoc (ls : List Lexeme) (l : Lexeme) :
    kinds (ls ++ [l]) = kinds ls ++ l.token?.toList := by
  rw [kinds, List.filterMap_append, List.filterMap_cons, List.filterMap_nil]
  cases l.token? with
  | none => rfl
  | some k => rfl

theorem beginsLine_snoc_token (h : l.token? = some k) : beginsLine (ls ++ [l]) = false := by
  simp [beginsLine, kinds_snoc, h]

theorem beginsLine_snoc_between (h : l.token? = none) :
    beginsLine (ls ++ [l]) = (beginsLine ls || (allClosed ls && l.role == .lineBreak)) := by
  have hkinds : kinds (ls ++ [l]) = kinds ls := by simp [kinds_snoc, h]
  simp only [beginsLine, allClosed, hkinds, List.reverse_append, List.reverse_singleton,
    List.singleton_append, List.takeWhile_cons, h, Option.isNone_none, if_true, List.any_cons]
  rw [Bool.and_or_distrib_left, Bool.or_assoc, Bool.or_comm (_ && _)]

theorem marginsFrom_append (before ls ls' : List Lexeme) :
    marginsFrom before (ls ++ ls') = marginsFrom before ls ++ marginsFrom (before ++ ls) ls' := by
  induction ls generalizing before with
  | nil => simp [marginsFrom]
  | cons l ls ih =>
    have hbefore : before ++ l :: ls = before ++ [l] ++ ls := by simp
    rw [List.cons_append, marginsFrom, marginsFrom, ih, hbefore]
    split
    · rfl
    · rfl

theorem margins_snoc (ls : List Lexeme) (l : Lexeme) :
    margins (ls ++ [l]) = margins ls ++
      if l.token?.isSome && beginsLine ls then [lastLine (ls.flatMap text)] else [] := by
  rw [margins, marginsFrom_append, List.nil_append, marginsFrom, marginsFrom]
  rfl

end Reading

/-- What the lexemes so far must satisfy for the layout to go on. -/
structure Accepts (ls : List Lexeme) : Prop where
  nests : ∃ bs, nestAll [] (kinds ls) = some bs
  untabbed : ∀ margin ∈ margins ls, '\t' ∉ margin
  steady : Layout.Steady (widths ls)

theorem Accepts.of_append {ls ls' : List Lexeme} (h : Accepts (ls ++ ls')) : Accepts ls := by
  have hmargins : margins (ls ++ ls') = margins ls ++ marginsFrom ls ls' :=
    marginsFrom_append [] ls ls'
  constructor
  · obtain ⟨bs, hbs⟩ := h.nests
    rw [kinds, List.filterMap_append, nestAll_append] at hbs
    obtain ⟨mid, hmid, -⟩ := Option.bind_eq_some_iff.mp hbs
    exact ⟨mid, hmid⟩
  · intro margin hmem
    apply h.untabbed
    rw [hmargins]
    exact List.mem_append_left _ hmem
  · have hsteady := h.steady
    rw [widths, hmargins, List.map_append, ← List.cons_append] at hsteady
    exact hsteady.of_append

end Lexeme

/-! ## The layout and what it has read -/

namespace Layout

open Lexeme

/-! ### Tokens -/

/-- The blocks that are open behind the next token, where it may come. -/
def Enters (st : Layout) (blocks : List Nat) : Prop :=
  if st.fresh then '\t' ∉ st.margin ∧ settle? st.blocks (byteLength st.margin) = some blocks
  else blocks = st.blocks

theorem exists_nestBrackets {brackets : List (Bracket × Span)} {bs : List Bracket} (t : Token)
    (h : nest? (brackets.map (·.1)) t.kind = some bs) :
    ∃ brackets', nestBrackets brackets t = .ok brackets' := by
  unfold nestBrackets
  cases hk : t.kind with
  | closing b =>
    rw [hk, nest?_closing_eq_some] at h
    cases brackets with
    | nil => cases h
    | cons entry entries =>
      obtain ⟨hb, -⟩ := List.cons.inj h
      simp [hb]
  | _ => exact ⟨_, rfl⟩

/-- A token goes through where its line may begin and its bracket fits. -/
theorem step_token_eq_ok_iff {st st' : Layout} {l : Lexeme} {k : Kind} (hrole : l.role = .token k) :
    (∃ out, st.step l = .ok (out, st')) ↔
      ∃ blocks brackets, Enters st blocks ∧
        nestBrackets st.brackets
          { kind := k, span := { offset := st.offset, length := byteLength l.text } } =
            .ok brackets ∧
        st' = { offset := st.offset + byteLength l.text, margin := [], fresh := false, blocks,
                brackets } := by
  unfold step Enters
  simp only [hrole]
  by_cases hfresh : st.fresh = true
  · simp only [hfresh, if_true]
    constructor
    · rintro ⟨out, h⟩
      obtain ⟨⟨lead, blocks⟩, hlead, h⟩ := bind_eq_ok.mp h
      obtain ⟨brackets, hnest, h⟩ := bind_eq_ok.mp h
      cases h
      exact ⟨blocks, brackets, indentLine_eq_ok_iff.mp ⟨lead, hlead⟩, hnest, rfl⟩
    · rintro ⟨blocks, brackets, hblocks, hnest, rfl⟩
      obtain ⟨lead, hlead⟩ := indentLine_eq_ok_iff.mpr hblocks
      exact ⟨_, bind_eq_ok.mpr ⟨(lead, blocks), hlead, bind_eq_ok.mpr ⟨brackets, hnest, rfl⟩⟩⟩
  · simp only [hfresh]
    constructor
    · rintro ⟨out, h⟩
      obtain ⟨⟨lead, blocks⟩, hlead, h⟩ := bind_eq_ok.mp h
      cases hlead
      obtain ⟨brackets, hnest, h⟩ := bind_eq_ok.mp h
      cases h
      exact ⟨st.blocks, brackets, rfl, hnest, rfl⟩
    · rintro ⟨blocks, brackets, rfl, hnest, rfl⟩
      exact ⟨_, bind_eq_ok.mpr ⟨([], st.blocks), rfl, bind_eq_ok.mpr ⟨brackets, hnest, rfl⟩⟩⟩

/-! ### All lexemes -/

/-- The layout after these lexemes. -/
structure HasRead (st : Layout) (ls : List Lexeme) : Prop where
  fresh_eq : st.fresh = beginsLine ls
  margin_eq : st.fresh = true → st.margin = lastLine (ls.flatMap text)
  opened_eq : nestAll [] (kinds ls) = some st.opened
  untabbed : ∀ margin ∈ margins ls, '\t' ∉ margin
  steady : Steady (widths ls)
  tracks : Tracks st.blocks (widths ls)

theorem hasRead_start : HasRead {} [] where
  fresh_eq := rfl
  margin_eq _ := rfl
  opened_eq := rfl
  untabbed := nofun
  steady := by decide
  tracks := .start

namespace HasRead

variable {st st' : Layout} {ls : List Lexeme} {l : Lexeme} {k : Kind} {rest : List Char}
  {out : List Token}

theorem accepts (h : HasRead st ls) : Accepts ls := ⟨⟨_, h.opened_eq⟩, h.untabbed, h.steady⟩

theorem isEmpty_brackets (h : HasRead st ls) : st.brackets.isEmpty = allClosed ls := by
  have hlength := length_of_nestAll h.opened_eq
  rw [List.length_nil, opened, List.length_map] at hlength
  rw [allClosed, Bool.eq_iff_iff, List.isEmpty_iff_length_eq_zero, beq_iff_eq]
  omega

/-- Lexemes between tokens change nothing about the lines and the brackets so far. -/
theorem between (h : HasRead st ls) (hl : l.token? = none) (hbrackets : st'.brackets = st.brackets)
    (hblocks : st'.blocks = st.blocks) (hfresh : st'.fresh = beginsLine (ls ++ [l]))
    (hmargin : st'.fresh = true → st'.margin = lastLine (ls.flatMap text ++ l.text)) :
    HasRead st' (ls ++ [l]) := by
  have hkinds : kinds (ls ++ [l]) = kinds ls := by simp [kinds_snoc, hl]
  have hmargins : margins (ls ++ [l]) = margins ls := by simp [margins_snoc, hl]
  have hwidths : widths (ls ++ [l]) = widths ls := by rw [widths, widths, hmargins]
  constructor
  · exact hfresh
  · simpa using hmargin
  · rw [hkinds, h.opened_eq, opened, opened, hbrackets]
  · rw [hmargins]
    exact h.untabbed
  · rw [hwidths]
    exact h.steady
  · rw [hwidths, hblocks]
    exact h.tracks

/-- A token has a margin of its own if it begins a line. -/
theorem margins_token (h : HasRead st ls) (hl : l.token? = some k) :
    margins (ls ++ [l]) = if st.fresh then margins ls ++ [st.margin] else margins ls := by
  rw [margins_snoc, hl, ← h.fresh_eq]
  cases hfresh : st.fresh with
  | false => simp
  | true => simp [h.margin_eq hfresh]

theorem widths_token (h : HasRead st ls) (hl : l.token? = some k) :
    widths (ls ++ [l]) = if st.fresh then widths ls ++ [byteLength st.margin] else widths ls := by
  rw [widths, h.margins_token hl]
  cases st.fresh with
  | false => rfl
  | true => simp [widths]

/-- Where the layout lets a token in, the lines stay untabbed and steady, and the stack on track. -/
theorem enters (h : HasRead st ls) (hl : l.token? = some k) {blocks : List Nat}
    (hblocks : Enters st blocks) :
    (∀ margin ∈ margins (ls ++ [l]), '\t' ∉ margin) ∧ Steady (widths (ls ++ [l])) ∧
      Tracks blocks (widths (ls ++ [l])) := by
  rw [h.margins_token hl, h.widths_token hl]
  unfold Enters at hblocks
  split at hblocks
  · next hfresh =>
    obtain ⟨htab, hsettle⟩ := hblocks
    rw [if_pos hfresh, if_pos hfresh, h.tracks.steady_snoc_iff h.steady]
    refine ⟨?_, ⟨blocks, hsettle⟩, h.tracks.settle hsettle⟩
    intro margin hmem
    rcases List.mem_append.mp hmem with hmem | hmem
    · exact h.untabbed margin hmem
    · rwa [List.mem_singleton.mp hmem]
  · next hfresh =>
    rw [if_neg hfresh, if_neg hfresh, hblocks]
    exact ⟨h.untabbed, h.steady, h.tracks⟩

theorem exists_enters (h : HasRead st ls) (hl : l.token? = some k)
    (haccepts : Accepts (ls ++ [l])) : ∃ blocks, Enters st blocks := by
  have htabs := haccepts.untabbed
  have hsteady := haccepts.steady
  rw [h.margins_token hl] at htabs
  rw [h.widths_token hl] at hsteady
  unfold Enters
  by_cases hfresh : st.fresh = true
  · rw [if_pos hfresh] at htabs hsteady
    obtain ⟨blocks, hsettle⟩ := (h.tracks.steady_snoc_iff h.steady).mp hsteady
    refine ⟨blocks, ?_⟩
    rw [if_pos hfresh]
    exact ⟨htabs _ (by simp), hsettle⟩
  · exact ⟨st.blocks, by rw [if_neg hfresh]⟩

/-- **One lexeme keeps the layout at what it has read.** -/
theorem step (h : HasRead st ls) (hshape : Shape l.role l.text rest)
    (hstep : st.step l = .ok (out, st')) : HasRead st' (ls ++ [l]) := by
  cases hrole : l.role with
  | token k =>
    have hl := token?_eq_some hrole
    obtain ⟨blocks, brackets, hblocks, hbrackets, rfl⟩ :=
      (step_token_eq_ok_iff hrole).mp ⟨out, hstep⟩
    obtain ⟨huntabbed, hsteady, htracks⟩ := h.enters hl hblocks
    refine ⟨(beginsLine_snoc_token hl).symm, nofun, ?_, huntabbed, hsteady, htracks⟩
    rw [kinds_snoc, nestAll_append, h.opened_eq, hl]
    simp [nestAll, opened, nest?_of_nestBrackets hbrackets]
  | gap =>
    have hl : l.token? = none := by rw [token?, hrole]
    rw [hrole] at hshape
    simp only [Layout.step, hrole] at hstep
    cases hstep
    refine h.between hl rfl rfl ?_ ?_
    · simp [beginsLine_snoc_between hl, hrole, h.fresh_eq]
    · intro hfresh
      rw [lastLine_append_of_notMem _ hshape.newline_notMem_gap, ← h.margin_eq hfresh]
  | join =>
    have hl : l.token? = none := by rw [token?, hrole]
    rw [hrole] at hshape
    simp only [Layout.step, hrole] at hstep
    cases hstep
    refine h.between hl rfl rfl ?_ ?_
    · simp [beginsLine_snoc_between hl, hrole, h.fresh_eq]
    · intro _
      rw [lastLine_append_newline _ hshape.getLast?_join]
  | lineBreak =>
    have hl : l.token? = none := by rw [token?, hrole]
    rw [hrole] at hshape
    simp only [Layout.step, hrole] at hstep
    have hbegins : beginsLine (ls ++ [l]) = (st.fresh || st.brackets.isEmpty) := by
      rw [beginsLine_snoc_between hl, hrole, ← h.fresh_eq, ← h.isEmpty_brackets, beq_self_eq_true,
        Bool.and_true]
    have hmargin := lastLine_append_newline (ls.flatMap text) hshape.getLast?_lineBreak
    split at hstep
    · next hends =>
      cases hstep
      refine h.between hl rfl rfl ?_ fun _ => hmargin.symm
      rw [Bool.and_eq_true] at hends
      rw [hbegins, hends.1, Bool.or_true]
    · next hgoes =>
      cases hstep
      refine h.between hl rfl rfl ?_ fun _ => hmargin.symm
      rw [hbegins]
      revert hgoes
      show _ → st.fresh = _
      cases st.fresh <;> cases st.brackets.isEmpty <;> simp
  | badInteger =>
    simp only [Layout.step, hrole] at hstep
    cases hstep
  | broken =>
    simp only [Layout.step, hrole] at hstep
    cases hstep
  | stray =>
    simp only [Layout.step, hrole] at hstep
    cases hstep

/-- **The layout goes on as long as the lexemes allow it.** -/
theorem progress (h : HasRead st ls) (hvalid : l.isValid = true) (haccepts : Accepts (ls ++ [l])) :
    ∃ out st', st.step l = .ok (out, st') := by
  cases hrole : l.role with
  | token k =>
    have hl := token?_eq_some hrole
    obtain ⟨blocks, hblocks⟩ := h.exists_enters hl haccepts
    obtain ⟨bs, hbs⟩ := haccepts.nests
    rw [kinds_snoc, nestAll_append, h.opened_eq, hl, Option.bind_some] at hbs
    obtain ⟨bs', hbs', -⟩ := Option.bind_eq_some_iff.mp hbs
    obtain ⟨brackets, hbrackets⟩ := exists_nestBrackets
      { kind := k, span := { offset := st.offset, length := byteLength l.text } } hbs'
    obtain ⟨out, hout⟩ :=
      (step_token_eq_ok_iff hrole).mpr ⟨blocks, brackets, hblocks, hbrackets, rfl⟩
    exact ⟨out, _, hout⟩
  | gap =>
    simp only [Layout.step, hrole]
    exact ⟨_, _, rfl⟩
  | join =>
    simp only [Layout.step, hrole]
    exact ⟨_, _, rfl⟩
  | lineBreak =>
    simp only [Layout.step, hrole]
    split
    · exact ⟨_, _, rfl⟩
    · exact ⟨_, _, rfl⟩
  | badInteger => simp [isValid, hrole] at hvalid
  | broken => simp [isValid, hrole] at hvalid
  | stray => simp [isValid, hrole] at hvalid

/-- **The layout comes to the end of the text exactly if all its lexemes are accepted** and leave no
bracket open. -/
theorem run_eq_ok_iff (h : HasRead st ls) {cs : List Char} {ls' : List Lexeme}
    (hsplits : Splits cs ls') (hvalid : ∀ l ∈ ls', l.isValid = true) :
    (∃ ts, st.run ls' = .ok ts) ↔
      Accepts (ls ++ ls') ∧ nestAll [] (kinds (ls ++ ls')) = some [] := by
  induction hsplits generalizing st ls with
  | nil =>
    rw [List.append_nil, run, h.opened_eq, opened]
    unfold finish
    cases hbrackets : st.brackets with
    | nil => simp [h.accepts]
    | cons entry entries => simp
  | @cons l rest ls' hshape _ ih =>
    have hmore : ls ++ l :: ls' = ls ++ [l] ++ ls' := by simp
    rw [hmore]
    have hl := hvalid l List.mem_cons_self
    have hrest := fun l' hl' => hvalid l' (List.mem_cons_of_mem l hl')
    constructor
    · rintro ⟨ts, hrun⟩
      obtain ⟨⟨out, st'⟩, hstep, hrun⟩ := bind_eq_ok.mp hrun
      obtain ⟨more, hmore, -⟩ := bind_eq_ok.mp hrun
      exact (ih (h.step hshape hstep) hrest).mp ⟨more, hmore⟩
    · rintro ⟨haccepts, hnest⟩
      obtain ⟨out, st', hstep⟩ := h.progress hl haccepts.of_append
      obtain ⟨more, hmore⟩ := (ih (h.step hshape hstep) hrest).mpr ⟨haccepts, hnest⟩
      exact ⟨out ++ more, bind_eq_ok.mpr ⟨(out, st'), hstep, bind_eq_ok.mpr ⟨more, hmore, rfl⟩⟩⟩

end HasRead

end Layout

/-- **A text of valid lexemes has tokens exactly if its brackets are nested, no logical line has a
tab in its margin, and the widths of the margins are steady.** -/
theorem tokenize_ok_iff (source : String)
    (hvalid : ∀ l ∈ Lexeme.split source.toList, l.isValid = true) :
    (∃ ts, tokenize source = .ok ts) ↔
      Nested (Lexeme.brackets (Lexeme.split source.toList)) ∧
        (∀ margin ∈ Lexeme.margins (Lexeme.split source.toList), '\t' ∉ margin) ∧
        Layout.Steady (0 :: (Lexeme.margins (Lexeme.split source.toList)).map byteLength) := by
  have hrun := Layout.hasRead_start.run_eq_ok_iff (Lexeme.splits_split source.toList) hvalid
  rw [List.nil_append] at hrun
  rw [tokenize, hrun, Lexeme.brackets, nested_filter_isBracket_iff]
  constructor
  · rintro ⟨haccepts, hnest⟩
    exact ⟨hnest, haccepts.untabbed, haccepts.steady⟩
  · rintro ⟨hnest, huntabbed, hsteady⟩
    exact ⟨⟨⟨[], hnest⟩, huntabbed, hsteady⟩, hnest⟩

/-- Two blocks, of which the outer one begins with a call over two lines. The second of these begins
with a tab, which is in no margin. -/
def steppedText : String := "a\n b(\n\t)\n  c\n d"

/-- The last line comes back to a width that no line had. -/
def unevenText : String := "a\n  b\n c"

theorem tokenize_ok_iff_stepped_and_uneven :
    (∀ l ∈ Lexeme.split steppedText.toList, l.isValid = true) ∧
      Lexeme.widths (Lexeme.split steppedText.toList) = [0, 0, 1, 2, 1] ∧
      (∃ ts, tokenize steppedText = .ok ts) ∧
      (∀ l ∈ Lexeme.split unevenText.toList, l.isValid = true) ∧
      Lexeme.widths (Lexeme.split unevenText.toList) = [0, 0, 2, 1] ∧
      ¬ ∃ ts, tokenize unevenText = .ok ts := by
  have hvalid : ∀ l ∈ Lexeme.split steppedText.toList, l.isValid = true :=
    List.all_eq_true.mp (by decide +kernel)
  have hwidths : Lexeme.widths (Lexeme.split steppedText.toList) = [0, 0, 1, 2, 1] := by
    decide +kernel
  have hbrackets : Lexeme.brackets (Lexeme.split steppedText.toList) =
      [.opening .paren, .closing .paren] := by decide +kernel
  have htabs : ∀ margin ∈ Lexeme.margins (Lexeme.split steppedText.toList), '\t' ∉ margin := by
    decide +kernel
  have hvalid' : ∀ l ∈ Lexeme.split unevenText.toList, l.isValid = true :=
    List.all_eq_true.mp (by decide +kernel)
  have hwidths' : Lexeme.widths (Lexeme.split unevenText.toList) = [0, 0, 2, 1] := by
    decide +kernel
  refine ⟨hvalid, hwidths, (tokenize_ok_iff _ hvalid).mpr ⟨?_, htabs, ?_⟩, hvalid', hwidths', ?_⟩
  · rw [hbrackets]
    exact Nested.nil.bracketed .paren
  · change Layout.Steady (Lexeme.widths (Lexeme.split steppedText.toList))
    rw [hwidths]
    decide
  · rw [tokenize_ok_iff _ hvalid']
    rintro ⟨-, -, hsteady⟩
    change Layout.Steady (Lexeme.widths (Lexeme.split unevenText.toList)) at hsteady
    rw [hwidths'] at hsteady
    revert hsteady
    decide

end FieldView
