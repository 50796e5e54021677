import FieldView.Proofs.Token.Acceptance
import FieldView.Proofs.Token.Lookahead

/-!
# Blank lines

A line without a token can be put in wherever a line begins. The text then has the same tokens, or
none for the same reason (`tokenize_blankLine`).

Three facts carry this. The lexemes before the new line end before a line break, so they do not see
what is behind it (`Lexeme.split_line`). A blank line changes nothing in the layout but its offset
(`Layout.run_blankLine`). And offsets only go into spans: layouts that differ in them alone read the
same kinds from the same lexemes and fail alike (`Layout.Alike.run`).
-/

set_option autoImplicit false

namespace FieldView

/-! ## Lexemes before a line break -/

namespace Lexeme

theorem split_eq_cons {cs : List Char} {l : Lexeme} {ls : List Lexeme} (h : split cs = l :: ls) :
    ∃ c rest, cs = c :: rest ∧
      l = { form := (measure c rest).1, text := c :: rest.take (measure c rest).2 } := by
  cases cs with
  | nil =>
    rw [split] at h
    cases h
  | cons c rest =>
    rw [split_cons] at h
    exact ⟨c, rest, rfl, (List.cons.inj h).1.symm⟩

/-- Lexemes that end before a line break are the same whatever stands behind it, unless a literal
among them is open there. Between them and the break stands `w`. -/
theorem split_line {ls ls' : List Lexeme} {w x : List Char}
    (hsplit : split (ls.flatMap text ++ w ++ '\n' :: x) = ls ++ ls')
    (hopen : ∀ front l back, ls = front ++ l :: back → l.form = .broken →
      ¬ Quoted.IsOpen ((l :: back).flatMap text ++ w ++ ['\n'])) (y : List Char) :
    split (ls.flatMap text ++ w ++ '\n' :: y) = ls ++ split (w ++ '\n' :: y) := by
  induction ls with
  | nil => rfl
  | cons l ls ih =>
    obtain ⟨c, rest, hcs, hl⟩ := split_eq_cons hsplit
    -- The first lexeme is `c` and `t`, and behind it `v` is left of the line.
    obtain ⟨t, ht⟩ : ∃ t, t = rest.take (measure c rest).2 := ⟨_, rfl⟩
    obtain ⟨v, hv⟩ : ∃ v, v = ls.flatMap text ++ w := ⟨_, rfl⟩
    have htext : l.text = c :: t := by rw [hl, ht]
    have hrest : rest = t ++ v ++ '\n' :: x := by
      rw [List.flatMap_cons, htext] at hcs
      simpa [hv] using hcs.symm
    have hlength : t.length = (measure c rest).2 := by
      have htake := congrArg List.length ht
      have hlong := congrArg List.length hrest
      simp only [List.length_take, List.length_append, List.length_cons] at htake hlong
      omega
    have hmeasure : measure c (t ++ v ++ '\n' :: y) = measure c rest := by
      rw [hrest] at hlength ⊢
      apply measure_line
      · rw [← hlength, List.length_append]
        omega
      · intro hbroken
        have hnot := hopen [] l ls rfl (by rw [hl, hrest]; exact hbroken)
        rw [List.flatMap_cons, htext] at hnot
        simpa [hv] using hnot
    have hsplits : ∀ z, measure c (t ++ v ++ '\n' :: z) = measure c rest →
        split (c :: (t ++ v ++ '\n' :: z)) = l :: split (v ++ '\n' :: z) := by
      intro z hz
      rw [split_cons, hz, ← hlength, List.append_assoc, List.take_left, List.drop_left, hl, ← ht]
    have htexts : ∀ z, (l :: ls).flatMap text ++ w ++ '\n' :: z = c :: (t ++ v ++ '\n' :: z) := by
      intro z
      rw [List.flatMap_cons, htext]
      simp [hv]
    rw [htexts, hsplits y hmeasure, hv, List.cons_append, ih]
    · rw [htexts, hsplits x (by rw [← hrest]), List.cons_append] at hsplit
      rw [← hv]
      exact (List.cons.inj hsplit).2
    · intro front l' back hls
      exact hopen (l :: front) l' back (by rw [hls]; rfl)

/-! ## The lexemes of a blank line -/

theorem split_newline (cs : List Char) :
    split ('\n' :: cs) = { form := .newline, text := ['\n'] } :: split cs := by
  rw [split_cons, measure_newline]
  rfl

theorem split_comment {body : List Char} (h : '\n' ∉ body) (cs : List Char) :
    split ('#' :: body ++ '\n' :: cs) =
      { form := .comment, text := '#' :: body } :: split ('\n' :: cs) := by
  have hbody : (body ++ '\n' :: cs).takeWhile (· != '\n') = body := by
    rw [takeWhile_append_stop (by decide), List.takeWhile_eq_self_iff]
    intro c hc
    rw [bne_iff_ne]
    rintro rfl
    exact h hc
  rw [List.cons_append, split_cons, measure_comment, hbody, List.take_left, List.drop_left]

/-- Gaps before another character are at most one lexeme. -/
theorem split_gaps {gaps : List Char} (hgaps : ∀ c ∈ gaps, isGap c = true) {d : Char}
    (hd : isGap d = false) (cs : List Char) :
    ∃ ls, (∀ l ∈ ls, l.role = .gap) ∧ split (gaps ++ d :: cs) = ls ++ split (d :: cs) := by
  cases gaps with
  | nil => exact ⟨[], nofun, rfl⟩
  | cons c gaps =>
    have hrest : (gaps ++ d :: cs).takeWhile isGap = gaps := by
      rw [takeWhile_append_stop hd, List.takeWhile_eq_self_iff]
      intro c' hc'
      exact hgaps c' (List.mem_cons_of_mem c hc')
    refine ⟨[{ form := .blank, text := c :: gaps }], ?_, ?_⟩
    · intro l hl
      rw [List.mem_singleton.mp hl]
      rfl
    · rw [List.cons_append, split_cons, measure_blank (hgaps c List.mem_cons_self), hrest,
        List.take_left, List.drop_left, List.singleton_append]

/-- A line without a token has no lexemes but gaps and its end. -/
theorem split_blankLine {line : List Char} (h : BlankLine line) (cs : List Char) :
    ∃ gaps, (∀ l ∈ gaps, l.role = .gap) ∧
      split (line ++ '\n' :: cs) = gaps ++ { form := .newline, text := ['\n'] } :: split cs := by
  cases h with
  | blank hline =>
    obtain ⟨ls, hls, hsplit⟩ := split_gaps hline (d := '\n') rfl cs
    exact ⟨ls, hls, by rw [hsplit, split_newline]⟩
  | @comment gaps body hgaps hbody =>
    obtain ⟨ls, hls, hsplit⟩ := split_gaps hgaps (d := '#') rfl (body ++ '\n' :: cs)
    refine ⟨ls ++ [{ form := .comment, text := '#' :: body }], ?_, ?_⟩
    · intro l hl
      rcases List.mem_append.mp hl with hl | hl
      · exact hls l hl
      · rw [List.mem_singleton.mp hl]
        rfl
    · rw [List.append_assoc, List.cons_append, hsplit, ← List.cons_append, split_comment hbody,
        split_newline, List.append_assoc]
      rfl

end Lexeme

/-! ## Layouts at different places -/

/-- Two results of reading: both succeed, with related values, or both fail for the same reason. -/
inductive Agree {α : Type} (R : α → α → Prop) : Except LexError α → Except LexError α → Prop
  | ok {a b : α} : R a b → Agree R (.ok a) (.ok b)
  | error {e e' : LexError} : e.fault = e'.fault → Agree R (.error e) (.error e')

theorem Agree.bind {α β : Type} {R : α → α → Prop} {S : β → β → Prop} {x y : Except LexError α}
    {f g : α → Except LexError β} (h : Agree R x y) (hfg : ∀ a b, R a b → Agree S (f a) (g b)) :
    Agree S (x >>= f) (y >>= g) := by
  cases h with
  | ok hab => exact hfg _ _ hab
  | error he => exact .error he

/-- The tokens are of the same kinds. They may stand at different places. -/
def SameKinds (ts us : List Token) : Prop := ts.map (·.kind) = us.map (·.kind)

theorem SameKinds.append {ts us ts' us' : List Token} (h : SameKinds ts us)
    (h' : SameKinds ts' us') : SameKinds (ts ++ ts') (us ++ us') := by
  unfold SameKinds at *
  rw [List.map_append, List.map_append, h, h']

namespace Layout

/-- The layouts differ in nothing but places. -/
structure Alike (st su : Layout) : Prop where
  margin : st.margin = su.margin
  fresh : st.fresh = su.fresh
  blocks : st.blocks = su.blocks
  opened : st.opened = su.opened

theorem Alike.isEmpty {st su : Layout} (h : Alike st su) :
    st.brackets.isEmpty = su.brackets.isEmpty := by
  have hopened := congrArg List.isEmpty h.opened
  rwa [Layout.opened, Layout.opened, List.isEmpty_map, List.isEmpty_map] at hopened

theorem Alike.indentLine {st su : Layout} (h : Alike st su) :
    Agree (fun a b => SameKinds a.1 b.1 ∧ a.2 = b.2) st.indentLine su.indentLine := by
  have hwidth : st.marginSpan.length = su.marginSpan.length := congrArg byteLength h.margin
  unfold Layout.indentLine
  simp only [h.margin, h.blocks, hwidth]
  split
  · exact .error rfl
  split
  · exact .ok ⟨rfl, rfl⟩
  split
  · exact .ok ⟨by simp [SameKinds], rfl⟩
  · exact .error rfl

theorem agree_nestBrackets {brackets brackets' : List (Bracket × Span)} {t t' : Token}
    (h : brackets.map (·.1) = brackets'.map (·.1)) (hkind : t.kind = t'.kind) :
    Agree (fun a b => a.map (·.1) = b.map (·.1)) (nestBrackets brackets t)
      (nestBrackets brackets' t') := by
  unfold nestBrackets
  rw [← hkind]
  cases t.kind with
  | opening b => exact .ok (by simpa using h)
  | closing b =>
    cases brackets with
    | nil =>
      cases brackets' with
      | nil => exact .error rfl
      | cons _ _ => cases h
    | cons entry rest =>
      cases brackets' with
      | nil => cases h
      | cons entry' rest' =>
        obtain ⟨hfirst, hrest⟩ := List.cons.inj h
        simp only [hfirst]
        split
        · exact .ok hrest
        · exact .error rfl
  | _ => exact .ok h

theorem step_token {l : Lexeme} {k : Kind} (h : l.role = .token k) (st : Layout) {t : Token}
    (ht : t = { kind := k, span := { offset := st.offset, length := byteLength l.text } }) :
    st.step l =
      ((if st.fresh then st.indentLine else .ok ([], st.blocks)) >>= fun lead =>
        nestBrackets st.brackets t >>= fun brackets =>
          pure (lead.1 ++ [t],
            { offset := st.offset + byteLength l.text, margin := [], fresh := false,
              blocks := lead.2, brackets })) := by
  subst ht
  unfold Layout.step
  simp only [h]
  split <;> rfl

/-- A lexeme keeps layouts alike, and gives both the same tokens. -/
theorem Alike.step {st su : Layout} (h : Alike st su) (l : Lexeme) :
    Agree (fun a b => SameKinds a.1 b.1 ∧ Alike a.2 b.2) (st.step l) (su.step l) := by
  cases hrole : l.role with
  | token k =>
    have hlead : Agree (fun a b => SameKinds a.1 b.1 ∧ a.2 = b.2)
        (if st.fresh then st.indentLine else .ok ([], st.blocks))
        (if su.fresh then su.indentLine else .ok ([], su.blocks)) := by
      rw [h.fresh]
      split
      · exact h.indentLine
      · exact .ok ⟨rfl, h.blocks⟩
    rw [step_token hrole st rfl, step_token hrole su rfl]
    apply hlead.bind
    intro lead lead' hlead
    refine (agree_nestBrackets h.opened ?_).bind ?_
    · rfl
    intro brackets brackets' hbrackets
    exact .ok ⟨hlead.1.append rfl, rfl, rfl, hlead.2, hbrackets⟩
  | gap =>
    simp only [Layout.step, hrole]
    exact .ok ⟨rfl, by rw [h.margin], h.fresh, h.blocks, h.opened⟩
  | join =>
    simp only [Layout.step, hrole]
    exact .ok ⟨rfl, rfl, h.fresh, h.blocks, h.opened⟩
  | lineBreak =>
    simp only [Layout.step, hrole, h.isEmpty, h.fresh]
    split
    · exact .ok ⟨rfl, rfl, rfl, h.blocks, h.opened⟩
    · exact .ok ⟨rfl, rfl, rfl, h.blocks, h.opened⟩
  | _ =>
    simp only [Layout.step, hrole]
    exact .error rfl

theorem Alike.finish {st su : Layout} (h : Alike st su) : Agree SameKinds st.finish su.finish := by
  have hopened := h.opened
  unfold Layout.opened at hopened
  unfold Layout.finish
  cases hst : st.brackets with
  | nil =>
    rw [hst, List.map_nil, eq_comm, List.map_eq_nil_iff] at hopened
    rw [hopened, h.fresh, h.blocks]
    refine .ok ?_
    unfold SameKinds
    split <;> simp
  | cons entry rest =>
    cases hsu : su.brackets with
    | nil =>
      rw [hst, hsu] at hopened
      cases hopened
    | cons _ _ => exact .error rfl

/-- **Layouts that are alike read the same kinds from the same lexemes, or fail alike.** -/
theorem Alike.run {st su : Layout} (h : Alike st su) (ls : List Lexeme) :
    Agree SameKinds (st.run ls) (su.run ls) := by
  induction ls generalizing st su with
  | nil => exact h.finish
  | cons l ls ih =>
    rw [run_cons, run_cons]
    apply (h.step l).bind
    intro first first' hfirst
    apply (ih hfirst.2).bind
    intro rest rest' hrest
    exact .ok (hfirst.1.append hrest)

/-! ## A blank line in the layout -/

/-- A line begins here: nothing stands on it, and a break would end no logical line. -/
structure AtLine (st : Layout) : Prop where
  margin : st.margin = []
  idle : (st.brackets.isEmpty && !st.fresh) = false

theorem atLine_start : AtLine {} := ⟨rfl, rfl⟩

theorem atLine_of_step {st st' : Layout} {l : Lexeme} {ts : List Token} (hl : l.role = .lineBreak)
    (h : st.step l = .ok (ts, st')) : AtLine st' := by
  unfold Layout.step at h
  simp only [hl] at h
  split at h
  · cases h
    exact ⟨rfl, by simp⟩
  · next hgoes =>
    cases h
    exact ⟨rfl, by simpa using hgoes⟩

theorem run_cons_of_step {st st' : Layout} {l : Lexeme} (h : st.step l = .ok ([], st'))
    (ls : List Lexeme) : st.run (l :: ls) = st'.run ls := by
  rw [run_cons, h]
  exact bind_pure (st'.run ls)

theorem run_gaps {gaps : List Lexeme} (hgaps : ∀ l ∈ gaps, l.role = .gap) (st : Layout)
    (ls : List Lexeme) :
    ∃ offset margin, st.run (gaps ++ ls) = { st with offset, margin }.run ls := by
  induction gaps generalizing st with
  | nil => exact ⟨st.offset, st.margin, rfl⟩
  | cons l gaps ih =>
    have hl := hgaps l List.mem_cons_self
    obtain ⟨offset, margin, hrun⟩ := ih (fun l' hl' => hgaps l' (List.mem_cons_of_mem l hl'))
      { st with offset := st.offset + byteLength l.text, margin := st.margin ++ l.text }
    refine ⟨offset, margin, ?_⟩
    rw [List.cons_append, run_cons_of_step _ (gaps ++ ls)]
    · exact hrun
    · simp only [Layout.step, hl]

/-- **At the beginning of a line, a blank line only moves the layout on.** -/
theorem run_blankLine {st : Layout} (hst : AtLine st) {gaps : List Lexeme}
    (hgaps : ∀ l ∈ gaps, l.role = .gap) (ls : List Lexeme) :
    ∃ su, Alike su st ∧
      st.run (gaps ++ { form := .newline, text := ['\n'] } :: ls) = su.run ls := by
  obtain ⟨offset, margin, hrun⟩ := run_gaps hgaps st ({ form := .newline, text := ['\n'] } :: ls)
  refine ⟨{ st with offset := offset + 1, margin := [] }, ⟨hst.margin.symm, rfl, rfl, rfl⟩, ?_⟩
  have hskip : { st with offset, margin }.step { form := .newline, text := ['\n'] } =
      .ok ([], { st with offset := offset + 1, margin := [] }) := by
    show (if (st.brackets.isEmpty && !st.fresh) = true then _ else _) = _
    rw [hst.idle]
    rfl
  rw [hrun, run_cons_of_step hskip]

/-! ## Texts with a common beginning -/

/-- What stands behind a lexeme can be replaced, if that does not show once the lexeme is read. -/
theorem agree_run_append (st : Layout) (ls : List Lexeme) {l : Lexeme} {more more' : List Lexeme}
    (h : ∀ (su : Layout) (out : List Token) (su' : Layout), su.step l = .ok (out, su') →
      Agree SameKinds (su'.run more) (su'.run more')) :
    Agree SameKinds (st.run (ls ++ l :: more)) (st.run (ls ++ l :: more')) := by
  induction ls generalizing st with
  | nil =>
    rw [List.nil_append, List.nil_append, run_cons, run_cons]
    cases hstep : st.step l with
    | error e => exact .error rfl
    | ok first =>
      apply (h st first.1 first.2 hstep).bind
      intro rest rest' hrest
      exact .ok (SameKinds.append rfl hrest)
  | cons l' ls ih =>
    rw [List.cons_append, List.cons_append, run_cons, run_cons]
    cases st.step l' with
    | error e => exact .error rfl
    | ok first =>
      apply (ih first.2).bind
      intro rest rest' hrest
      exact .ok (SameKinds.append rfl hrest)

theorem isValid_of_step {st st' : Layout} {l : Lexeme} {ts : List Token}
    (h : st.step l = .ok (ts, st')) : l.isValid = true := by
  unfold Lexeme.isValid
  cases steps_of_step h with
  | _ hrole => simp [hrole]

end Layout

/-! ## Blank lines in a text -/

namespace Lexeme

/-- The lexemes are read up to a literal that does not close, and with other text behind the next
line break it would hold the break. -/
def LeavesOpen (ls : List Lexeme) : Prop :=
  ∃ front l back, ls = front ++ l :: back ∧ (∀ l' ∈ front, l'.isValid = true) ∧
    l.form = .broken ∧ Quoted.IsOpen ((l :: back).flatMap text ++ ['\n'])

/-- A line begins between the texts: the first is empty, or it ends with a line break that is a
lexeme. A joined line end is none, and the line breaks in a literal are none, whether the literal
closes or not. -/
def LineCut (before after : List Char) : Prop :=
  before = [] ∨ ∃ ls ls', before = ls.flatMap text ++ ['\n'] ∧
    split (before ++ after) = ls ++ { form := .newline, text := ['\n'] } :: ls' ∧ ¬ LeavesOpen ls

theorem not_broken_of_isValid {l : Lexeme} (h : l.isValid = true) : l.form ≠ .broken := by
  intro hform
  simp [isValid, role, hform] at h

theorem eq_split_of_newline {ls ls' : List Lexeme} {after : List Char}
    (h : split (ls.flatMap text ++ '\n' :: after) =
      ls ++ { form := .newline, text := ['\n'] } :: ls') : ls' = split after := by
  have htexts := texts_split (ls.flatMap text ++ '\n' :: after)
  rw [h, List.flatMap_append, List.flatMap_cons, List.append_cancel_left_eq] at htexts
  have hcut : split (ls.flatMap text ++ '\n' :: after) =
      (ls ++ [{ form := .newline, text := ['\n'] }]) ++ ls' := by simpa using h
  have hafter : ls'.flatMap text = after := (List.cons.inj htexts).2
  rw [← hafter, split_of_append hcut]

/-- With a blank line put in, the lexemes before it stay, or those up to a faulty one do. -/
theorem split_insert {ls ls' : List Lexeme} {after : List Char}
    (h : split (ls.flatMap text ++ '\n' :: after) =
      ls ++ { form := .newline, text := ['\n'] } :: ls') (hopen : ¬ LeavesOpen ls)
    (y : List Char) :
    split (ls.flatMap text ++ '\n' :: y) =
        ls ++ { form := .newline, text := ['\n'] } :: split y ∨
      ∃ front l back more, ls = front ++ l :: back ∧ l.isValid = false ∧
        split (ls.flatMap text ++ '\n' :: y) = front ++ l :: more := by
  cases hfault : ls.find? (fun l => !l.isValid) with
  | none =>
    left
    rw [List.find?_eq_none] at hfault
    have hline := split_line (w := []) (by simpa using h) ?_ y
    · simpa [split_newline] using hline
    · intro front l back hls hform
      exact absurd hform (not_broken_of_isValid (by simpa using hfault l (by simp [hls])))
  | some l =>
    right
    obtain ⟨hl, front, back, rfl, hfront⟩ := List.find?_eq_some_iff_append.mp hfault
    have hcut : split ((front ++ [l]).flatMap text ++ back.flatMap text ++ '\n' :: after) =
        front ++ [l] ++ (back ++ { form := .newline, text := ['\n'] } :: ls') := by
      simpa using h
    have hline := split_line hcut ?_ y
    · exact ⟨front, l, back, _, rfl, by simpa using hl, by simpa using hline⟩
    · intro front' l' back' hls hform
      rcases List.eq_nil_or_concat back' with rfl | ⟨init, last, rfl⟩
      · obtain ⟨rfl, hlast⟩ := List.append_inj' hls rfl
        obtain rfl := List.singleton_inj.mp hlast
        intro hbreak
        exact hopen ⟨front, l, back, rfl, by simpa using hfront, hform, by simpa using hbreak⟩
      · have hcons : front ++ [l] = (front' ++ l' :: init) ++ [last] := by simpa using hls
        obtain ⟨hfront', -⟩ := List.append_inj' hcons rfl
        exact absurd hform (not_broken_of_isValid (by simpa using hfront l' (by simp [hfront'])))

end Lexeme

/-- What is told about a text: the kinds of its tokens, or the message. -/
def report : Except LexError (List Token) → Except String (List Kind)
  | .ok ts => .ok (ts.map (·.kind))
  | .error e => .error e.message

theorem Agree.report_eq {x y : Except LexError (List Token)} (h : Agree SameKinds x y) :
    report x = report y := by
  cases h with
  | ok hkinds => exact congrArg Except.ok hkinds
  | error hfault => simp [report, LexError.message, hfault]

/-- **A blank or comment line that is put in where a line begins changes neither the tokens nor the
message.** -/
theorem tokenize_blankLine {before line after : String}
    (hcut : Lexeme.LineCut before.toList after.toList) (hline : BlankLine line.toList) :
    report (tokenize (before ++ line ++ "\n" ++ after)) = report (tokenize (before ++ after)) := by
  have htext : (before ++ line ++ "\n" ++ after).toList =
      before.toList ++ (line.toList ++ '\n' :: after.toList) := by simp
  obtain ⟨gaps, hgaps, hinserted⟩ := Lexeme.split_blankLine hline after.toList
  have hread : ∀ st : Layout, st.AtLine →
      Agree SameKinds (st.run (Lexeme.split (line.toList ++ '\n' :: after.toList)))
        (st.run (Lexeme.split after.toList)) := by
    intro st hst
    obtain ⟨su, halike, hrun⟩ := Layout.run_blankLine hst hgaps (Lexeme.split after.toList)
    rw [hinserted, hrun]
    exact halike.run _
  apply Agree.report_eq
  rw [tokenize, tokenize, htext, String.toList_append]
  rcases hcut with hempty | ⟨ls, ls', hbefore, hsplit, hopen⟩
  · rw [hempty]
    exact hread {} Layout.atLine_start
  · rw [hbefore, List.append_assoc, List.singleton_append] at hsplit
    rw [hbefore, List.append_assoc, List.append_assoc, List.singleton_append,
      List.singleton_append, hsplit]
    rcases Lexeme.split_insert hsplit hopen (line.toList ++ '\n' :: after.toList) with
      hwhole | ⟨front, l, back, more, rfl, hfault, hpart⟩
    · rw [hwhole, Lexeme.eq_split_of_newline hsplit]
      apply Layout.agree_run_append
      intro su out st hstep
      exact hread st (Layout.atLine_of_step rfl hstep)
    · -- The layout does not come past the faulty lexeme.
      rw [hpart, List.append_assoc, List.cons_append]
      apply Layout.agree_run_append
      intro su out st hstep
      rw [Layout.isValid_of_step hstep] at hfault
      cases hfault

-- A literal that never closes has to be excluded: its line breaks would be none if it did.
example : (tokenize "\"\"\"a\nb").toOption = none ∧
    (tokenize "\"\"\"a\n# \"\"\"\nb").toOption.isSome = true := by
  decide +kernel

/-- A block that is broken off inside the brackets of a call. -/
def callText : String := "if a:\n  f(\n"

/-- A comment behind a tab, where a token would be refused. It opens no literal. -/
def remarkText : String := "\t# \"\"\""

theorem tokenize_blankLine_call :
    Lexeme.LineCut callText.toList "b)\n  c".toList ∧ BlankLine remarkText.toList ∧
      report (tokenize (callText ++ remarkText ++ "\n" ++ "b)\n  c")) =
        report (tokenize (callText ++ "b)\n  c")) := by
  have hcut : Lexeme.LineCut callText.toList "b)\n  c".toList := by
    refine .inr ⟨Lexeme.split "if a:\n  f(".toList, Lexeme.split "b)\n  c".toList,
      by decide +kernel, by decide +kernel, ?_⟩
    rintro ⟨front, l, back, hls, -, hbroken, -⟩
    have hforms : ∀ l ∈ Lexeme.split "if a:\n  f(".toList, l.form ≠ .broken := by decide +kernel
    exact hforms l (by rw [hls]; simp) hbroken
  have htab : ∀ c ∈ ['\t'], Lexeme.isGap c = true := List.all_eq_true.mp rfl
  have hbody : '\n' ∉ [' ', '"', '"', '"'] := by decide
  have hline : BlankLine remarkText.toList := .comment htab hbody
  exact ⟨hcut, hline, tokenize_blankLine hcut hline⟩

end FieldView
