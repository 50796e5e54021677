import FieldView.Proofs.Token.Grammar

/-!
# No text is lost

The tokens of a text that were written in it lie in it one after another, each where its kind is
spelled, and what stands between them is blank: spaces, comments, joined line ends, and line breaks
that end no logical line. `Lossless` says so of a text and its tokens, byte by byte.

The proof follows the layout through the text. `Layout.Stands` says what is known between two
lexemes: where the tokens so far were written, which of them are brackets still open, and, as long
as a line holds no token, that its characters are the margin. One lexeme keeps it (`Stands.step`),
so it holds at every place, and the lexeme at a given byte is either a token or blank
(`Stands.covered_of_step`).
-/

set_option autoImplicit false

namespace FieldView

/-! ## Written tokens -/

/-- Whether tokens of this kind are written: blocks and the end of the text are not. -/
def Kind.isInked : Kind → Bool
  | .indent => false
  | .dedent => false
  | .eof => false
  | _ => true

theorem nested_of_not_inked {ks : List Kind} (h : ∀ k ∈ ks, k.isInked = false) : Nested ks := by
  induction ks with
  | nil => exact .nil
  | cons k ks ih =>
    have hk := h k List.mem_cons_self
    have hrest := ih fun k' hk' => h k' (List.mem_cons_of_mem k hk')
    cases k with
    | opening b => cases hk
    | closing b => cases hk
    | _ => exact .plain rfl rfl hrest

theorem Kind.isInked_of_not_isLayout {k : Kind} (h : k.isLayout = false) : k.isInked = true := by
  cases k with
  | newline => cases h
  | indent => cases h
  | dedent => cases h
  | eof => cases h
  | _ => rfl

namespace Token

/-- Whether a token was written in a text of this size. The end of the last line may be missing
there; its token stands behind all characters then. -/
def isWritten (size : Nat) (t : Token) : Bool :=
  t.kind.isInked && !(t.kind == .newline && t.span.offset == size)

theorem isInked_of_isWritten {size : Nat} {t : Token} (h : t.isWritten size = true) :
    t.kind.isInked = true := by
  rw [isWritten, Bool.and_eq_true] at h
  exact h.1

/-- The span of the token is a stretch of the text, and spells the token. -/
def SpelledIn (text : List Char) (t : Token) : Prop :=
  ∃ before w after, text = before ++ w ++ after ∧ w ≠ [] ∧
    byteLength before = t.span.offset ∧ byteLength w = t.span.length ∧ t.kind.SpelledBy w

end Token

/-- The tokens that were written in a text. -/
def written (text : List Char) (ts : List Token) : List Token :=
  ts.filter (·.isWritten (byteLength text))

theorem byteLength_pos {cs : List Char} (h : cs ≠ []) : 0 < byteLength cs := by
  cases cs with
  | nil => exact absurd rfl h
  | cons c cs =>
    have hc := c.utf8Size_pos
    rw [byteLength_cons]
    omega

namespace Token.SpelledIn

variable {text more : List Char} {t : Token}

theorem append (h : t.SpelledIn text) (more : List Char) : t.SpelledIn (text ++ more) := by
  obtain ⟨before, w, after, rfl, hw, hoffset, hlength, hspelled⟩ := h
  exact ⟨before, w, after ++ more, by simp, hw, hoffset, hlength, hspelled⟩

theorem inside (h : t.SpelledIn text) : 0 < t.span.length ∧ t.span.stop ≤ byteLength text := by
  obtain ⟨before, w, after, rfl, hw, hoffset, hlength, -⟩ := h
  have hpos := byteLength_pos hw
  rw [Span.stop, byteLength_append, byteLength_append]
  omega

end Token.SpelledIn

/-- No written token reaches into these bytes. -/
def Clear (ws : List Token) (start stop : Nat) : Prop :=
  ∀ t ∈ ws, t.span.stop ≤ start ∨ stop ≤ t.span.offset

/-! ## What stands between tokens -/

/-- A line begins after this text. -/
def StartsLine (before : List Char) : Prop := ∀ c ∈ before.getLast?, c = '\n'

/-- The characters of a line without a token. -/
inductive BlankLine : List Char → Prop
  | blank {line : List Char} : (∀ c ∈ line, Lexeme.isGap c = true) → BlankLine line
  | comment {gaps body : List Char} : (∀ c ∈ gaps, Lexeme.isGap c = true) → '\n' ∉ body →
      BlankLine (gaps ++ '#' :: body)

/-- The byte lies between a bracket and its partner. -/
def Enclosed (ts : List Token) (i : Nat) : Prop :=
  ∃ outer opener inner closer rest b, ts = outer ++ opener :: (inner ++ closer :: rest) ∧
    opener.kind = .opening b ∧ closer.kind = .closing b ∧ Nested (inner.map (·.kind)) ∧
    opener.span.stop ≤ i ∧ i < closer.span.offset

/-- Stretches of a text between its tokens `ts`, of which `ws` are written. -/
inductive Skipped (ts ws : List Token) : List Char → List Char → List Char → Prop
  | blank {before piece after : List Char} : (∀ c ∈ piece, Lexeme.isGap c = true) →
      Skipped ts ws before piece after
  | comment {before body after : List Char} : '\n' ∉ body → Lexeme.EndsLine after →
      Skipped ts ws before ('#' :: body) after
  | join {before piece after : List Char} : piece = ['\\', '\n'] ∨ piece = ['\\', '\r', '\n'] →
      Skipped ts ws before piece after
  | enclosed {before after : List Char} : Enclosed ts (byteLength before) →
      Skipped ts ws before ['\n'] after
  | blankLine {lines line after : List Char} : StartsLine lines → BlankLine line →
      Clear ws (byteLength lines) (byteLength (lines ++ line)) →
      Skipped ts ws (lines ++ line) ['\n'] after

/-- A byte of a text belongs to a written token or to something skipped. -/
def Covered (text : List Char) (ts : List Token) (i : Nat) : Prop :=
  (∃ t ∈ written text ts, t.span.offset ≤ i ∧ i < t.span.stop) ∨
  ∃ before piece after, text = before ++ piece ++ after ∧
    byteLength before ≤ i ∧ i < byteLength (before ++ piece) ∧
    Skipped ts (written text ts) before piece after ∧
    Clear (written text ts) (byteLength before) (byteLength (before ++ piece))

/-- How a text and its tokens belong together. -/
structure Lossless (text : List Char) (ts : List Token) : Prop where
  inside : ∀ t ∈ written text ts, 0 < t.span.length ∧ t.span.stop ≤ byteLength text
  ordered : (written text ts).Pairwise fun s t => s.span.stop ≤ t.span.offset
  spelled : ∀ t ∈ written text ts, t.SpelledIn text
  covered : ∀ i, i < byteLength text → Covered text ts i

/-! ## Between two lexemes -/

/-- The tokens of the text so far, in order and where they were written. -/
structure Placed (before : List Char) (prev : List Token) : Prop where
  ordered : (prev.filter (·.kind.isInked)).Pairwise fun s t => s.span.stop ≤ t.span.offset
  spelled : ∀ t ∈ prev, t.kind.isInked = true → t.SpelledIn before

namespace Placed

variable {before w : List Char} {prev : List Token}

theorem stop_le (h : Placed before prev) {t : Token} (ht : t ∈ prev)
    (hink : t.kind.isInked = true) : t.span.stop ≤ byteLength before :=
  (h.spelled t ht hink).inside.2

theorem skip (h : Placed before prev) (w : List Char) : Placed (before ++ w) prev :=
  ⟨h.ordered, fun t ht hink => (h.spelled t ht hink).append w⟩

/-- Tokens that are not written can stand anywhere. -/
theorem lead (h : Placed before prev) {lead : List Token}
    (hlead : ∀ t ∈ lead, t.kind.isInked = false) : Placed before (prev ++ lead) := by
  have hnone : lead.filter (·.kind.isInked) = [] := by
    rw [List.filter_eq_nil_iff]
    intro t ht
    rw [hlead t ht]
    exact Bool.false_ne_true
  constructor
  · rw [List.filter_append, hnone, List.append_nil]
    exact h.ordered
  · intro t ht hink
    rcases List.mem_append.mp ht with ht | ht
    · exact h.spelled t ht hink
    · rw [hlead t ht] at hink
      cases hink

theorem token (h : Placed before prev) {k : Kind} (hw : w ≠ []) (hspelled : k.SpelledBy w) :
    Placed (before ++ w) (prev ++
      [{ kind := k, span := { offset := byteLength before, length := byteLength w } }]) := by
  constructor
  · rw [List.filter_append, List.pairwise_append]
    refine ⟨h.ordered, List.Pairwise.filter _ (List.pairwise_singleton _ _), ?_⟩
    intro s hs t ht
    obtain ⟨hmem, hink⟩ := List.mem_filter.mp hs
    obtain rfl := List.mem_singleton.mp (List.mem_filter.mp ht).1
    exact h.stop_le hmem hink
  · intro t ht hink
    rcases List.mem_append.mp ht with ht | ht
    · exact (h.spelled t ht hink).append w
    · obtain rfl := List.mem_singleton.mp ht
      exact ⟨before, w, [], by simp, hw, rfl, rfl, hspelled⟩

theorem ordered_written (h : Placed before prev) :
    (written before prev).Pairwise fun s t => s.span.stop ≤ t.span.offset := by
  rw [written, List.pairwise_filter]
  refine (List.pairwise_filter.mp h.ordered).imp ?_
  intro s t hst hs ht
  exact hst (Token.isInked_of_isWritten hs) (Token.isInked_of_isWritten ht)

theorem spelled_written (h : Placed before prev) {t : Token} (ht : t ∈ written before prev) :
    t.SpelledIn before := by
  obtain ⟨ht, hwritten⟩ := List.mem_filter.mp ht
  exact h.spelled t ht (Token.isInked_of_isWritten hwritten)

end Placed

/-- No token has been met on the current line, which is the margin. After a comment it ends. -/
def Idle (before margin rest : List Char) (prev : List Token) : Prop :=
  ∃ lines, before = lines ++ margin ∧ StartsLine lines ∧ BlankLine margin ∧
    ((∀ c ∈ margin, Lexeme.isGap c = true) ∨ Lexeme.EndsLine rest) ∧
    ∀ t ∈ prev, t.kind.isInked = true → t.span.stop ≤ byteLength lines

theorem startsLine_append (before : List Char) {w : List Char} (h : w.getLast? = some '\n') :
    StartsLine (before ++ w) := by
  intro c hc
  rw [List.getLast?_append, h] at hc
  exact (Option.some.inj hc).symm

namespace Idle

variable {before margin w rest : List Char} {prev : List Token}

theorem start (hplaced : Placed before prev) (hstart : StartsLine before) :
    Idle before [] rest prev := by
  refine ⟨before, by simp, hstart, .blank ?_, .inl ?_, ?_⟩
  · intro c hc
    cases hc
  · intro c hc
    cases hc
  · intro t ht hink
    exact hplaced.stop_le ht hink

theorem gap (h : Idle before margin (w ++ rest) prev) (hshape : Lexeme.Shape .gap w rest) :
    Idle (before ++ w) (margin ++ w) rest prev := by
  obtain ⟨lines, rfl, hstart, -, hmargin, hclear⟩ := h
  -- With a comment in the margin a line break would come next, and no gap begins with one.
  have hgaps : ∀ c ∈ margin, Lexeme.isGap c = true := by
    rcases hmargin with hgaps | hends
    · exact hgaps
    · cases hshape with
      | blank hw hblank =>
        cases w with
        | nil => exact absurd rfl hw
        | cons c w =>
          obtain rfl : c = '\n' := hends c rfl
          cases hblank '\n' (List.mem_cons_self)
      | comment _ _ => cases hends '#' rfl
  refine ⟨lines, by simp, hstart, ?_, ?_, hclear⟩
  · cases hshape with
    | blank _ hblank =>
      apply BlankLine.blank
      intro c hc
      exact (List.mem_append.mp hc).elim (hgaps c) (hblank c)
    | comment hbody _ => exact .comment hgaps hbody
  · cases hshape with
    | blank _ hblank =>
      left
      intro c hc
      exact (List.mem_append.mp hc).elim (hgaps c) (hblank c)
    | comment _ hends => exact .inr hends

end Idle

namespace Layout

/-- What is known of the layout between two lexemes, with `before` read into the tokens `prev`. -/
structure Stands (st : Layout) (before : List Char) (prev : List Token) (rest : List Char) :
    Prop where
  offset_eq : st.offset = byteLength before
  placed : Placed before prev
  opens : Opens st.opened (prev.map (·.kind))
  idle : st.fresh = true → Idle before st.margin rest prev

theorem Leads.not_inked {st : Layout} {lead : List Token} {blocks : List Nat}
    (h : Leads st lead blocks) : ∀ t ∈ lead, t.kind.isInked = false := by
  intro t ht
  cases h with
  | within _ => cases ht
  | indent _ =>
    obtain rfl := List.mem_singleton.mp ht
    rfl
  | dedents _ _ =>
    obtain ⟨-, rfl⟩ := List.mem_replicate.mp ht
    rfl

variable {st st' : Layout} {before rest : List Char} {prev out ts : List Token} {l : Lexeme}
  {ls : List Lexeme}

/-- **One lexeme keeps what is known.** -/
theorem Stands.step (h : Stands st before prev (l.text ++ rest))
    (hshape : Lexeme.Shape l.role l.text rest) (hstep : Steps st l out st') :
    Stands st' (before ++ l.text) (prev ++ out) rest := by
  have hoffset : st.offset + byteLength l.text = byteLength (before ++ l.text) := by
    rw [h.offset_eq, byteLength_append]
  have hskip : Placed (before ++ l.text) prev := h.placed.skip l.text
  cases hstep with
  | gap hrole =>
    rw [hrole] at hshape
    rw [List.append_nil]
    refine ⟨hoffset, hskip, h.opens, ?_⟩
    intro hfresh
    exact (h.idle hfresh).gap hshape
  | join hrole =>
    rw [hrole] at hshape
    rw [List.append_nil]
    refine ⟨hoffset, hskip, h.opens, ?_⟩
    intro _
    exact .start hskip (startsLine_append before hshape.getLast?_join)
  | skip hrole _ =>
    rw [hrole] at hshape
    rw [List.append_nil]
    refine ⟨hoffset, hskip, h.opens, ?_⟩
    intro _
    exact .start hskip (startsLine_append before hshape.getLast?_lineBreak)
  | newline hrole _ _ =>
    rw [hrole] at hshape
    have hplaced := h.placed.token (k := .newline) hshape.ne_nil hshape.lineBreak_eq
    rw [← h.offset_eq] at hplaced
    refine ⟨hoffset, hplaced, ?_, ?_⟩
    · rw [List.map_append]
      exact h.opens.step rfl
    · intro _
      exact .start hplaced (startsLine_append before hshape.getLast?_lineBreak)
  | @token k lead blocks brackets hrole hlead hnest =>
    rw [hrole] at hshape
    have hled := hlead.not_inked
    have hplaced := (h.placed.lead hled).token hshape.ne_nil hshape.token_spec.2
    rw [← h.offset_eq, List.append_assoc] at hplaced
    refine ⟨hoffset, hplaced, ?_, ?_⟩
    · have hkinds : Nested (lead.map (·.kind)) := by
        apply nested_of_not_inked
        intro k hk
        obtain ⟨t, ht, rfl⟩ := List.mem_map.mp hk
        exact hled t ht
      rw [List.map_append, List.map_append, ← List.append_assoc]
      exact (h.opens.append hkinds).step (nest?_of_nestBrackets hnest)
    · intro hfresh
      cases hfresh

/-- What is known at the end of the text, and the tokens that were added there. -/
theorem Stands.run (h : Stands st before prev rest) (hsplits : Lexeme.Splits rest ls)
    (hrun : st.run ls = .ok ts) :
    ∃ st' read final, ts = read ++ final ∧ st'.finish = .ok final ∧
      Stands st' (before ++ rest) (prev ++ read) [] := by
  induction hsplits generalizing st before prev ts with
  | nil => exact ⟨st, [], ts, rfl, hrun, by simpa using h⟩
  | @cons l rest ls hshape _ ih =>
    obtain ⟨out, st₁, more, hstep, hmore, rfl⟩ := run_cons_eq_ok hrun
    obtain ⟨st', read, final, rfl, hfinish, hend⟩ := ih (h.step hshape hstep) hmore
    refine ⟨st', out ++ read, final, by simp, hfinish, ?_⟩
    simpa using hend

theorem spec_of_finish (h : st.finish = .ok ts) {t : Token} (ht : t ∈ ts) :
    t.span.offset = st.offset ∧ (t.kind.isInked = true → t.kind = .newline) := by
  obtain ⟨-, rfl⟩ := finish_eq_ok h
  rw [List.append_assoc, List.mem_append, List.mem_append] at ht
  rcases ht with ht | ht | ht
  · split at ht
    · cases ht
    · obtain rfl := List.mem_singleton.mp ht
      exact ⟨rfl, fun _ => rfl⟩
  · obtain ⟨-, rfl⟩ := List.mem_replicate.mp ht
    exact ⟨rfl, nofun⟩
  · obtain rfl := List.mem_singleton.mp ht
    exact ⟨rfl, nofun⟩

theorem written_append_final {text : List Char} {read : List Token} (h : st.finish = .ok ts)
    (hoffset : st.offset = byteLength text) : written text (read ++ ts) = written text read := by
  rw [written, written, List.filter_append, List.append_right_eq_self, List.filter_eq_nil_iff]
  intro t ht hwritten
  obtain ⟨hend, hnewline⟩ := spec_of_finish h ht
  have hkind := hnewline (Token.isInked_of_isWritten hwritten)
  rw [Token.isWritten, hkind, hend, hoffset] at hwritten
  simp at hwritten

theorem Steps.offset_eq (h : Steps st l out st') : st'.offset = st.offset + byteLength l.text := by
  cases h <;> rfl

theorem Steps.span_eq (h : Steps st l out st') {t : Token} (ht : t ∈ out)
    (hink : t.kind.isInked = true) :
    t.span = { offset := st.offset, length := byteLength l.text } := by
  cases h with
  | gap _ => cases ht
  | join _ => cases ht
  | skip _ _ => cases ht
  | newline _ _ _ =>
    obtain rfl := List.mem_singleton.mp ht
    rfl
  | token _ hlead _ =>
    rcases List.mem_append.mp ht with ht | ht
    · rw [hlead.not_inked t ht] at hink
      cases hink
    · obtain rfl := List.mem_singleton.mp ht
      rfl

/-- Tokens are written where the text is read, or further on. -/
theorem offset_le_of_run (hrun : st.run ls = .ok ts) {t : Token} (ht : t ∈ ts)
    (hink : t.kind.isInked = true) : st.offset ≤ t.span.offset := by
  induction ls generalizing st ts with
  | nil =>
    exact (spec_of_finish hrun ht).1.ge
  | cons l ls ih =>
    obtain ⟨out, st', more, hstep, hmore, rfl⟩ := run_cons_eq_ok hrun
    rcases List.mem_append.mp ht with ht | ht
    · rw [hstep.span_eq ht hink]
    · have hle := ih hmore ht
      have hoffset := hstep.offset_eq
      omega

/-! ## The lexeme at a byte -/

section Here

variable {text : List Char} {more : List Token} {start stop i : Nat}

theorem clear_of_run (text : List Char)
    (hprev : ∀ t ∈ prev, t.kind.isInked = true → t.span.stop ≤ start)
    (hmore : st.run ls = .ok more) (hstop : stop ≤ st.offset) :
    Clear (written text (prev ++ more)) start stop := by
  intro t ht
  obtain ⟨ht, hwritten⟩ := List.mem_filter.mp ht
  have hink := Token.isInked_of_isWritten hwritten
  rcases List.mem_append.mp ht with ht | ht
  · exact .inl (hprev t ht hink)
  · exact .inr (hstop.trans (offset_le_of_run hmore ht hink))

theorem skipped_of_gap {ws : List Token} {w : List Char} (h : Lexeme.Shape .gap w rest) :
    Skipped ts ws before w rest := by
  cases h with
  | blank _ hgaps => exact .blank hgaps
  | comment hbody hends => exact .comment hbody hends

theorem skipped_of_join {ws : List Token} {w : List Char} (h : Lexeme.Shape .join w rest) :
    Skipped ts ws before w rest := by
  cases h with
  | join hw => exact .join hw

/-- Where brackets are open, the innermost has a partner on each side. -/
theorem enclosed_of_opens {b : Bracket} {bs : List Bracket}
    (hopens : Opens (b :: bs) (prev.map (·.kind)))
    (hnest : nestAll [] ((prev ++ more).map (·.kind)) = some [])
    (hprev : ∀ t ∈ prev, t.kind.isInked = true → t.span.stop ≤ i)
    (hmore : ∀ t ∈ more, t.kind.isInked = true → i < t.span.offset) :
    Enclosed (prev ++ more) i := by
  rw [List.map_append, nestAll_append, hopens.nestAll_eq] at hnest
  have hcloses := closes_of_nestAll hnest
  -- Looking back, the stack gives the bracket; looking on, what closes the stack gives its partner.
  generalize hpk : prev.map (·.kind) = pk at hopens
  generalize hmk : more.map (·.kind) = mk at hcloses
  cases hopens with
  | opened _ hinner =>
  cases hcloses with
  | close hinner' _ =>
  obtain ⟨outer, tail, rfl, -, htail⟩ := List.map_eq_append_iff.mp hpk
  obtain ⟨opener, inner, rfl, hopener, rfl⟩ := List.map_eq_cons_iff.mp htail
  obtain ⟨inner', tail', rfl, rfl, htail'⟩ := List.map_eq_append_iff.mp hmk
  obtain ⟨closer, rest, rfl, hcloser, -⟩ := List.map_eq_cons_iff.mp htail'
  refine ⟨outer, opener, inner ++ inner', closer, rest, b, by simp, hopener, hcloser, ?_, ?_, ?_⟩
  · rw [List.map_append]
    exact hinner.append hinner'
  · exact hprev opener (by simp) (by rw [hopener]; rfl)
  · exact hmore closer (by simp) (by rw [hcloser]; rfl)

/-- A line break that ends no logical line is inside brackets or on a line without a token. -/
theorem Stands.skipped_lineBreak (h : Stands st before prev rest)
    (hwhy : st.brackets ≠ [] ∨ st.fresh = true) (hmore : st'.run ls = .ok more)
    (hpast : byteLength before < st'.offset)
    (hnest : nestAll [] ((prev ++ more).map (·.kind)) = some []) {after : List Char} :
    Skipped (prev ++ more) (written text (prev ++ more)) before ['\n'] after := by
  rcases hwhy with hbrackets | hfresh
  · apply Skipped.enclosed
    have hopens := h.opens
    cases hopened : st.brackets with
    | nil => exact absurd hopened hbrackets
    | cons entry entries =>
      rw [opened, hopened, List.map_cons] at hopens
      apply enclosed_of_opens hopens hnest
      · intro t ht hink
        exact h.placed.stop_le ht hink
      · intro t ht hink
        exact hpast.trans_le (offset_le_of_run hmore ht hink)
  · obtain ⟨lines, hbefore, hline, hblank, -, hclear⟩ := h.idle hfresh
    have hfree := clear_of_run text hclear hmore hpast.le
    rw [hbefore] at hfree ⊢
    exact .blankLine hline hblank hfree

theorem covered_of_token (k : Kind) (hoffset : st.offset = byteLength before)
    (hk : k.isInked = true) (hw : l.text ≠ [])
    (hmem : { kind := k, span := { offset := st.offset, length := byteLength l.text } } ∈ ts)
    (hstart : byteLength before ≤ i) (hstop : i < byteLength (before ++ l.text)) :
    Covered (before ++ (l.text ++ rest)) ts i := by
  have hpos := byteLength_pos hw
  rw [byteLength_append] at hstop
  have hne : (st.offset == byteLength (before ++ (l.text ++ rest))) = false := by
    rw [beq_eq_false_iff_ne, byteLength_append, byteLength_append]
    omega
  have hwritten : Token.isWritten (byteLength (before ++ (l.text ++ rest)))
      { kind := k, span := { offset := st.offset, length := byteLength l.text } } = true := by
    simp only [Token.isWritten, hk, hne, Bool.and_false, Bool.not_false, Bool.and_self]
  refine .inl ⟨_, List.mem_filter.mpr ⟨hmem, hwritten⟩, ?_, ?_⟩
  · exact hoffset ▸ hstart
  · show i < st.offset + byteLength l.text
    omega

theorem Stands.covered_of_step (h : Stands st before prev (l.text ++ rest))
    (hshape : Lexeme.Shape l.role l.text rest) (hstep : Steps st l out st')
    (hmore : st'.run ls = .ok more)
    (hnest : nestAll [] ((prev ++ (out ++ more)).map (·.kind)) = some [])
    (hstart : byteLength before ≤ i) (hstop : i < byteLength (before ++ l.text)) :
    Covered (before ++ (l.text ++ rest)) (prev ++ (out ++ more)) i := by
  have hoffset : byteLength (before ++ l.text) ≤ st'.offset := by
    rw [hstep.offset_eq, h.offset_eq, byteLength_append]
  have hprev : ∀ t ∈ prev, t.kind.isInked = true → t.span.stop ≤ byteLength before :=
    fun t ht hink => h.placed.stop_le ht hink
  -- Where the lexeme gives no token, it is the stretch that is skipped.
  have hskip : out = [] →
      Skipped (prev ++ more) (written (before ++ (l.text ++ rest)) (prev ++ more))
        before l.text rest →
      Covered (before ++ (l.text ++ rest)) (prev ++ (out ++ more)) i := by
    rintro rfl hskipped
    exact .inr ⟨before, l.text, rest, by simp, hstart, hstop, hskipped,
      clear_of_run _ hprev hmore hoffset⟩
  cases hstep with
  | gap hrole =>
    rw [hrole] at hshape
    exact hskip rfl (skipped_of_gap hshape)
  | join hrole =>
    rw [hrole] at hshape
    exact hskip rfl (skipped_of_join hshape)
  | skip hrole hwhy =>
    rw [hrole] at hshape
    have hpast : byteLength before < st.offset + byteLength l.text := by
      have hpos := byteLength_pos hshape.ne_nil
      have hhere := h.offset_eq
      omega
    apply hskip rfl
    nth_rewrite 2 [hshape.lineBreak_eq]
    exact h.skipped_lineBreak hwhy hmore hpast hnest
  | newline hrole _ _ =>
    rw [hrole] at hshape
    exact covered_of_token .newline h.offset_eq rfl hshape.ne_nil (by simp) hstart hstop
  | @token k lead blocks brackets hrole _ _ =>
    rw [hrole] at hshape
    exact covered_of_token k h.offset_eq (Kind.isInked_of_not_isLayout hshape.token_spec.1)
      hshape.ne_nil (by simp) hstart hstop

theorem Stands.covered_of_run (h : Stands st before prev rest) (hsplits : Lexeme.Splits rest ls)
    (hrun : st.run ls = .ok ts) (hnest : nestAll [] ((prev ++ ts).map (·.kind)) = some [])
    (hstart : byteLength before ≤ i) (hstop : i < byteLength (before ++ rest)) :
    Covered (before ++ rest) (prev ++ ts) i := by
  induction hsplits generalizing st before prev ts with
  | nil =>
    rw [List.append_nil] at hstop
    omega
  | @cons l rest ls hshape _ ih =>
    obtain ⟨out, st', more, hstep, hmore, rfl⟩ := run_cons_eq_ok hrun
    by_cases hhere : i < byteLength (before ++ l.text)
    · exact h.covered_of_step hshape hstep hmore hnest hstart hhere
    · rw [← List.append_assoc] at hstop hnest ⊢
      rw [← List.append_assoc]
      exact ih (h.step hshape hstep) hmore hnest (Nat.le_of_not_lt hhere) hstop

end Here

end Layout

theorem Layout.stands_start (text : List Char) : Layout.Stands {} [] [] text := by
  have hplaced : Placed [] [] :=
    { ordered := .nil
      spelled := fun t ht _ => absurd ht List.not_mem_nil }
  exact
    { offset_eq := rfl
      placed := hplaced
      opens := .start .nil
      idle := fun _ => .start hplaced nofun }

/-- **The tokens of a text lose nothing of it.** -/
theorem tokenize_lossless {source : String} {ts : List Token} (h : tokenize source = .ok ts) :
    Lossless source.toList ts := by
  have hsplits := Lexeme.splits_split source.toList
  have hstart := Layout.stands_start source.toList
  obtain ⟨-, -, -, -, hnest⟩ := (laid_of_tokenize h).ends
  have hcovered : ∀ i, i < byteLength source.toList → Covered source.toList ts i :=
    fun i hi => hstart.covered_of_run hsplits h hnest (Nat.zero_le i) hi
  obtain ⟨st, read, final, rfl, hfinish, hend⟩ := hstart.run hsplits h
  rw [List.nil_append, List.nil_append] at hend
  have hspelled : ∀ t ∈ written source.toList (read ++ final), t.SpelledIn source.toList := by
    intro t ht
    rw [Layout.written_append_final hfinish hend.offset_eq] at ht
    exact hend.placed.spelled_written ht
  exact
    { inside := fun t ht => (hspelled t ht).inside
      ordered := by
        rw [Layout.written_append_final hfinish hend.offset_eq]
        exact hend.placed.ordered_written
      spelled := hspelled
      covered := hcovered }

/-- The text breaks inside the brackets of the call and on an empty line, and not at its end. -/
theorem tokenize_lossless_block :
    tokenize blockText = .ok blockTokens ∧ Lossless blockText.toList blockTokens :=
  ⟨tokenize_blockText, tokenize_lossless tokenize_blockText⟩

end FieldView
