import FieldView.Proofs.Token.Nesting
import FieldView.Proofs.Token.Spelling

/-!
# The grammar of token streams

The tokens of a text follow a small grammar, whatever the text is. `Laid` gives it by rules over the
kinds alone, with what has to be remembered on the way: the token before, how many blocks are open,
and which brackets. Every run of the layout produces such a stream (`laid_of_run`).

What holds at one place of a stream is read off by cutting it there (`Laid.cut`): the rest is laid
again, after as many blocks and with the same brackets as the part before it leaves open.
-/

set_option autoImplicit false

namespace FieldView

namespace Layout

/-! ## One lexeme -/

/-- The tokens before the first token of a logical line, and the blocks open after them. Inside a
line there are none. -/
inductive Leads (st : Layout) : List Token → List Nat → Prop
  | within : st.fresh = false → Leads st [] st.blocks
  | indent {width : Nat} : st.fresh = true →
      Leads st [{ kind := .indent, span := st.marginSpan }] (width :: st.blocks)
  | dedents {n : Nat} {blocks : List Nat} : st.fresh = true →
      blocks.length + n = st.blocks.length →
      Leads st (List.replicate n { kind := .dedent, span := st.marginSpan }) blocks

/-- What one lexeme can do. -/
inductive Steps (st : Layout) (l : Lexeme) : List Token → Layout → Prop
  | gap : l.role = .gap → Steps st l []
      { st with offset := st.offset + byteLength l.text, margin := st.margin ++ l.text }
  | join : l.role = .join → Steps st l []
      { st with offset := st.offset + byteLength l.text, margin := [] }
  | skip : l.role = .lineBreak → st.brackets ≠ [] ∨ st.fresh = true → Steps st l []
      { st with offset := st.offset + byteLength l.text, margin := [] }
  | newline : l.role = .lineBreak → st.brackets = [] → st.fresh = false →
      Steps st l
        [{ kind := .newline, span := { offset := st.offset, length := byteLength l.text } }]
        { st with offset := st.offset + byteLength l.text, margin := [], fresh := true }
  | token {k : Kind} {lead : List Token} {blocks : List Nat} {brackets : List (Bracket × Span)} :
      l.role = .token k → Leads st lead blocks →
      nestBrackets st.brackets
        { kind := k, span := { offset := st.offset, length := byteLength l.text } } = .ok brackets →
      Steps st l
        (lead ++ [{ kind := k, span := { offset := st.offset, length := byteLength l.text } }])
        { offset := st.offset + byteLength l.text, margin := [], fresh := false, blocks, brackets }

theorem bind_eq_ok {ε α β : Type} {x : Except ε α} {f : α → Except ε β} {b : β} :
    (x >>= f) = .ok b ↔ ∃ a, x = .ok a ∧ f a = .ok b := by
  cases x with
  | error e => simp [bind, Except.bind]
  | ok a => simp [bind, Except.bind]

theorem eq_ok_of_toOption {ε α : Type} {x : Except ε α} {a : α} (h : x.toOption = some a) :
    x = .ok a := by
  cases x with
  | error e => cases h
  | ok b =>
    cases h
    rfl

theorem length_closeBlocks (width : Nat) (ws : List Nat) :
    (closeBlocks width ws).2.length + (closeBlocks width ws).1 = ws.length := by
  induction ws with
  | nil => rfl
  | cons w ws ih =>
    rw [closeBlocks]
    split
    · simp only [List.length_cons]
      omega
    · rfl

theorem leads_of_indentLine {st : Layout} {lead : List Token} {blocks : List Nat}
    (hfresh : st.fresh = true) (h : st.indentLine = .ok (lead, blocks)) : Leads st lead blocks := by
  unfold indentLine at h
  simp only at h
  split at h
  · cases h
  split at h
  · cases h
    exact .indent hfresh
  split at h
  · cases h
    exact .dedents hfresh (length_closeBlocks _ _)
  · cases h

theorem steps_of_step {st st' : Layout} {l : Lexeme} {out : List Token}
    (h : st.step l = .ok (out, st')) : Steps st l out st' := by
  unfold step at h
  cases hr : l.role with
  | gap =>
    simp only [hr] at h
    cases h
    exact .gap hr
  | join =>
    simp only [hr] at h
    cases h
    exact .join hr
  | lineBreak =>
    simp only [hr] at h
    split at h
    · next hends =>
      cases h
      simp only [Bool.and_eq_true, List.isEmpty_iff, Bool.not_eq_true'] at hends
      exact .newline hr hends.1 hends.2
    · next hgoes =>
      cases h
      refine .skip hr ?_
      by_contra hno
      apply hgoes
      push Not at hno
      simp [hno.1, hno.2]
  | badInteger =>
    simp only [hr] at h
    cases h
  | broken =>
    simp only [hr] at h
    cases h
  | stray =>
    simp only [hr] at h
    cases h
  | token k =>
    simp only [hr] at h
    split at h
    · next hfresh =>
      obtain ⟨⟨lead, blocks⟩, hlead, h⟩ := bind_eq_ok.mp h
      obtain ⟨brackets, hnest, h⟩ := bind_eq_ok.mp h
      cases h
      exact .token hr (leads_of_indentLine hfresh hlead) hnest
    · next hwithin =>
      obtain ⟨⟨lead, blocks⟩, hlead, h⟩ := bind_eq_ok.mp h
      cases hlead
      obtain ⟨brackets, hnest, h⟩ := bind_eq_ok.mp h
      cases h
      exact .token hr (.within (Bool.eq_false_iff.mpr hwithin)) hnest

theorem run_cons_eq_ok {st : Layout} {l : Lexeme} {ls : List Lexeme} {ts : List Token}
    (h : st.run (l :: ls) = .ok ts) :
    ∃ out st' more, Steps st l out st' ∧ st'.run ls = .ok more ∧ ts = out ++ more := by
  obtain ⟨⟨out, st'⟩, hstep, h⟩ := bind_eq_ok.mp h
  obtain ⟨more, hmore, h⟩ := bind_eq_ok.mp h
  cases h
  exact ⟨out, st', more, steps_of_step hstep, hmore, rfl⟩

theorem finish_eq_ok {st : Layout} {ts : List Token} (h : st.finish = .ok ts) :
    let span : Span := { offset := st.offset, length := 0 }
    st.brackets = [] ∧
    ts = (if st.fresh then [] else [{ kind := .newline, span }]) ++
      List.replicate st.blocks.length { kind := .dedent, span } ++ [{ kind := .eof, span }] := by
  unfold finish at h
  cases hb : st.brackets with
  | cons b bs =>
    simp only [hb] at h
    cases h
  | nil =>
    simp only [hb] at h
    cases h
    exact ⟨rfl, rfl⟩

/-- The kinds of the open brackets, innermost first. -/
def opened (st : Layout) : List Bracket := st.brackets.map (·.1)

theorem nest?_of_nestBrackets {brackets brackets' : List (Bracket × Span)} {t : Token}
    (h : nestBrackets brackets t = .ok brackets') :
    nest? (brackets.map (·.1)) t.kind = some (brackets'.map (·.1)) := by
  unfold nestBrackets at h
  cases hk : t.kind with
  | opening b =>
    simp only [hk] at h
    cases h
    rfl
  | closing b =>
    simp only [hk] at h
    cases brackets with
    | nil => cases h
    | cons entry rest =>
      simp only at h
      split at h
      · next heq =>
        cases h
        rw [nest?_closing_eq_some, List.map_cons, heq]
      · cases h
  | _ =>
    simp only [hk] at h
    cases h
    rfl

end Layout

/-! ## The grammar -/

/-- Token streams to the end of a text. `prev` is the token before, `depth` the number of open
blocks, and the list holds the open brackets. -/
inductive Laid : Option Kind → Nat → List Bracket → List Kind → Prop
  | eof {prev : Option Kind} :
      prev = none ∨ prev = some .newline ∨ prev = some .dedent → Laid prev 0 [] [.eof]
  | newline {k : Kind} {depth : Nat} {ks : List Kind} : k.isLayout = false →
      Laid (some .newline) depth [] ks → Laid (some k) depth [] (.newline :: ks)
  | indent {prev : Option Kind} {depth : Nat} {ks : List Kind} :
      prev = none ∨ prev = some .newline →
      Laid (some .indent) (depth + 1) [] ks → Laid prev depth [] (.indent :: ks)
  | dedent {prev : Option Kind} {depth : Nat} {ks : List Kind} :
      prev = some .newline ∨ prev = some .dedent →
      Laid (some .dedent) depth [] ks → Laid prev (depth + 1) [] (.dedent :: ks)
  | text {prev : Option Kind} {depth : Nat} {bs bs' : List Bracket} {k : Kind} {ks : List Kind} :
      k.isLayout = false → nest? bs k = some bs' →
      Laid (some k) depth bs' ks → Laid prev depth bs (k :: ks)

namespace Laid

variable {prev : Option Kind} {depth : Nat} {bs : List Bracket} {k : Kind} {ks pre post : List Kind}

/-- Blocks may be closed one after another if the first is closed at the start of a line. -/
theorem dedents {n : Nat} (hprev : n = 0 ∨ prev = some .newline ∨ prev = some .dedent)
    (hfew : n = 0 → Laid prev depth [] ks) (hmany : Laid (some .dedent) depth [] ks) :
    Laid prev (depth + n) [] (List.replicate n .dedent ++ ks) := by
  induction n generalizing prev with
  | zero => exact hfew rfl
  | succ n ih =>
    have hstart : prev = some .newline ∨ prev = some .dedent := by
      rcases hprev with hzero | hprev
      · cases hzero
      · exact hprev
    exact .dedent hstart (ih (.inr (.inr rfl)) fun _ => hmany)

theorem count_text (hk : k.isLayout = false) (ks : List Kind) :
    (k :: ks).count .indent = ks.count .indent ∧ (k :: ks).count .dedent = ks.count .dedent := by
  constructor
  · apply List.count_cons_of_ne
    rintro rfl
    cases hk
  · apply List.count_cons_of_ne
    rintro rfl
    cases hk

/-- A stream goes on as one from any place in it. -/
theorem cut (h : Laid prev depth bs (pre ++ k :: post)) :
    ∃ depth' bs', depth' + pre.count .dedent = depth + pre.count .indent ∧
      nestAll bs pre = some bs' ∧ Laid (pre.getLast?.or prev) depth' bs' (k :: post) := by
  induction pre generalizing prev depth bs with
  | nil => exact ⟨depth, bs, rfl, rfl, h⟩
  | cons a pre ih =>
    -- The token before the cut is now `a` or comes after it, and no longer `prev`.
    have hlast : (a :: pre).getLast?.or prev = pre.getLast?.or (some a) := by
      cases pre with
      | nil => rfl
      | cons b pre => simp [List.getLast?_cons]
    rw [hlast]
    generalize hwhole : a :: pre ++ k :: post = whole at h
    cases h with
    | eof hprev =>
      have hlength := congrArg List.length hwhole
      simp at hlength
    | newline hk hrest =>
      obtain ⟨rfl, rfl⟩ := List.cons.inj hwhole
      obtain ⟨depth', bs', hdepth, hbs, hlaid⟩ := ih hrest
      refine ⟨depth', bs', ?_, hbs, hlaid⟩
      simpa using hdepth
    | indent hprev hrest =>
      obtain ⟨rfl, rfl⟩ := List.cons.inj hwhole
      obtain ⟨depth', bs', hdepth, hbs, hlaid⟩ := ih hrest
      refine ⟨depth', bs', ?_, hbs, hlaid⟩
      simp
      omega
    | dedent hprev hrest =>
      obtain ⟨rfl, rfl⟩ := List.cons.inj hwhole
      obtain ⟨depth', bs', hdepth, hbs, hlaid⟩ := ih hrest
      refine ⟨depth', bs', ?_, hbs, hlaid⟩
      simp
      omega
    | text hk hnest hrest =>
      obtain ⟨rfl, rfl⟩ := List.cons.inj hwhole
      obtain ⟨depth', bs', hdepth, hbs, hlaid⟩ := ih hrest
      obtain ⟨hindents, hdedents⟩ := count_text hk pre
      refine ⟨depth', bs', ?_, ?_, hlaid⟩
      · rw [hindents, hdedents]
        exact hdepth
      · rw [nestAll, hnest]
        exact hbs

/-- The end of a stream is its only end, with all blocks and brackets closed. -/
theorem ends (h : Laid prev depth bs ks) :
    ∃ body, ks = body ++ [.eof] ∧ .eof ∉ body ∧
      ks.count .dedent = depth + ks.count .indent ∧ nestAll bs ks = some [] := by
  induction h with
  | eof hprev => exact ⟨[], rfl, List.not_mem_nil, rfl, rfl⟩
  | newline hk _ ih =>
    obtain ⟨body, rfl, hbody, hcount, hnest⟩ := ih
    refine ⟨.newline :: body, rfl, ?_, ?_, hnest⟩
    · simpa using hbody
    · simpa using hcount
  | indent hprev _ ih =>
    obtain ⟨body, rfl, hbody, hcount, hnest⟩ := ih
    refine ⟨.indent :: body, rfl, ?_, ?_, hnest⟩
    · simpa using hbody
    · simp at hcount ⊢
      omega
  | dedent hprev _ ih =>
    obtain ⟨body, rfl, hbody, hcount, hnest⟩ := ih
    refine ⟨.dedent :: body, rfl, ?_, ?_, hnest⟩
    · simpa using hbody
    · simp at hcount ⊢
      omega
  | @text _ _ _ _ k ks hk hnest _ ih =>
    obtain ⟨body, rfl, hbody, hcount, hrest⟩ := ih
    obtain ⟨hindents, hdedents⟩ := count_text hk (body ++ [.eof])
    refine ⟨k :: body, rfl, ?_, ?_, ?_⟩
    · rintro (_ | ⟨_, hmem⟩)
      · cases hk
      · exact hbody hmem
    · rw [hindents, hdedents]
      exact hcount
    · rw [nestAll, hnest]
      exact hrest

/-- No line ends and no block begins or ends where a bracket is open. -/
theorem isLayout_eq_false (h : Laid prev depth bs (k :: post)) (hbs : bs ≠ []) :
    k.isLayout = false := by
  cases h with
  | text hk _ _ => exact hk
  | _ => exact absurd rfl hbs

/-- What a token of the layout directly follows. -/
theorem head (h : Laid prev depth bs (k :: post)) :
    (k = .newline → ∃ p, prev = some p ∧ p.isLayout = false) ∧
    (k = .indent → prev = none ∨ prev = some .newline) ∧
    (k = .dedent → prev = some .newline ∨ prev = some .dedent) ∧
    (k = .eof → prev = none ∨ prev = some .newline ∨ prev = some .dedent) := by
  cases h with
  | eof hprev => simp [hprev]
  | newline hk _ => simp [hk]
  | indent hprev _ => simp [hprev]
  | dedent hprev _ => simp [hprev]
  | text hk _ _ =>
    refine ⟨?_, ?_, ?_, ?_⟩ <;>
    · rintro rfl
      cases hk

end Laid

namespace Layout

/-- What the token before a lexeme can be: nothing at the start of the text, the end of a line where
the next one is fresh, and elsewhere a token with a text. -/
inductive Follows (st : Layout) : Option Kind → Prop
  | start : st.fresh = true → st.brackets = [] → st.blocks = [] → Follows st none
  | line : st.fresh = true → st.brackets = [] → Follows st (some .newline)
  | text {k : Kind} : st.fresh = false → k.isLayout = false → Follows st (some k)

theorem Follows.congr {st st' : Layout} {prev : Option Kind} (h : Follows st prev)
    (hfresh : st'.fresh = st.fresh) (hblocks : st'.blocks = st.blocks)
    (hbrackets : st'.brackets = st.brackets) : Follows st' prev := by
  cases h with
  | start hf hb hw => exact .start (hfresh.trans hf) (hbrackets.trans hb) (hblocks.trans hw)
  | line hf hb => exact .line (hfresh.trans hf) (hbrackets.trans hb)
  | text hf hk => exact .text (hfresh.trans hf) hk

variable {st st' : Layout} {prev : Option Kind} {l : Lexeme} {rest : List Char}
  {lead out ts : List Token} {blocks : List Nat} {ks : List Kind}

theorem Follows.of_fresh (h : Follows st prev) (hfresh : st.fresh = true) :
    st.opened = [] ∧ (prev = none ∧ st.blocks = [] ∨ prev = some .newline) := by
  cases h with
  | start _ hb hw => exact ⟨congrArg (List.map _) hb, .inl ⟨rfl, hw⟩⟩
  | line _ hb => exact ⟨congrArg (List.map _) hb, .inr rfl⟩
  | text hf _ =>
    rw [hfresh] at hf
    cases hf

/-- The first token of a line comes behind the blocks that it opens or closes. -/
theorem Leads.laid (h : Leads st lead blocks) (hprev : Follows st prev)
    (hks : ∀ p, Laid p blocks.length st.opened ks) :
    Laid prev st.blocks.length st.opened (lead.map (·.kind) ++ ks) := by
  cases h with
  | within _ => exact hks prev
  | indent hfresh =>
    obtain ⟨hopened, hstart⟩ := hprev.of_fresh hfresh
    rw [hopened] at hks ⊢
    refine .indent ?_ (hks _)
    rcases hstart with ⟨rfl, -⟩ | rfl
    · exact .inl rfl
    · exact .inr rfl
  | @dedents n _ hfresh hlength =>
    obtain ⟨hopened, hstart⟩ := hprev.of_fresh hfresh
    rw [hopened] at hks ⊢
    rw [← hlength, List.map_replicate]
    refine .dedents ?_ (fun _ => hks _) (hks _)
    rcases hstart with ⟨-, hblocks⟩ | rfl
    · rw [hblocks, List.length_nil] at hlength
      exact .inl (by omega)
    · exact .inr (.inl rfl)

/-- What stands before the rest of a stream when one lexeme has been read. -/
theorem Steps.laid (h : Steps st l out st') (hshape : Lexeme.Shape l.role l.text rest)
    (hprev : Follows st prev) :
    ∃ prev', Follows st' prev' ∧
      ∀ ks, Laid prev' st'.blocks.length st'.opened ks →
        Laid prev st.blocks.length st.opened (out.map (·.kind) ++ ks) := by
  cases h with
  | gap _ => exact ⟨prev, hprev.congr rfl rfl rfl, fun ks hks => hks⟩
  | join _ => exact ⟨prev, hprev.congr rfl rfl rfl, fun ks hks => hks⟩
  | skip _ _ => exact ⟨prev, hprev.congr rfl rfl rfl, fun ks hks => hks⟩
  | newline _ hbrackets hfresh =>
    have hopened : st.opened = [] := congrArg (List.map _) hbrackets
    refine ⟨some .newline, .line rfl hbrackets, ?_⟩
    intro ks hks
    cases hprev with
    | start hf _ _ =>
      rw [hfresh] at hf
      cases hf
    | line hf _ =>
      rw [hfresh] at hf
      cases hf
    | text _ hk =>
      change Laid _ _ st.opened _ at hks
      rw [hopened] at hks ⊢
      exact .newline hk hks
  | @token k lead blocks brackets hrole hlead hnest =>
    rw [hrole] at hshape
    have hk : k.isLayout = false := hshape.token_spec.1
    refine ⟨some k, .text rfl hk, ?_⟩
    intro ks hks
    rw [List.map_append, List.append_assoc]
    exact hlead.laid hprev fun p => .text hk (nest?_of_nestBrackets hnest) hks

theorem laid_of_finish (h : st.finish = .ok ts) (hprev : Follows st prev) :
    Laid prev st.blocks.length st.opened (ts.map (·.kind)) := by
  obtain ⟨hbrackets, rfl⟩ := finish_eq_ok h
  have hopened : st.opened = [] := congrArg (List.map _) hbrackets
  -- Open blocks are closed where a line begins; at the very start of a text there are none.
  have hclose : ∀ p, (st.blocks.length = 0 ∧ p = none) ∨ p = some .newline →
      Laid p (0 + st.blocks.length) [] (List.replicate st.blocks.length .dedent ++ [.eof]) := by
    intro p hp
    refine .dedents ?_ (fun _ => .eof ?_) (.eof (.inr (.inr rfl)))
    · exact hp.imp And.left Or.inl
    · exact hp.imp And.right Or.inl
  rw [Nat.zero_add] at hclose
  rw [hopened, List.append_assoc, List.map_append, List.map_append, List.map_replicate]
  cases hprev with
  | start hfresh _ hblocks =>
    rw [if_pos hfresh]
    exact hclose none (.inl ⟨congrArg List.length hblocks, rfl⟩)
  | line hfresh _ =>
    rw [if_pos hfresh]
    exact hclose _ (.inr rfl)
  | text hfresh hk =>
    rw [if_neg (by simp [hfresh])]
    exact .newline hk (hclose _ (.inr rfl))

theorem laid_of_run {cs : List Char} {ls : List Lexeme} (hsplits : Lexeme.Splits cs ls)
    (h : st.run ls = .ok ts) (hprev : Follows st prev) :
    Laid prev st.blocks.length st.opened (ts.map (·.kind)) := by
  induction hsplits generalizing st prev ts with
  | nil => exact laid_of_finish h hprev
  | cons hshape _ ih =>
    obtain ⟨out, st', more, hstep, hmore, rfl⟩ := run_cons_eq_ok h
    obtain ⟨prev', hprev', hlaid⟩ := hstep.laid hshape hprev
    rw [List.map_append]
    exact hlaid _ (ih hmore hprev')

end Layout

/-! ## What the grammar says about one place -/

theorem laid_of_tokenize {source : String} {ts : List Token} (h : tokenize source = .ok ts) :
    Laid none 0 [] (ts.map (·.kind)) :=
  Layout.laid_of_run (Lexeme.splits_split source.toList) h (.start rfl rfl rfl)

/-- How the tokens of a text are laid out. -/
structure WellLaid (ks : List Kind) : Prop where
  /-- The stream ends once. -/
  ends : ∃ body, ks = body ++ [.eof] ∧ .eof ∉ body
  dedents_le : ∀ pre, pre <+: ks → pre.count .dedent ≤ pre.count .indent
  dedents_eq : ks.count .dedent = ks.count .indent
  nested : Nested ks
  /-- A logical line goes on inside brackets. -/
  enclosed : ∀ pre b inner post, ks = pre ++ .opening b :: (inner ++ .closing b :: post) →
    Nested inner → ∀ k ∈ inner, k.isLayout = false
  before_newline : ∀ pre post, ks = pre ++ .newline :: post →
    ∃ k, pre.getLast? = some k ∧ k.isLayout = false
  before_indent : ∀ pre post, ks = pre ++ .indent :: post →
    pre = [] ∨ pre.getLast? = some .newline
  before_dedent : ∀ pre post, ks = pre ++ .dedent :: post →
    pre.getLast? = some .newline ∨ pre.getLast? = some .dedent
  before_eof : ∀ pre post, ks = pre ++ .eof :: post →
    pre = [] ∨ pre.getLast? = some .newline ∨ pre.getLast? = some .dedent

namespace Laid

variable {ks pre post : List Kind} {k : Kind}

theorem head_after (h : Laid none 0 [] ks) (hks : ks = pre ++ k :: post) :
    ∃ depth bs, Laid pre.getLast? depth bs (k :: post) := by
  subst hks
  obtain ⟨depth, bs, -, -, hlaid⟩ := h.cut
  rw [Option.or_none] at hlaid
  exact ⟨depth, bs, hlaid⟩

theorem count_dedent_le (h : Laid none 0 [] ks) (hpre : pre <+: ks) :
    pre.count .dedent ≤ pre.count .indent := by
  obtain ⟨post, rfl⟩ := hpre
  cases post with
  | nil =>
    obtain ⟨-, -, -, hcount, -⟩ := h.ends
    rw [List.append_nil] at hcount
    omega
  | cons k post =>
    obtain ⟨depth, -, hcount, -, -⟩ := h.cut
    omega

theorem isLayout_eq_false_of_enclosed {b : Bracket} {inner : List Kind} (h : Laid none 0 [] ks)
    (hks : ks = pre ++ .opening b :: (inner ++ .closing b :: post)) (hinner : Nested inner)
    (hk : k ∈ inner) : k.isLayout = false := by
  obtain ⟨left, right, rfl⟩ := List.append_of_mem hk
  have hcut : ks = (pre ++ .opening b :: left) ++ k :: (right ++ .closing b :: post) := by
    rw [hks]
    simp
  rw [hcut] at h
  obtain ⟨depth, bs, -, hbs, hlaid⟩ := h.cut
  -- The bracket is still open at `k`, below those that the tokens between have opened.
  rw [nestAll_append] at hbs
  obtain ⟨mid, -, hbs⟩ := Option.bind_eq_some_iff.mp hbs
  obtain ⟨own, hown⟩ := hinner.nestAll_prefix (b :: mid)
  have hopen : bs = own ++ b :: mid := Option.some.inj (hbs.symm.trans hown)
  exact hlaid.isLayout_eq_false (by simp [hopen])

end Laid

/-- **The layout of the tokens of a text.** -/
theorem tokenize_wellLaid {source : String} {ts : List Token} (h : tokenize source = .ok ts) :
    WellLaid (ts.map (·.kind)) := by
  have hlaid := laid_of_tokenize h
  obtain ⟨body, hbody, hnot, hcount, hnest⟩ := hlaid.ends
  refine
    { ends := ⟨body, hbody, hnot⟩
      dedents_le := fun pre hpre => hlaid.count_dedent_le hpre
      dedents_eq := by simpa using hcount
      nested := nested_of_nestAll hnest
      enclosed := fun pre b inner post hks hinner k hk =>
        hlaid.isLayout_eq_false_of_enclosed hks hinner hk
      before_newline := ?_
      before_indent := ?_
      before_dedent := ?_
      before_eof := ?_ }
  · intro pre post hks
    obtain ⟨depth, bs, hhere⟩ := hlaid.head_after hks
    exact hhere.head.1 rfl
  · intro pre post hks
    obtain ⟨depth, bs, hhere⟩ := hlaid.head_after hks
    rw [← List.getLast?_eq_none_iff]
    exact hhere.head.2.1 rfl
  · intro pre post hks
    obtain ⟨depth, bs, hhere⟩ := hlaid.head_after hks
    exact hhere.head.2.2.1 rfl
  · intro pre post hks
    obtain ⟨depth, bs, hhere⟩ := hlaid.head_after hks
    rw [← List.getLast?_eq_none_iff]
    exact hhere.head.2.2.2 rfl

/-- A block with a call over two lines, a comment, an empty line and no line break at the end. -/
def blockText : String := "if a:\n  f(1, # c\n b)\n\n  g"

def blockTokens : List Token :=
  let token (kind : Kind) (offset length : Nat) : Token := { kind, span := { offset, length } }
  [token (.keyword .ifKw) 0 2, token (.ident "a") 3 1, token (.punct .colon) 4 1,
   token .newline 5 1, token .indent 6 2, token (.ident "f") 8 1, token (.opening .paren) 9 1,
   token (.int { radix := .decimal, digits := ['1'] }) 10 1, token (.punct .comma) 11 1,
   token (.ident "b") 18 1, token (.closing .paren) 19 1, token .newline 20 1,
   token (.ident "g") 24 1, token .newline 25 0, token .dedent 25 0, token .eof 25 0]

theorem tokenize_blockText : tokenize blockText = .ok blockTokens := by
  have hrun : (tokenize blockText).toOption = some blockTokens := by decide +kernel
  exact Layout.eq_ok_of_toOption hrun

/-- No line ends inside the call, where the text breaks, and the block ends with the text. -/
theorem tokenize_wellLaid_block :
    tokenize blockText = .ok blockTokens ∧ WellLaid (blockTokens.map (·.kind)) :=
  ⟨tokenize_blockText, tokenize_wellLaid tokenize_blockText⟩

end FieldView
