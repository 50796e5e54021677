import FieldView.Proofs.Token.Lookahead

/-!
# Tripled literals

Between tripled quotes a literal can hold all characters and all escapes, as long as no three quotes
stand in a row and the last character is no quote (`Tripled`). Such a literal is one token wherever
it stands, with one exception: if a quote stands directly before a backslash, the literal is not
read, and a text with it has no tokens (`Tripled.lexedAsString_iff`).

The lengths are found by following the body piece by piece. A quote in it is read together with what
is behind it. `Scan` says which groups of pieces are met so, and every body is such a sequence of
groups (`scan_of_isBody`).
-/

set_option autoImplicit false

namespace FieldView

namespace Quoted

/-! ## Bodies -/

/-- A character of a body, or a backslash and the character behind it. -/
inductive Piece
  | plain (c : Char)
  | escaped (c : Char)
deriving DecidableEq, Repr

/-- How the piece is written. -/
def Piece.text : Piece → List Char
  | .plain c => [c]
  | .escaped c => ['\\', c]

/-- Cuts a body into pieces. There are none if a backslash has nothing behind it. -/
def pieces? : List Char → Option (List Piece)
  | [] => some []
  | c :: cs =>
    if c = '\\' then
      match cs with
      | [] => none
      | d :: ds => (pieces? ds).map (.escaped d :: ·)
    else (pieces? cs).map (.plain c :: ·)

theorem texts_of_pieces? {cs : List Char} {ps : List Piece} (h : pieces? cs = some ps) :
    ps.flatMap Piece.text = cs := by
  fun_induction pieces? cs generalizing ps with
  | case1 =>
    cases h
    rfl
  | case2 => cases h
  | case3 d ds ih =>
    obtain ⟨ps, hps, rfl⟩ := Option.map_eq_some_iff.mp h
    simp [Piece.text, ih hps]
  | case4 c cs hc ih =>
    obtain ⟨ps, hps, rfl⟩ := Option.map_eq_some_iff.mp h
    simp [Piece.text, ih hps]

theorem ne_of_pieces? {cs : List Char} {ps : List Piece} (h : pieces? cs = some ps) {c : Char}
    (hc : .plain c ∈ ps) : c ≠ '\\' := by
  fun_induction pieces? cs generalizing ps with
  | case1 =>
    cases h
    cases hc
  | case2 => cases h
  | case3 d ds ih =>
    obtain ⟨ps, hps, rfl⟩ := Option.map_eq_some_iff.mp h
    exact ih hps (by simpa using hc)
  | case4 d cs hd ih =>
    obtain ⟨ps, hps, rfl⟩ := Option.map_eq_some_iff.mp h
    rcases List.mem_cons.mp hc with heq | hc
    · cases heq
      exact hd
    · exact ih hps hc

variable {q c : Char} {p : Piece} {ps : List Piece}

/-- Pieces that can stand between tripled quotes `q`. -/
structure IsBody (q : Char) (ps : List Piece) : Prop where
  escapes : ∀ c, .plain c ∈ ps → c ≠ '\\'
  apart : ¬ [.plain q, .plain q, .plain q] <:+: ps
  ends : ps.getLast? ≠ some (.plain q)

/-- A quote stands directly before a backslash. -/
def Stalls (q : Char) (ps : List Piece) : Prop := ∃ c, [.plain q, .escaped c] <:+: ps

theorem IsBody.tail (h : IsBody q (p :: ps)) : IsBody q ps where
  escapes := fun c hc => h.escapes c (List.mem_cons_of_mem p hc)
  apart := fun hthree => h.apart (hthree.trans (List.suffix_cons p ps).isInfix)
  ends := by
    cases ps with
    | nil => nofun
    | cons p' ps =>
      have hends := h.ends
      rwa [List.getLast?_cons_cons] at hends

@[simp]
theorem not_stalls_nil : ¬ Stalls q [] := by
  rintro ⟨c, hc⟩
  cases List.infix_nil.mp hc

@[simp]
theorem stalls_escaped_cons : Stalls q (.escaped c :: ps) ↔ Stalls q ps := by
  simp [Stalls, List.infix_cons_iff, List.cons_prefix_cons]

@[simp]
theorem stalls_plain_cons : Stalls q (.plain c :: ps) ↔
    c = q ∧ (∃ d, [.escaped d] <+: ps) ∨ Stalls q ps := by
  simp [Stalls, List.infix_cons_iff, List.cons_prefix_cons, exists_or, eq_comm]

/-- How a body is read. -/
inductive Scan (q : Char) : List Piece → Prop
  | nil : Scan q []
  | escaped {c : Char} {ps : List Piece} : Scan q ps → Scan q (.escaped c :: ps)
  | plain {c : Char} {ps : List Piece} : c ≠ '\\' → c ≠ q → Scan q ps → Scan q (.plain c :: ps)
  | quote {c : Char} {ps : List Piece} : c ≠ '\\' → c ≠ q → Scan q ps →
      Scan q (.plain q :: .plain c :: ps)
  | quotes {c : Char} {ps : List Piece} : c ≠ '\\' → c ≠ q → Scan q ps →
      Scan q (.plain q :: .plain q :: .plain c :: ps)
  | stall {c : Char} {ps : List Piece} : Scan q (.plain q :: .escaped c :: ps)
  | stalls {c : Char} {ps : List Piece} : Scan q (.plain q :: .plain q :: .escaped c :: ps)

theorem scan_of_isBody (h : IsBody q ps) : Scan q ps := by
  induction hn : ps.length using Nat.strong_induction_on generalizing ps with
  | _ n ih =>
    subst hn
    cases ps with
    | nil => exact .nil
    | cons p ps =>
      have hrest := h.tail
      cases p with
      | escaped c => exact .escaped (ih _ (by simp) hrest rfl)
      | plain c =>
        have hc := h.escapes c (by simp)
        by_cases hcq : c = q
        · subst hcq
          -- A quote: the next piece decides, or the next two.
          cases ps with
          | nil => exact absurd rfl h.ends
          | cons p ps =>
            have hrest' := hrest.tail
            cases p with
            | escaped d => exact .stall
            | plain d =>
              have hd := hrest.escapes d (by simp)
              by_cases hdq : d = c
              · subst hdq
                cases ps with
                | nil => exact absurd rfl hrest.ends
                | cons p ps =>
                  cases p with
                  | escaped e => exact .stalls
                  | plain e =>
                    have he := hrest'.escapes e (by simp)
                    by_cases heq : e = d
                    · subst heq
                      exact absurd (List.prefix_append _ ps).isInfix h.apart
                    · exact .quotes he heq (ih _ (by simp only [List.length_cons]; omega) hrest'.tail rfl)
              · exact .quote hd hdq (ih _ (by simp only [List.length_cons]; omega) hrest' rfl)
        · exact .plain hc hcq (ih _ (by simp) hrest rfl)

theorem blockLength?_stall (hq : q ≠ '\\') (cs : List Char) :
    blockLength? q (q :: '\\' :: cs) = none := by
  rw [blockLength?.eq_def]
  simp [hq, Ne.symm hq]

theorem blockLength?_stalls (hq : q ≠ '\\') (cs : List Char) :
    blockLength? q (q :: q :: '\\' :: cs) = none := by
  rw [blockLength?.eq_def]
  simp [hq, Ne.symm hq]

/-- A body is read to the quotes that close it, unless it stalls. -/
theorem Scan.blockLength? (hq : q ≠ '\\') (h : Scan q ps) (rest : List Char) :
    (¬ Stalls q ps → Quoted.blockLength? q (ps.flatMap Piece.text ++ q :: q :: q :: rest) =
      some ((ps.flatMap Piece.text).length + 3)) ∧
    (Stalls q ps →
      Quoted.blockLength? q (ps.flatMap Piece.text ++ q :: q :: q :: rest) = none) := by
  induction h with
  | nil => simp [blockLength?_close hq]
  | escaped _ ih => simpa [Piece.text, blockLength?_escaped] using ih
  | plain hc hcq _ ih => simpa [Piece.text, blockLength?_plain hc hcq, hcq] using ih
  | quote hc hcq _ ih => simpa [Piece.text, blockLength?_quote hq hc hcq, hcq] using ih
  | quotes hc hcq _ ih => simpa [Piece.text, blockLength?_quotes hq hc hcq, hcq] using ih
  | stall => simp [Piece.text, blockLength?_stall hq]
  | stalls => simp [Piece.text, blockLength?_stalls hq]

/-! ## Literals -/

/-- A literal in tripled quotes, with the letters before it. -/
structure Tripled where
  marks : List Char
  quote : Char
  body : List Char
  pieces : List Piece
  few : marks.length ≤ 2
  letters : ∀ c ∈ marks, isMark c = true
  quoted : isQuote quote = true
  /-- Every backslash has a character behind it. -/
  cut : pieces? body = some pieces
  /-- Three quotes in a row would close the literal. -/
  apart : ¬ [.plain quote, .plain quote, .plain quote] <:+: pieces
  ends : pieces.getLast? ≠ some (.plain quote)

namespace Tripled

variable (lit : Tripled)

/-- How the literal is written. -/
def text : List Char :=
  lit.marks ++ [lit.quote, lit.quote, lit.quote] ++ lit.body ++ [lit.quote, lit.quote, lit.quote]

/-- A quote of the body stands directly before a backslash. -/
def Stalls : Prop := Quoted.Stalls lit.quote lit.pieces

theorem quote_ne {c : Char} (hc : isQuote c = false) : lit.quote ≠ c := by
  intro heq
  have hquoted := lit.quoted
  rw [heq, hc] at hquoted
  cases hquoted

theorem isBody : IsBody lit.quote lit.pieces where
  escapes := fun _ hc => ne_of_pieces? lit.cut hc
  apart := lit.apart
  ends := lit.ends

theorem longest?_text (after : List Char) :
    longest? (lit.text ++ after) =
      some ((blockLength? lit.quote
        (lit.body ++ lit.quote :: lit.quote :: lit.quote :: after)).map
          (lit.marks.length + 3 + ·)) := by
  obtain ⟨more, hmore⟩ : ∃ more, more = lit.body ++ lit.quote :: lit.quote :: lit.quote :: after :=
    ⟨_, rfl⟩
  have hshape : lit.text ++ after =
      lit.marks ++ [lit.quote] ++ (lit.quote :: lit.quote :: more) := by simp [text, hmore]
  have hopening : opening? (lit.text ++ after) = some (lit.marks.length, lit.quote) := by
    rw [hshape, List.append_assoc]
    exact opening?_append lit.few lit.letters lit.quoted _
  have hdrop : (lit.text ++ after).drop (lit.marks.length + 1) =
      lit.quote :: lit.quote :: more := by
    rw [hshape]
    exact List.drop_left' (by simp)
  have hbarren : isBarren (lit.quote :: lit.quote :: more) = false := by
    simp [isBarren, lit.quote_ne (c := '\n') rfl, lit.quote_ne (c := '\\') rfl]
  have hbody : bodyLength? lit.quote (lit.quote :: lit.quote :: more) =
      (blockLength? lit.quote more).map (· + 2) := by
    simp [bodyLength?, startsDoubled]
  have hlength : ∀ n, lit.marks.length + 1 + (n + 2) = lit.marks.length + 3 + n := by omega
  rw [longest?, hopening]
  simp [hdrop, hbarren, hbody, ← hmore, Function.comp_def, hlength]

theorem longest?_of_not_stalls (h : ¬ lit.Stalls) (after : List Char) :
    longest? (lit.text ++ after) = some (some lit.text.length) := by
  have hread := ((scan_of_isBody lit.isBody).blockLength? (lit.quote_ne rfl) after).1 h
  rw [texts_of_pieces? lit.cut] at hread
  have hlength : lit.text.length = lit.marks.length + 3 + (lit.body.length + 3) := by
    simp only [text, List.length_append, List.length_cons, List.length_nil]
    omega
  rw [longest?_text, hread, hlength]
  rfl

theorem longest?_of_stalls (h : lit.Stalls) (after : List Char) :
    longest? (lit.text ++ after) = some none := by
  have hread := ((scan_of_isBody lit.isBody).blockLength? (lit.quote_ne rfl) after).2 h
  rw [texts_of_pieces? lit.cut] at hread
  rw [longest?_text, hread]
  rfl

end Tripled

end Quoted

/-! ## Lexemes and tokens -/

namespace Lexeme

theorem split_of_longest? {w after : List Char} (hw : w ≠ [])
    (h : Quoted.longest? (w ++ after) = some (some w.length)) :
    split (w ++ after) = { form := .string, text := w } :: split after := by
  cases w with
  | nil => exact absurd rfl hw
  | cons c w =>
    rw [List.cons_append] at h ⊢
    rw [split_cons, measure_of_longest? h]
    simp

theorem split_of_broken {cs : List Char} (h : Quoted.longest? cs = some none) :
    ∃ l ls, split cs = l :: ls ∧ l.form = .broken := by
  cases cs with
  | nil => cases h
  | cons c cs =>
    rw [split_cons, measure_of_longest? h]
    exact ⟨_, _, rfl, rfl⟩

end Lexeme

/-- The tokens that have a byte of this stretch. -/
def tokensAt (start length : Nat) (ts : List Token) : List Token :=
  ts.filter fun t => t.span.offset < start + length && start < t.span.stop

theorem tokensAt_append (start length : Nat) (ts ts' : List Token) :
    tokensAt start length (ts ++ ts') = tokensAt start length ts ++ tokensAt start length ts' :=
  List.filter_append ts ts'

theorem tokensAt_eq_nil {start length : Nat} {ts : List Token}
    (h : ∀ t ∈ ts, t.span.stop ≤ start ∨ start + length ≤ t.span.offset) :
    tokensAt start length ts = [] := by
  rw [tokensAt, List.filter_eq_nil_iff]
  intro t ht
  have haside := h t ht
  rw [Bool.and_eq_true, decide_eq_true_eq, decide_eq_true_eq]
  omega

theorem tokensAt_self {t : Token} (h : 0 < t.span.length) :
    tokensAt t.span.offset t.span.length [t] = [t] := by
  simp [tokensAt, Span.stop, h]

/-- Between `before` and `after`, `w` is one string token: it is a lexeme, and of the tokens of the
whole text one has bytes of it, which is a string with all its bytes and `w` as its payload. -/
structure LexedAsString (before w after : List Char) : Prop where
  lexeme : Lexeme.split (w ++ after) = { form := .string, text := w } :: Lexeme.split after
  tokens : ∀ ts, tokenize (String.ofList (before ++ w ++ after)) = .ok ts →
    tokensAt (byteLength before) (byteLength w) ts =
      [{ kind := .string (String.ofList w),
         span := { offset := byteLength before, length := byteLength w } }]

/-- The tokens of a text that is one string literal. -/
def soleTokens (w : List Char) : List Token :=
  let stop : Span := { offset := byteLength w, length := 0 }
  [{ kind := .string (String.ofList w), span := { offset := 0, length := byteLength w } },
    { kind := .newline, span := stop }, { kind := .eof, span := stop }]

namespace Layout

/-- A string lexeme becomes one token, and no other token has a byte of it. -/
theorem tokensAt_of_run {ls ls' : List Lexeme} {w : List Char} {ts : List Token} (hw : w ≠ [])
    (hrun : run {} (ls ++ { form := .string, text := w } :: ls') = .ok ts) :
    tokensAt (byteLength (ls.flatMap Lexeme.text)) (byteLength w) ts =
      [{ kind := .string (String.ofList w),
         span := { offset := byteLength (ls.flatMap Lexeme.text), length := byteLength w } }] := by
  rw [run_append] at hrun
  obtain ⟨⟨front, st⟩, hadvance, hrun⟩ := bind_eq_ok.mp hrun
  obtain ⟨rest, hrest, hrun⟩ := bind_eq_ok.mp hrun
  cases hrun
  obtain ⟨out, st', more, hstep, hmore, rfl⟩ := run_cons_eq_ok hrest
  have hstart : MarginAfter 0 {} := Nat.le_refl 0
  obtain ⟨hmargin, hfront⟩ := hstart.advance hadvance
  have hoffset : st.offset = byteLength (ls.flatMap Lexeme.text) := by
    rw [offset_of_advance hadvance]
    exact Nat.zero_add _
  rw [← hoffset]
  cases hstep with
  | gap hrole => cases hrole
  | join hrole => cases hrole
  | skip hrole _ => cases hrole
  | newline hrole _ _ => cases hrole
  | @token k lead blocks brackets hrole hlead hnest =>
    cases hrole
    have hbehind : ∀ t ∈ more, st.offset + byteLength w ≤ t.span.offset := by
      refine MarginAfter.run ?_ hmore
      exact Nat.le_refl _
    rw [tokensAt_append, tokensAt_append, tokensAt_append,
      tokensAt_eq_nil fun t ht => .inl (hfront t ht),
      tokensAt_eq_nil fun t ht => .inl (hmargin.lead hlead ht).2,
      tokensAt_eq_nil fun t ht => .inr (hbehind t ht),
      List.nil_append, List.nil_append, List.append_nil]
    exact tokensAt_self (byteLength_pos hw)

theorem exists_error_of_broken {st : Layout} {ls ls' : List Lexeme} {l : Lexeme}
    (hl : l.form = .broken) : ∃ e, st.run (ls ++ l :: ls') = .error e := by
  have hrole : l.role = .broken := by simp [Lexeme.role, hl]
  cases hrun : st.run (ls ++ l :: ls') with
  | error e => exact ⟨e, rfl⟩
  | ok ts =>
    rw [run_append] at hrun
    obtain ⟨first, -, hrun⟩ := bind_eq_ok.mp hrun
    obtain ⟨rest, hrest, -⟩ := bind_eq_ok.mp hrun
    obtain ⟨out, st', more, hstep, -, -⟩ := run_cons_eq_ok hrest
    cases hstep with
    | _ hrole' =>
      rw [hrole] at hrole'
      cases hrole'

theorem run_sole (w : List Char) :
    run {} [{ form := .string, text := w }] = .ok (soleTokens w) :=
  run_lone rfl rfl rfl

end Layout

namespace Quoted

/-- **A literal in tripled quotes is read as one string token wherever it stands, unless a quote
stands in it directly before a backslash.** A text with such a literal has no tokens. -/
theorem Tripled.lexedAsString_iff (lit : Tripled) {before after : List Char}
    (hcut : Lexeme.Cut before (lit.text ++ after)) :
    (LexedAsString before lit.text after ↔ ¬ lit.Stalls) ∧
      (lit.Stalls → ∃ e, tokenize (String.ofList (before ++ lit.text ++ after)) = .error e) ∧
      (¬ lit.Stalls → tokenize (String.ofList lit.text) = .ok (soleTokens lit.text)) := by
  have hne : lit.text ≠ [] := by simp [text]
  obtain ⟨ls, rfl, hsplit⟩ := hcut
  rw [← List.append_assoc] at hsplit
  have hread : ∀ after, ¬ lit.Stalls → Lexeme.split (lit.text ++ after) =
      { form := .string, text := lit.text } :: Lexeme.split after :=
    fun after h => Lexeme.split_of_longest? hne (lit.longest?_of_not_stalls h after)
  refine ⟨⟨?_, ?_⟩, ?_, ?_⟩
  · intro hlexed hstalls
    obtain ⟨l, ls', hl, hbroken⟩ := Lexeme.split_of_broken (lit.longest?_of_stalls hstalls after)
    rw [hlexed.lexeme] at hl
    obtain ⟨rfl, -⟩ := List.cons.inj hl
    cases hbroken
  · intro hreads
    refine ⟨hread after hreads, ?_⟩
    intro ts hts
    rw [tokenize, String.toList_ofList, hsplit, hread after hreads] at hts
    exact Layout.tokensAt_of_run hne hts
  · intro hstalls
    obtain ⟨l, ls', hl, hbroken⟩ := Lexeme.split_of_broken (lit.longest?_of_stalls hstalls after)
    rw [tokenize, String.toList_ofList, hsplit, hl]
    exact Layout.exists_error_of_broken hbroken
  · intro hreads
    have hsole := hread [] hreads
    rw [List.append_nil] at hsole
    rw [tokenize, String.toList_ofList, hsole, Lexeme.split]
    exact Layout.run_sole lit.text

/-- The literal `"""a"\b"""`. -/
def stalledLiteral : Tripled where
  marks := []
  quote := '"'
  body := ['a', '"', '\\', 'b']
  pieces := [.plain 'a', .plain '"', .escaped 'b']
  few := by decide
  letters := nofun
  quoted := rfl
  cut := rfl
  apart := by decide
  ends := by decide

/-- A literal over two lines, with two quotes in a row, an escaped quote and a lone one. -/
def quotedLiteral : Tripled where
  marks := ['r', 'b']
  quote := '\''
  body := ['\'', '\'', 'a', '\\', '\'', '\'', '\n', '"']
  pieces := [.plain '\'', .plain '\'', .plain 'a', .escaped '\'', .plain '\'', .plain '\n',
    .plain '"']
  few := by decide
  letters := List.all_eq_true.mp rfl
  quoted := rfl
  cut := rfl
  apart := by decide
  ends := by decide

theorem Tripled.lexedAsString_iff_stalled_and_quoted :
    Lexeme.Cut "x = ".toList (stalledLiteral.text ++ ['\n']) ∧
      (∃ e, tokenize (String.ofList ("x = ".toList ++ stalledLiteral.text ++ ['\n'])) = .error e) ∧
      Lexeme.Cut "x = ".toList (quotedLiteral.text ++ ['\n']) ∧
      LexedAsString "x = ".toList quotedLiteral.text ['\n'] ∧
      tokenize (String.ofList quotedLiteral.text) = .ok (soleTokens quotedLiteral.text) := by
  have hstalled : Lexeme.Cut "x = ".toList (stalledLiteral.text ++ ['\n']) :=
    ⟨Lexeme.split "x = ".toList, by decide +kernel, by decide +kernel⟩
  have hquoted : Lexeme.Cut "x = ".toList (quotedLiteral.text ++ ['\n']) :=
    ⟨Lexeme.split "x = ".toList, by decide +kernel, by decide +kernel⟩
  have hstalls : stalledLiteral.Stalls := ⟨'b', by decide⟩
  have hreads : ¬ quotedLiteral.Stalls := by simp [Tripled.Stalls, quotedLiteral]
  exact ⟨hstalled, (stalledLiteral.lexedAsString_iff hstalled).2.1 hstalls, hquoted,
    (quotedLiteral.lexedAsString_iff hquoted).1.mpr hreads,
    (quotedLiteral.lexedAsString_iff hquoted).2.2 hreads⟩

end Quoted

end FieldView
