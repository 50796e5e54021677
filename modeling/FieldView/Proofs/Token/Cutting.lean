import FieldView.Proofs.Token.Coverage

/-!
# Cuts between lexemes

A text can be read up to the end of a lexeme and on from there. For the lexemes this means that the
rest is split as if it were a text of its own (`Lexeme.split_of_append`); for the layout, that what
it has made of the first part is a state to start from (`Layout.run_append`). The tokens of the
first part lie in the first part (`Layout.MarginAfter.advance`) and those of the rest in the rest
(`Layout.MarginAfter.run`).
-/

set_option autoImplicit false

namespace FieldView

namespace Lexeme

/-- A lexeme of the text `before ++ after` ends after `before`, or the text begins there. -/
def Cut (before after : List Char) : Prop :=
  ∃ ls, ls.flatMap text = before ∧ split (before ++ after) = ls ++ split after

theorem split_cons (c : Char) (cs : List Char) :
    split (c :: cs) =
      { form := (measure c cs).1, text := c :: cs.take (measure c cs).2 } ::
        split (cs.drop (measure c cs).2) := by
  rw [split]

/-- Where a lexeme ends, the rest is split as a text of its own. -/
theorem split_of_append {cs : List Char} {ls ls' : List Lexeme} (h : split cs = ls ++ ls') :
    split (ls'.flatMap text) = ls' := by
  induction ls generalizing cs with
  | nil =>
    rw [List.nil_append] at h
    rw [← h, texts_split, h]
  | cons l ls ih =>
    cases cs with
    | nil =>
      rw [split] at h
      cases h
    | cons c cs =>
      rw [split_cons, List.cons_append] at h
      exact ih (List.cons.inj h).2

end Lexeme

namespace Layout

variable {st st' : Layout} {l : Lexeme} {ls ls' : List Lexeme} {ts : List Token}

/-- The tokens of some lexemes and the state after them. -/
def advance (st : Layout) : List Lexeme → Except LexError (List Token × Layout)
  | [] => .ok ([], st)
  | l :: ls => do
    let first ← st.step l
    let rest ← advance first.2 ls
    return (first.1 ++ rest.1, rest.2)

theorem run_cons (st : Layout) (l : Lexeme) (ls : List Lexeme) :
    st.run (l :: ls) =
      (st.step l >>= fun first => first.2.run ls >>= fun rest => pure (first.1 ++ rest)) := rfl

/-- The layout can stop between two lexemes and go on from there. -/
theorem run_append (st : Layout) (ls ls' : List Lexeme) :
    st.run (ls ++ ls') =
      (st.advance ls >>= fun first => first.2.run ls' >>= fun rest => pure (first.1 ++ rest)) := by
  induction ls generalizing st with
  | nil =>
    show st.run ls' = (st.run ls' >>= fun rest => pure ([] ++ rest))
    simp
  | cons l ls ih =>
    rw [List.cons_append, run_cons, advance]
    simp only [ih, bind_assoc, pure_bind, List.append_assoc]

/-- The tokens of a text that is one lexeme. -/
def loneTokens (k : Kind) (w : List Char) : List Token :=
  let stop : Span := { offset := byteLength w, length := 0 }
  [{ kind := k, span := { offset := 0, length := byteLength w } },
    { kind := .newline, span := stop }, { kind := .eof, span := stop }]

theorem run_lone {k : Kind} (hrole : l.role = .token k) (hopening : k.isOpening = false)
    (hclosing : k.isClosing = false) : run {} [l] = .ok (loneTokens k l.text) := by
  have hnest : ∀ span, nestBrackets [] { kind := k, span } = .ok [] := by
    intro span
    cases k with
    | opening b => cases hopening
    | closing b => cases hclosing
    | _ => rfl
  have hstep : step {} l =
      .ok ([{ kind := k, span := { offset := 0, length := byteLength l.text } }],
        { offset := 0 + byteLength l.text, fresh := false }) := by
    unfold step
    simp only [hrole, hnest]
    rfl
  rw [run_cons, hstep, Nat.zero_add]
  rfl

theorem offset_of_advance (h : st.advance ls = .ok (ts, st')) :
    st'.offset = st.offset + byteLength (ls.flatMap Lexeme.text) := by
  induction ls generalizing st ts with
  | nil =>
    cases h
    rfl
  | cons l ls ih =>
    obtain ⟨first, hfirst, h⟩ := bind_eq_ok.mp h
    obtain ⟨rest, hrest, h⟩ := bind_eq_ok.mp h
    cases h
    rw [ih hrest, (steps_of_step hfirst).offset_eq, List.flatMap_cons, byteLength_append]
    omega

/-! ## Where tokens lie -/

/-- The margin has been read after the first `start` bytes. -/
def MarginAfter (start : Nat) (st : Layout) : Prop := start + byteLength st.margin ≤ st.offset

variable {start : Nat} {out : List Token} {t : Token}

theorem MarginAfter.step (h : MarginAfter start st) (hstep : Steps st l out st') :
    MarginAfter start st' := by
  unfold MarginAfter at *
  cases hstep with
  | gap _ =>
    rw [byteLength_append]
    show start + (byteLength st.margin + byteLength l.text) ≤ st.offset + byteLength l.text
    omega
  | _ =>
    rw [byteLength_nil]
    show start + 0 ≤ st.offset + byteLength l.text
    omega

/-- The tokens before a line lie on its margin. -/
theorem MarginAfter.lead (h : MarginAfter start st) {lead : List Token} {blocks : List Nat}
    (hlead : Leads st lead blocks) (ht : t ∈ lead) :
    start ≤ t.span.offset ∧ t.span.stop ≤ st.offset := by
  have hmargin : start ≤ st.marginSpan.offset ∧ st.marginSpan.stop ≤ st.offset := by
    unfold MarginAfter at h
    simp only [Span.stop, marginSpan]
    omega
  cases hlead with
  | within _ => cases ht
  | indent _ =>
    obtain rfl := List.mem_singleton.mp ht
    exact hmargin
  | dedents _ _ =>
    obtain ⟨-, rfl⟩ := List.mem_replicate.mp ht
    exact hmargin

theorem MarginAfter.tokens (h : MarginAfter start st) (hstep : Steps st l out st') (ht : t ∈ out) :
    start ≤ t.span.offset ∧ t.span.stop ≤ st'.offset := by
  have hstart : start ≤ st.offset := Nat.le_of_add_right_le h
  cases hstep with
  | gap _ => cases ht
  | join _ => cases ht
  | skip _ _ => cases ht
  | newline _ _ _ =>
    obtain rfl := List.mem_singleton.mp ht
    exact ⟨hstart, Nat.le_refl _⟩
  | token _ hlead _ =>
    rcases List.mem_append.mp ht with ht | ht
    · obtain ⟨hle, hstop⟩ := h.lead hlead ht
      exact ⟨hle, Nat.le_add_right_of_le hstop⟩
    · obtain rfl := List.mem_singleton.mp ht
      exact ⟨hstart, Nat.le_refl _⟩

/-- Tokens lie where they were read, or before. -/
theorem MarginAfter.advance (h : MarginAfter start st) (hadvance : st.advance ls = .ok (ts, st')) :
    MarginAfter start st' ∧ ∀ t ∈ ts, t.span.stop ≤ st'.offset := by
  induction ls generalizing st ts with
  | nil =>
    cases hadvance
    exact ⟨h, nofun⟩
  | cons l ls ih =>
    obtain ⟨first, hfirst, hadvance⟩ := bind_eq_ok.mp hadvance
    obtain ⟨rest, hrest, hadvance⟩ := bind_eq_ok.mp hadvance
    cases hadvance
    have hstep := steps_of_step hfirst
    obtain ⟨hend, hlater⟩ := ih (h.step hstep) hrest
    refine ⟨hend, ?_⟩
    intro t ht
    rcases List.mem_append.mp ht with ht | ht
    · have hstop := (h.tokens hstep ht).2
      rw [offset_of_advance hrest]
      omega
    · exact hlater t ht

/-- Tokens lie where the text is still to be read, or further on. -/
theorem MarginAfter.run (h : MarginAfter start st) (hrun : st.run ls = .ok ts) :
    ∀ t ∈ ts, start ≤ t.span.offset := by
  induction ls generalizing st ts with
  | nil =>
    intro t ht
    rw [(spec_of_finish hrun ht).1]
    exact Nat.le_of_add_right_le h
  | cons l ls ih =>
    obtain ⟨out, st', more, hstep, hmore, rfl⟩ := run_cons_eq_ok hrun
    intro t ht
    rcases List.mem_append.mp ht with ht | ht
    · exact (h.tokens hstep ht).1
    · exact ih (h.step hstep) hmore t ht

end Layout

end FieldView
