import Mathlib.Data.List.TakeWhile
import FieldView.Token.Layout

/-!
# What lexemes look like

The characters of a lexeme by its role: a gap is a run of blanks or a comment up to the end of its
line, a join is a backslash with the line break after it, and the text of a token spells its kind.
`Splits` says of a text and its lexemes that they have these shapes from one end to the other; every
text is split so (`splits_split`), and what is proved about the layout goes by induction on it.
-/

set_option autoImplicit false

namespace FieldView

namespace Kind

/-- Whether a token belongs to the layout of lines. -/
def isLayout : Kind → Bool
  | newline => true
  | indent => true
  | dedent => true
  | eof => true
  | _ => false

/-- The texts that stand for a token. A line break has one too, the other layout tokens none. -/
def SpelledBy (w : List Char) : Kind → Prop
  | keyword k => Keyword.ofText? (String.ofList w) = some k
  | punct p => (w, punct p) ∈ Lexeme.operators
  | opening b => (w, opening b) ∈ Lexeme.operators
  | closing b => (w, closing b) ∈ Lexeme.operators
  | augAssign op => w = op.toList ++ ['=']
  | ident name => w = name.toList
  | int literal => IntLiteral.ofText? w = some literal
  | float text => w = text.toList
  | string text => w = text.toList
  | newline => w = ['\n']
  | indent => False
  | dedent => False
  | eof => False

/-- Whether an entry of the operator table is in order. -/
def isSign (w : List Char) : Kind → Bool
  | punct _ => w != []
  | opening _ => w != []
  | closing _ => w != []
  | augAssign op => w == op.toList ++ ['=']
  | _ => false

end Kind

namespace Lexeme

theorem operators_isSign : operators.all (fun entry => entry.2.isSign entry.1) = true := by
  decide +kernel

theorem operators_spec {w : List Char} {k : Kind} (h : (w, k) ∈ operators) :
    w ≠ [] ∧ k.isLayout = false ∧ k.SpelledBy w := by
  have hsign : k.isSign w = true := List.all_eq_true.mp operators_isSign (w, k) h
  cases k with
  | punct p => exact ⟨bne_iff_ne.mp hsign, rfl, h⟩
  | opening b => exact ⟨bne_iff_ne.mp hsign, rfl, h⟩
  | closing b => exact ⟨bne_iff_ne.mp hsign, rfl, h⟩
  | augAssign op =>
    have hw : w = op.toList ++ ['='] := beq_iff_eq.mp hsign
    refine ⟨?_, rfl, hw⟩
    rw [hw]
    simp
  | _ => cases hsign

/-- The text goes on with a line break, or not at all. -/
def EndsLine (rest : List Char) : Prop := ∀ c ∈ rest.head?, c = '\n'

/-- The texts of the lexemes of a role, before what follows them. -/
inductive Shape : Role → List Char → List Char → Prop
  | blank {w rest : List Char} : w ≠ [] → (∀ c ∈ w, isGap c = true) → Shape .gap w rest
  | comment {body rest : List Char} : '\n' ∉ body → EndsLine rest → Shape .gap ('#' :: body) rest
  | join {w rest : List Char} : w = ['\\', '\n'] ∨ w = ['\\', '\r', '\n'] → Shape .join w rest
  | lineBreak {rest : List Char} : Shape .lineBreak ['\n'] rest
  | token {k : Kind} {w rest : List Char} :
      w ≠ [] → k.isLayout = false → k.SpelledBy w → Shape (.token k) w rest
  | badInteger {w rest : List Char} : w ≠ [] → Shape .badInteger w rest
  | broken {c : Char} {rest : List Char} : Shape .broken [c] rest
  | stray {c : Char} {rest : List Char} : Shape .stray [c] rest

theorem Shape.ne_nil {r : Role} {w rest : List Char} (h : Shape r w rest) : w ≠ [] := by
  cases h with
  | blank hw _ => exact hw
  | join hw => rcases hw with rfl | rfl <;> simp
  | token hw _ _ => exact hw
  | badInteger hw => exact hw
  | _ => simp

theorem Shape.getLast?_join {w rest : List Char} (h : Shape .join w rest) :
    w.getLast? = some '\n' := by
  cases h with
  | join hw => rcases hw with rfl | rfl <;> rfl

theorem Shape.lineBreak_eq {w rest : List Char} (h : Shape .lineBreak w rest) : w = ['\n'] := by
  cases h with
  | lineBreak => rfl

theorem Shape.getLast?_lineBreak {w rest : List Char} (h : Shape .lineBreak w rest) :
    w.getLast? = some '\n' := by
  rw [h.lineBreak_eq]
  rfl

theorem Shape.token_spec {k : Kind} {w rest : List Char} (h : Shape (.token k) w rest) :
    k.isLayout = false ∧ k.SpelledBy w := by
  cases h with
  | token _ hk hspelled => exact ⟨hk, hspelled⟩

section Heads

variable {c : Char} {cs : List Char}

theorem take_takeWhile (p : Char → Bool) (cs : List Char) :
    cs.take (cs.takeWhile p).length = cs.takeWhile p :=
  (List.prefix_iff_eq_take.mp (List.takeWhile_prefix p)).symm

theorem drop_takeWhile (p : Char → Bool) (cs : List Char) :
    cs.drop (cs.takeWhile p).length = cs.dropWhile p := by
  have hcut := (List.take_append_drop (cs.takeWhile p).length cs).trans
    (List.takeWhile_append_dropWhile (p := p) (l := cs)).symm
  rw [take_takeWhile] at hcut
  exact List.append_cancel_left hcut

theorem endsLine_dropWhile (cs : List Char) : EndsLine (cs.dropWhile (· != '\n')) := by
  intro c hc
  have hstop := List.head?_dropWhile_not (· != '\n') cs
  rw [Option.mem_def.mp hc] at hstop
  simpa using hstop

/-- The lexeme at the head of a text has the shape of its role. -/
def HeadShape (c : Char) (cs : List Char) (m : Form × Nat) : Prop :=
  Shape (role { form := m.1, text := c :: cs.take m.2 }) (c :: cs.take m.2) (cs.drop m.2)

theorem headShape_blank (hc : isGap c = true) :
    HeadShape c cs (.blank, (cs.takeWhile isGap).length) := by
  refine .blank (List.cons_ne_nil _ _) ?_
  intro d hd
  rw [take_takeWhile] at hd
  rcases List.mem_cons.mp hd with rfl | hd
  · exact hc
  · exact List.mem_takeWhile_imp hd

theorem headShape_comment : HeadShape '#' cs (.comment, (cs.takeWhile (· != '\n')).length) := by
  refine .comment ?_ ?_
  · intro hmem
    rw [take_takeWhile] at hmem
    simpa using List.mem_takeWhile_imp hmem
  · rw [drop_takeWhile]
    exact endsLine_dropWhile cs

theorem headShape_continuation (hn : breakLength cs ≠ 0) :
    HeadShape '\\' cs (.continuation, breakLength cs) := by
  refine .join ?_
  unfold breakLength at hn ⊢
  split at hn
  · exact .inl rfl
  · exact .inr rfl
  · exact absurd rfl hn

theorem headShape_word {n : Nat} : HeadShape c cs (.word, n) := by
  unfold HeadShape
  cases hk : Keyword.ofText? (String.ofList (c :: cs.take n)) with
  | some k =>
    rw [role]
    simp only [hk]
    exact .token (List.cons_ne_nil _ _) rfl hk
  | none =>
    rw [role]
    simp only [hk]
    exact .token (List.cons_ne_nil _ _) rfl (String.toList_ofList).symm

theorem headShape_number {form : Number.Form} {n : Nat} : HeadShape c cs (.number form, n) := by
  unfold HeadShape
  cases form with
  | float => exact .token (List.cons_ne_nil _ _) rfl (String.toList_ofList).symm
  | integer =>
    cases hl : IntLiteral.ofText? (c :: cs.take n) with
    | some literal =>
      rw [role]
      simp only [hl]
      exact .token (List.cons_ne_nil _ _) rfl hl
    | none =>
      rw [role]
      simp only [hl]
      exact .badInteger (List.cons_ne_nil _ _)

theorem headShape_operator {w : List Char} {k : Kind} (h : operator? (c :: cs) = some (w, k)) :
    HeadShape c cs (.operator k, w.length - 1) := by
  rw [operator?] at h
  obtain ⟨hne, hlayout, hspelled⟩ := operators_spec (List.mem_of_find?_eq_some h)
  have hhead := List.find?_some h
  obtain ⟨rest, hrest⟩ := List.isPrefixOf_iff_prefix.mp hhead
  cases w with
  | nil => exact absurd rfl hne
  | cons d w =>
    obtain ⟨rfl, rfl⟩ := List.cons.inj hrest
    have htext : d :: (w ++ rest).take ((d :: w).length - 1) = d :: w := by simp
    show Shape (.token k) (d :: (w ++ rest).take ((d :: w).length - 1)) _
    rw [htext]
    exact .token hne hlayout hspelled

theorem headShape_measure (c : Char) (cs : List Char) : HeadShape c cs (measure c cs) := by
  unfold measure
  split
  · next hgap => exact headShape_blank hgap
  split
  · next hcomment =>
    subst hcomment
    exact headShape_comment
  split
  · next hbreak =>
    subst hbreak
    exact .lineBreak
  split
  · next hjoin =>
    subst hjoin
    split
    · exact .stray
    · next hn => exact headShape_continuation hn
  -- What is left begins with a character of a token, or with one that begins nothing.
  split
  · exact .token (List.cons_ne_nil _ _) rfl (String.toList_ofList).symm
  · exact .broken
  split
  · exact headShape_word
  split
  · exact headShape_number
  split
  · next h => exact headShape_operator h
  · exact .stray

end Heads

/-- A text and its lexemes, each with the shape of its role. -/
inductive Splits : List Char → List Lexeme → Prop
  | nil : Splits [] []
  | cons {l : Lexeme} {rest : List Char} {ls : List Lexeme} :
      Shape l.role l.text rest → Splits rest ls → Splits (l.text ++ rest) (l :: ls)

theorem splits_split (cs : List Char) : Splits cs (split cs) := by
  fun_induction split cs with
  | case1 => exact .nil
  | case2 c cs m ih =>
    have hsplits : Splits (c :: cs.take m.2 ++ cs.drop m.2) _ := .cons (headShape_measure c cs) ih
    rwa [List.cons_append, List.take_append_drop] at hsplits

end Lexeme

end FieldView
