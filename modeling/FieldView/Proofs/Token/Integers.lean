import Mathlib.Data.List.Induction
import Mathlib.Data.Nat.Digits.Defs
import FieldView.Proofs.Token.Cutting

/-!
# Integer literals

The text of an integer literal has one of four forms (`Numeral`): digits and underscores of a base,
after a zero and a letter for the bases other than ten. Which of these texts are accepted is decided
by walking over the run once. Here the same is said as a property of the run: an underscore has a
digit on either side (`Grouped`), apart from the one that may follow the letter.

The digits of an accepted literal are kept as text. Their value is the number that they write in
positional notation, for any number of digits (`magnitude_eq_positional`).
-/

set_option autoImplicit false

namespace FieldView

/-- Two functions agree on a list that has been gone through. -/
theorem eq_of_all_beq {α β : Type} [BEq β] [LawfulBEq β] {f g : α → β} {xs : List α}
    (h : xs.all (fun x => f x == g x) = true) {x : α} (hx : x ∈ xs) : f x = g x :=
  beq_iff_eq.mp (List.all_eq_true.mp h x hx)

namespace Radix

/-- The letters that announce a base after a zero. -/
def letters : Radix → List Char
  | binary => ['b', 'B']
  | octal => ['o', 'O']
  | decimal => []
  | hex => ['x', 'X']

/-- The digits of a base. -/
def alphabet : Radix → List Char
  | binary => "01".toList
  | octal => "01234567".toList
  | decimal => "0123456789".toList
  | hex => "0123456789abcdefABCDEF".toList

/-- What a digit counts, whatever the base. -/
def placeValue (c : Char) : Nat := "0123456789abcdef".toList.idxOf c.toLower

theorem ofLetter?_of_mem {r : Radix} {c : Char} (h : c ∈ r.letters) : ofLetter? c = some r := by
  have hall : r.letters.all (fun c => ofLetter? c == some r) = true := by cases r <;> rfl
  exact eq_of_all_beq hall h

theorem digitValue?_of_mem {r : Radix} {c : Char} (h : c ∈ r.alphabet) :
    r.digitValue? c = some (placeValue c) := by
  have hall : r.alphabet.all (fun c => r.digitValue? c == some (placeValue c)) = true := by
    cases r <;> rfl
  exact eq_of_all_beq hall h

theorem isRunChar_of_mem {r : Radix} {c : Char} (h : c ∈ r.alphabet ∨ c = '_') :
    r.isRunChar c = true := by
  obtain h | rfl := h
  · simp [isRunChar, isDigit, digitValue?_of_mem h]
  · simp [isRunChar]

theorem underscore_notMem_alphabet (r : Radix) : '_' ∉ r.alphabet := by
  cases r <;> decide

/-- No decimal literal is taken for one with a letter. -/
theorem ofLetter?_of_decimal {c : Char} (h : c ∈ decimal.alphabet ∨ c = '_') :
    ofLetter? c = none := by
  obtain h | rfl := h
  · have hall : decimal.alphabet.all (fun c => ofLetter? c == none) = true := rfl
    exact eq_of_all_beq hall h
  · rfl

end Radix

namespace IntLiteral

/-- Digits of a base and underscores, in any order. -/
def IsRun (r : Radix) (run : List Char) : Prop := ∀ c ∈ run, c ∈ r.alphabet ∨ c = '_'

/-- The four forms of an integer literal: its base, what announces it, and the run after that. -/
inductive Numeral : Radix → List Char → List Char → Prop
  | lettered {r : Radix} {letter : Char} {run : List Char} :
      letter ∈ r.letters → run ≠ [] → IsRun r run → Numeral r ['0', letter] run
  | decimal {d : Char} {run : List Char} :
      d ∈ Radix.decimal.alphabet → IsRun .decimal run → Numeral .decimal [] (d :: run)

/-- A run of digits in which underscores stand singly between two digits. -/
structure Grouped (r : Radix) (run : List Char) : Prop where
  ne_nil : run ≠ []
  isRun : IsRun r run
  between : ∀ before after, run = before ++ '_' :: after →
    (∃ c ∈ before.getLast?, c ∈ r.alphabet) ∧ ∃ c ∈ after.head?, c ∈ r.alphabet

/-- The run after `lead` writes the literal: one underscore may stand before it where a letter
announces the base, the rest is grouped, and its digits are those of the literal. -/
def Spells (lead run : List Char) (l : IntLiteral) : Prop :=
  ∃ under body, (under = [] ∨ lead ≠ [] ∧ under = ['_']) ∧ run = under ++ body ∧
    Grouped l.radix body ∧ l.digits = body.filter (· != '_')

/-- The base that is announced. -/
def announced : List Char → Nat
  | ['0', letter] =>
    if letter = 'b' ∨ letter = 'B' then 2 else if letter = 'o' ∨ letter = 'O' then 8 else 16
  | _ => 10

/-- The number that digits write in positional notation, the last digit counting ones. -/
def positional (base : Nat) (digits : List Char) : Nat :=
  Nat.ofDigits base (digits.reverse.map Radix.placeValue)

/-! ## Grouped runs -/

section Grouped

variable {r : Radix} {c d : Char} {run : List Char}

theorem isRun_cons : IsRun r (c :: run) ↔ (c ∈ r.alphabet ∨ c = '_') ∧ IsRun r run :=
  List.forall_mem_cons

theorem IsRun.of_append {front : List Char} (h : IsRun r (front ++ run)) : IsRun r run :=
  fun c hc => h c (List.mem_append_right front hc)

theorem not_grouped_underscore : ¬ Grouped r ('_' :: run) := by
  intro h
  obtain ⟨⟨c, hc, -⟩, -⟩ := h.between [] run rfl
  cases hc

theorem Grouped.head? (h : Grouped r run) : ∃ d ∈ run.head?, d ∈ r.alphabet := by
  cases run with
  | nil => exact absurd rfl h.ne_nil
  | cons d run =>
    obtain hd | rfl := (isRun_cons.mp h.isRun).1
    · exact ⟨d, rfl, hd⟩
    · exact absurd h not_grouped_underscore

theorem grouped_singleton (hc : c ∈ r.alphabet) : Grouped r [c] where
  ne_nil := by simp
  isRun := isRun_cons.mpr ⟨.inl hc, nofun⟩
  between before after h := by
    have hmem : '_' ∈ [c] := by simp [h]
    rw [List.mem_singleton] at hmem
    exact absurd (hmem ▸ hc) r.underscore_notMem_alphabet

theorem Grouped.cons_digit (h : Grouped r run) (hc : c ∈ r.alphabet) : Grouped r (c :: run) where
  ne_nil := by simp
  isRun := isRun_cons.mpr ⟨.inl hc, h.isRun⟩
  between before after hcut := by
    cases before with
    | nil =>
      obtain ⟨rfl, -⟩ := List.cons.inj hcut
      exact absurd hc r.underscore_notMem_alphabet
    | cons a before =>
      obtain ⟨-, rfl⟩ := List.cons.inj hcut
      cases before with
      | nil => exact absurd h not_grouped_underscore
      | cons b before =>
        rw [List.getLast?_cons_cons]
        exact h.between (b :: before) after rfl

theorem Grouped.cons_underscore (h : Grouped r run) (hc : c ∈ r.alphabet) :
    Grouped r (c :: '_' :: run) where
  ne_nil := by simp
  isRun := isRun_cons.mpr ⟨.inl hc, isRun_cons.mpr ⟨.inr rfl, h.isRun⟩⟩
  between before after hcut := by
    cases before with
    | nil =>
      obtain ⟨rfl, -⟩ := List.cons.inj hcut
      exact absurd hc r.underscore_notMem_alphabet
    | cons a before =>
      obtain ⟨rfl, htail⟩ := List.cons.inj hcut
      cases before with
      | nil =>
        obtain ⟨-, rfl⟩ := List.cons.inj htail
        exact ⟨⟨c, rfl, hc⟩, h.head?⟩
      | cons b before =>
        obtain ⟨-, rfl⟩ := List.cons.inj htail
        cases before with
        | nil => exact absurd h not_grouped_underscore
        | cons e before =>
          rw [List.getLast?_cons_cons, List.getLast?_cons_cons]
          exact h.between (e :: before) after rfl

/-- What follows in a grouped run is grouped, unless it begins with an underscore. -/
theorem Grouped.of_append (front : List Char) (h : Grouped r (front ++ d :: run)) (hd : d ≠ '_') :
    Grouped r (d :: run) where
  ne_nil := by simp
  isRun := h.isRun.of_append
  between before after hcut := by
    obtain ⟨hbefore, hafter⟩ := h.between (front ++ before) after (by rw [hcut, List.append_assoc])
    refine ⟨?_, hafter⟩
    cases before with
    | nil =>
      obtain ⟨rfl, -⟩ := List.cons.inj hcut
      exact absurd rfl hd
    | cons b before =>
      rw [List.getLast?_append_cons] at hbefore
      exact hbefore

theorem Grouped.of_cons_underscore (h : Grouped r (c :: '_' :: run)) : Grouped r run := by
  obtain ⟨-, d, hhead, hd⟩ := h.between [c] run rfl
  obtain ⟨rest, rfl⟩ := List.head?_eq_some_iff.mp hhead
  refine Grouped.of_append [c, '_'] h ?_
  rintro rfl
  exact r.underscore_notMem_alphabet hd

/-- A grouped run is accepted, and its underscores are left out. -/
theorem Grouped.ungroup_eq (h : Grouped r run) : ungroup run = some (run.filter (· != '_')) := by
  fun_induction ungroup run with
  | case1 => exact absurd rfl h.ne_nil
  | case2 => exact absurd h not_grouped_underscore
  | case3 c hc => simp [hc]
  | case4 d run => exact absurd h not_grouped_underscore
  | case5 c run hc ih =>
    rw [ih h.of_cons_underscore]
    simp [hc]
  | case6 c d run hc hd ih =>
    rw [ih (Grouped.of_append [c] h hd)]
    simp [hc]

/-- An accepted run is grouped. -/
theorem grouped_of_ungroup {ds : List Char} (hrun : IsRun r run) (h : ungroup run = some ds) :
    Grouped r run := by
  fun_induction ungroup run generalizing ds with
  | case1 => cases h
  | case2 => cases h
  | case3 c hc =>
    obtain ⟨hdigit, -⟩ := isRun_cons.mp hrun
    exact grouped_singleton (hdigit.resolve_right hc)
  | case4 d run => cases h
  | case5 c run hc ih =>
    obtain ⟨rest, hrest, -⟩ := Option.map_eq_some_iff.mp h
    obtain ⟨hdigit, htail⟩ := isRun_cons.mp hrun
    obtain ⟨-, hrun⟩ := isRun_cons.mp htail
    exact (ih hrun hrest).cons_underscore (hdigit.resolve_right hc)
  | case6 c d run hc hd ih =>
    obtain ⟨rest, hrest, -⟩ := Option.map_eq_some_iff.mp h
    obtain ⟨hdigit, htail⟩ := isRun_cons.mp hrun
    exact (ih htail hrest).cons_digit (hdigit.resolve_right hc)

end Grouped

/-! ## Reading -/

section Reading

variable {r : Radix} {lead run : List Char} {l : IntLiteral}

theorem ofRun?_eq_some_iff (hrun : IsRun r run) :
    ofRun? r run = some l ↔
      l.radix = r ∧ Grouped r run ∧ l.digits = run.filter (· != '_') := by
  constructor
  · intro h
    obtain ⟨digits, hdigits, rfl⟩ := Option.map_eq_some_iff.mp h
    have hgrouped := grouped_of_ungroup hrun hdigits
    rw [hgrouped.ungroup_eq] at hdigits
    exact ⟨rfl, hgrouped, (Option.some.inj hdigits).symm⟩
  · rintro ⟨rfl, hgrouped, hdigits⟩
    rw [ofRun?, hgrouped.ungroup_eq, ← hdigits]
    rfl

theorem Grouped.afterLetter_eq (h : Grouped r run) : afterLetter run = run := by
  cases run with
  | nil => rfl
  | cons c run =>
    have hc : c ≠ '_' := by
      rintro rfl
      exact not_grouped_underscore h
    simp [afterLetter, hc]

theorem eq_append_afterLetter (run : List Char) :
    ∃ under, (under = [] ∨ under = ['_']) ∧ run = under ++ afterLetter run := by
  fun_cases afterLetter run with
  | case1 run => exact ⟨['_'], .inr rfl, rfl⟩
  | case2 => exact ⟨[], .inl rfl, rfl⟩

/-- The literals of the four forms, by the run that is read for each. -/
theorem ofText?_eq (h : Numeral r lead run) :
    ofText? (lead ++ run) = ofRun? r (if lead = [] then run else afterLetter run) := by
  cases h with
  | @lettered _ letter _ hletter _ _ =>
    show ofText? ('0' :: letter :: run) = _
    simp [ofText?, Radix.ofLetter?_of_mem hletter]
  | @decimal d rest _ hrest =>
    rw [List.nil_append, if_pos rfl]
    cases rest with
    | nil => simp [ofText?]
    | cons e rest =>
      by_cases hzero : d = '0'
      · subst hzero
        simp [ofText?, Radix.ofLetter?_of_decimal (hrest e List.mem_cons_self)]
      · simp [ofText?, hzero]

theorem Numeral.isRun (h : Numeral r lead run) : IsRun r run := by
  cases h with
  | lettered _ _ hrun => exact hrun
  | decimal hd hrun => exact isRun_cons.mpr ⟨.inl hd, hrun⟩

/-- What is read is the literal that the run spells. -/
theorem ofText?_eq_some_iff (h : Numeral r lead run) :
    ofText? (lead ++ run) = some l ↔ l.radix = r ∧ Spells lead run l := by
  have hrun := h.isRun
  rw [ofText?_eq h]
  by_cases hlead : lead = []
  · rw [if_pos hlead, ofRun?_eq_some_iff hrun]
    constructor
    · rintro ⟨rfl, hgrouped, hdigits⟩
      exact ⟨rfl, [], run, .inl rfl, rfl, hgrouped, hdigits⟩
    · rintro ⟨rfl, under, body, rfl | ⟨hne, -⟩, rfl, hgrouped, hdigits⟩
      · exact ⟨rfl, hgrouped, hdigits⟩
      · exact absurd hlead hne
  · obtain ⟨under, hunder, hcut⟩ := eq_append_afterLetter run
    rw [hcut] at hrun
    rw [if_neg hlead, ofRun?_eq_some_iff hrun.of_append]
    constructor
    · rintro ⟨rfl, hgrouped, hdigits⟩
      exact ⟨rfl, under, afterLetter run, hunder.imp_right (⟨hlead, ·⟩), hcut, hgrouped, hdigits⟩
    · rintro ⟨rfl, under, body, rfl | ⟨-, rfl⟩, rfl, hgrouped, hdigits⟩
      · rw [hgrouped.afterLetter_eq]
        exact ⟨rfl, hgrouped, hdigits⟩
      · exact ⟨rfl, hgrouped, hdigits⟩

end Reading

/-! ## Values -/

/-- Adding digit by digit gives the positional value. -/
theorem foldl_eq_ofDigits (base : Nat) (value : Char → Nat) (digits : List Char) :
    digits.foldl (fun n c => n * base + value c) 0 =
      Nat.ofDigits base (digits.reverse.map value) := by
  induction digits using List.reverseRecOn with
  | nil => rfl
  | append_singleton digits c ih =>
    rw [List.foldl_append, ih, List.reverse_append, List.reverse_singleton, List.singleton_append,
      List.map_cons, Nat.ofDigits_cons, List.foldl_cons, List.foldl_nil, Nat.mul_comm, Nat.add_comm]

theorem magnitude_eq_positional {l : IntLiteral} (h : ∀ c ∈ l.digits, c ∈ l.radix.alphabet) :
    l.magnitude = positional l.radix.base l.digits := by
  rw [magnitude, foldl_eq_ofDigits, positional]
  congr 1
  refine List.map_congr_left ?_
  intro c hc
  rw [Radix.digitValue?_of_mem (h c (List.mem_reverse.mp hc)), Option.getD_some]

theorem Spells.mem_alphabet {lead run : List Char} {l : IntLiteral} (h : Spells lead run l) :
    ∀ c ∈ l.digits, c ∈ l.radix.alphabet := by
  obtain ⟨under, body, -, -, hgrouped, hdigits⟩ := h
  intro c hc
  rw [hdigits, List.mem_filter, bne_iff_ne] at hc
  exact (hgrouped.isRun c hc.1).resolve_right hc.2

theorem Numeral.base_eq {r : Radix} {lead run : List Char} (h : Numeral r lead run) :
    r.base = announced lead := by
  cases h with
  | @lettered _ letter _ hletter _ _ =>
    have hall : r.letters.all (fun c => r.base == announced ['0', c]) = true := by cases r <;> rfl
    exact eq_of_all_beq hall hletter
  | decimal _ _ => rfl

end IntLiteral

/-! ## Tokens -/

namespace Number

open IntLiteral (IsRun Numeral)

theorem takeWhile_isRunChar {r : Radix} {run : List Char} (h : IsRun r run) :
    run.takeWhile r.isRunChar = run := by
  rw [List.takeWhile_eq_self_iff]
  exact fun c hc => Radix.isRunChar_of_mem (h c hc)

/-- A literal of one of the four forms is the longest number in its text. -/
theorem atDigit_numeral {r : Radix} {lead run : List Char} (h : Numeral r lead run) :
    atDigit (lead ++ run) = (.integer, (lead ++ run).length) := by
  cases h with
  | @lettered _ letter _ hletter hne hrun =>
    have hlength : letteredLength ('0' :: letter :: run) = run.length + 2 := by
      cases run with
      | nil => exact absurd rfl hne
      | cons c run =>
        simp only [letteredLength, Radix.ofLetter?_of_mem hletter, takeWhile_isRunChar hrun,
          List.length_cons]
        omega
    simp [atDigit, hlength]
  | @decimal d rest hd hrest =>
    have hlength : letteredLength (d :: rest) = 0 := by
      by_cases hzero : d = '0'
      · subst hzero
        cases rest with
        | nil => rfl
        | cons e rest =>
          simp [letteredLength, Radix.ofLetter?_of_decimal (hrest e List.mem_cons_self)]
      · simp [letteredLength, hzero]
    have hrun : runLength (d :: rest) = (d :: rest).length := by
      rw [runLength, takeWhile_isRunChar (IntLiteral.isRun_cons.mpr ⟨.inl hd, hrest⟩)]
    simp [atDigit, hlength, hrun, exponentLength]

end Number

namespace Lexeme

open IntLiteral (Numeral)

/-- A lexeme that begins with a decimal digit is a number. -/
theorem measure_digit {c : Char} (hc : c ∈ Radix.decimal.alphabet) (cs : List Char) :
    measure c cs = (.number (Number.atDigit (c :: cs)).1, (Number.atDigit (c :: cs)).2 - 1) := by
  have hall : Radix.decimal.alphabet.all (fun c => c.isDigit && !isGap c && c != '#' && c != '\n' &&
      c != '\\' && !Quoted.isQuote c && !Quoted.isMark c && !beginsWord c) = true := rfl
  have hplain := List.all_eq_true.mp hall c hc
  simp only [Bool.and_eq_true, Bool.not_eq_true', bne_iff_ne] at hplain
  obtain ⟨⟨⟨⟨⟨⟨⟨hdigit, hgap⟩, hhash⟩, hbreak⟩, hslash⟩, hquote⟩, hmark⟩, hword⟩ := hplain
  have hquoted : Quoted.longest? (c :: cs) = none := by
    simp [Quoted.longest?, Quoted.opening?, hquote, hmark]
  simp [measure, hgap, hhash, hbreak, hslash, hquoted, hword, Number.longest?, hdigit]

theorem split_numeral {r : Radix} {lead run : List Char} (h : Numeral r lead run) :
    split (lead ++ run) = [{ form := .number .integer, text := lead ++ run }] := by
  have hlongest := Number.atDigit_numeral h
  obtain ⟨c, cs, htext, hc⟩ : ∃ c cs, lead ++ run = c :: cs ∧ c ∈ Radix.decimal.alphabet := by
    cases h with
    | lettered _ _ _ => exact ⟨'0', _, rfl, by decide⟩
    | decimal hd _ => exact ⟨_, _, rfl, hd⟩
  rw [htext] at hlongest ⊢
  rw [split_cons, measure_digit hc, hlongest]
  simp [split]

end Lexeme

namespace IntLiteral

/-- The error for a text that is one refused literal. -/
def refusal (w : List Char) : LexError :=
  { fault := .invalidInteger, span := { offset := 0, length := byteLength w } }

/-- **Integer literals keep their exact value.** A text of one of the four forms is read as the
literal that its run spells, or it is refused. -/
theorem numeral_read_exactly {r : Radix} {lead run : List Char} (h : Numeral r lead run) :
    (∀ l, ofText? (lead ++ run) = some l ↔ l.radix = r ∧ Spells lead run l) ∧
    (∀ l, ofText? (lead ++ run) = some l →
      l.radix.base = announced lead ∧
      l.value? = (if positional (announced lead) l.digits < 2 ^ 64
        then some (positional (announced lead) l.digits) else none) ∧
      tokenize (String.ofList (lead ++ run)) = .ok (Layout.loneTokens (.int l) (lead ++ run))) ∧
    (ofText? (lead ++ run) = none →
      tokenize (String.ofList (lead ++ run)) = .error (refusal (lead ++ run))) := by
  have hlexemes : tokenize (String.ofList (lead ++ run)) =
      Layout.run {} [{ form := .number .integer, text := lead ++ run }] := by
    rw [tokenize, String.toList_ofList, Lexeme.split_numeral h]
  refine ⟨fun l => ofText?_eq_some_iff h, ?_, ?_⟩
  · intro l hl
    obtain ⟨rfl, hspells⟩ := (ofText?_eq_some_iff h).mp hl
    refine ⟨h.base_eq, ?_, ?_⟩
    · rw [value?, magnitude_eq_positional hspells.mem_alphabet, h.base_eq]
      rfl
    · rw [hlexemes]
      exact Layout.run_lone (by simp [Lexeme.role, hl]) rfl rfl
  · intro hnone
    have hrole : Lexeme.role { form := .number .integer, text := lead ++ run } = .badInteger := by
      simp [Lexeme.role, hnone]
    have hstep : Layout.step {} { form := .number .integer, text := lead ++ run } =
        .error (refusal (lead ++ run)) := by
      simp [Layout.step, hrole, refusal]
    rw [hlexemes, Layout.run_cons, hstep]
    rfl

/-- Digits in either case behind an underscore, the least number that does not fit in 64 bits, and
two underscores in a row. -/
theorem numeral_read_exactly_grouped_large_refused :
    Numeral .hex ['0', 'x'] "_Ff_0".toList ∧
      ofText? "0x_Ff_0".toList = some { radix := .hex, digits := "Ff0".toList } ∧
      value? { radix := .hex, digits := "Ff0".toList } = some 4080 ∧
      Numeral .decimal [] "18446744073709551616".toList ∧
      value? { radix := .decimal, digits := "18446744073709551616".toList } = none ∧
      Numeral .decimal [] "1__0".toList ∧
      tokenize "1__0" = .error (refusal "1__0".toList) := by
  have hrun : ∀ (r : Radix) (run : List Char),
      run.all (fun c => r.alphabet.contains c || c == '_') = true → IsRun r run := by
    intro r run h c hc
    simpa using List.all_eq_true.mp h c hc
  have hhex : Numeral .hex ['0', 'x'] "_Ff_0".toList :=
    .lettered (by decide) (by decide) (hrun _ _ rfl)
  have hlarge : Numeral .decimal [] "18446744073709551616".toList :=
    .decimal (by decide) (hrun _ _ rfl)
  have hdoubled : Numeral .decimal [] "1__0".toList := .decimal (by decide) (hrun _ _ rfl)
  refine ⟨hhex, ?_, ?_, hlarge, ?_, hdoubled, ?_⟩
  · rfl
  · exact ((numeral_read_exactly hhex).2.1 _ rfl).2.1
  · exact ((numeral_read_exactly hlarge).2.1 _ rfl).2.1
  · exact (numeral_read_exactly hdoubled).2.2 rfl

end IntLiteral

end FieldView
