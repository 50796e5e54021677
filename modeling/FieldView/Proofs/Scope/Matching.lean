import Mathlib.Order.Bounds.Defs
import FieldView.Proofs.Scope.Bounds
import FieldView.Proofs.Scope.Erasure
import FieldView.Proofs.Token.Acceptance

/-!
# Positions in the tokens of a text

The searches of the scope analysis count open brackets and never compare their kinds. On the tokens
of a text this is enough. A search passes over a nested run whole, so the first bracket that closes
one more than was opened is the partner of the bracket before the run (`closingAt_nested`), and in
such tokens every bracket has a partner of its own kind.

The end of a statement is found by its depth. What a search counts is the number of brackets that
are open at each place (`depthAfter_of_nestAll`), and where a line or the text ends none is open.
-/

set_option autoImplicit false

namespace FieldView.Scope

/-- How many brackets are open before a place: those opened before it, less those closed. -/
def depthAt (ts : List Token) (i : Nat) : Nat :=
  (ts.take i).countP (·.kind.isOpening) - (ts.take i).countP (·.kind.isClosing)

/-- The kinds of the tokens from one place up to another. -/
def kindsBetween (ts : List Token) (i j : Nat) : List Kind := ((ts.take j).drop i).map (·.kind)

/-- The bracket at `i` is closed by one of its kind at `j`, and what stands between the two is
nested. -/
inductive Encloses : List Token → Nat → Nat → Prop
  | mk {before inner after : List Token} {t u : Token} {b : Bracket} :
      t.kind = .opening b → u.kind = .closing b → Nested (inner.map (·.kind)) →
      Encloses (before ++ t :: (inner ++ u :: after)) before.length
        (before.length + 1 + inner.length)

/-- A line ends at this place, or the text, or a semicolon stands there outside of brackets. -/
def EndsStatementAt (ts : List Token) (i : Nat) : Prop :=
  ∃ t, ts[i]? = some t ∧
    (t.kind = .newline ∨ t.kind = .eof ∨ t.kind = .punct .semicolon ∧ depthAt ts i = 0)

/-! ## Brackets -/

/-- A search for a closing bracket passes over a nested run, at any depth. -/
theorem positionFrom_nested {ks : List Kind} (h : Nested ks) (depth : Nat) (rest : List Token) :
    positionFrom (fun d k => d == 0 && k.isClosing) depth (toks ks ++ rest) =
      ks.length + positionFrom (fun d k => d == 0 && k.isClosing) depth rest := by
  induction h generalizing depth rest with
  | nil => simp
  | @plain k ks hopening hclosing _ ih =>
    have hdepth : nest depth k = depth := by
      cases k with
      | opening b => cases hopening
      | closing b => cases hclosing
      | _ => rfl
    simp only [toks_cons, List.cons_append, positionFrom, Kind.kind_bare, hclosing, Bool.and_false,
      Bool.false_eq_true, if_false, hdepth, ih, List.length_cons]
    omega
  | @group b inner ks _ _ ihinner ih =>
    have hopening : (Kind.opening b).isClosing = false := rfl
    have hinside : ((depth + 1 == 0) && (Kind.closing b).isClosing) = false := rfl
    simp only [toks_cons, toks_append, List.cons_append, List.append_assoc, positionFrom,
      Kind.kind_bare, hopening, Bool.and_false, Bool.false_eq_true, if_false, List.length_cons,
      List.length_append]
    rw [show nest depth (.opening b) = depth + 1 from rfl, ihinner]
    simp only [positionFrom, Kind.kind_bare, hinside, Bool.false_eq_true, if_false]
    rw [show nest (depth + 1) (.closing b) = depth from rfl, ih]
    omega

/-- **The first bracket that closes more than was opened** stands behind the nested run. -/
theorem closingAt_nested {inner after : List Token} {u : Token} (h : Nested (inner.map (·.kind)))
    (hu : u.kind.isClosing = true) : closingAt (inner ++ u :: after) = inner.length := by
  have herase : erase (inner ++ u :: after) =
      toks (inner.map (·.kind)) ++ u.kind.bare :: erase after := by
    simp [erase_eq_toks]
  rw [← closingAt_erase, herase, closingAt, positionFrom_nested h]
  simp [positionFrom, hu]

theorem Encloses.eq_closingAt {ts : List Token} {i j : Nat} (h : Encloses ts i j) :
    j = i + 1 + closingAt (ts.drop (i + 1)) := by
  cases h with
  | @mk before inner after t u b _ hu hinner =>
    have hdrop : (before ++ t :: (inner ++ u :: after)).drop (before.length + 1) =
        inner ++ u :: after := by
      rw [← List.drop_drop, List.drop_left]
      rfl
    rw [hdrop, closingAt_nested hinner (by rw [hu]; rfl)]

/-- In a run that closes all brackets, each one that it opens is closed further on. -/
theorem exists_encloses {before rest : List Token} {t : Token}
    (h : nestAll [] ((before ++ t :: rest).map (·.kind)) = some [])
    (ht : t.kind.isOpening = true) : ∃ j, Encloses (before ++ t :: rest) before.length j := by
  cases hk : t.kind with
  | opening b =>
    rw [List.map_append, List.map_cons, nestAll_append, hk] at h
    obtain ⟨bs, -, h⟩ := Option.bind_eq_some_iff.mp h
    obtain ⟨mid, hmid, hrest⟩ := Option.bind_eq_some_iff.mp h
    cases hmid
    -- What follows closes this bracket first, behind a nested run.
    generalize hkinds : rest.map (·.kind) = ks at hrest
    cases closes_of_nestAll hrest with
    | @close _ _ inner more hinner _ =>
      obtain ⟨inside, behind, rfl, rfl, hbehind⟩ := List.map_eq_append_iff.mp hkinds
      obtain ⟨u, after, rfl, hu, -⟩ := List.map_eq_cons_iff.mp hbehind
      exact ⟨_, .mk hk hu hinner⟩
  | _ =>
    rw [hk] at ht
    cases ht

/-! ## Depths -/

/-- The depth that a search counts after some tokens. -/
def depthAfter (depth : Nat) (ts : List Token) : Nat := ts.foldl (fun d t => nest d t.kind) depth

theorem depthAfter_cons (depth : Nat) (t : Token) (ts : List Token) :
    depthAfter depth (t :: ts) = depthAfter (nest depth t.kind) ts := rfl

theorem nest_of_nest? {bs bs' : List Bracket} {k : Kind} (h : nest? bs k = some bs') :
    nest bs.length k = bs'.length := by
  cases k with
  | closing b =>
    obtain rfl := nest?_closing_eq_some.mp h
    rfl
  | _ =>
    cases h
    rfl

/-- While brackets close in order, the depth is the number of those that are open. -/
theorem depthAfter_of_nestAll {bs bs' : List Bracket} {ts : List Token}
    (h : nestAll bs (ts.map (·.kind)) = some bs') : depthAfter bs.length ts = bs'.length := by
  induction ts generalizing bs with
  | nil =>
    cases h
    rfl
  | cons t ts ih =>
    obtain ⟨mid, hk, hks⟩ := Option.bind_eq_some_iff.mp h
    rw [depthAfter_cons, nest_of_nest? hk]
    exact ih hks

section Search

variable {stop : Nat → Kind → Bool} {depth n : Nat} {ts : List Token} {t : Token}

/-- A search passes every token before its position. -/
theorem stop_of_lt_positionFrom (ht : ts[n]? = some t) (hn : n < positionFrom stop depth ts) :
    stop (depthAfter depth (ts.take n)) t.kind = false := by
  induction ts generalizing depth n with
  | nil => cases ht
  | cons u ts ih =>
    rw [positionFrom] at hn
    split at hn
    · omega
    · rename_i hpass
      cases n with
      | zero =>
        cases ht
        exact Bool.eq_false_iff.mpr hpass
      | succ n => exact ih ht (Nat.lt_of_succ_lt_succ hn)

/-- A search stops at the token at its position. -/
theorem stop_at_positionFrom (ht : ts[positionFrom stop depth ts]? = some t) :
    stop (depthAfter depth (ts.take (positionFrom stop depth ts))) t.kind = true := by
  induction ts generalizing depth with
  | nil => cases ht
  | cons u ts ih =>
    rw [positionFrom] at ht ⊢
    split at ht
    · rename_i hstop
      cases ht
      simp [hstop, depthAfter]
    · rename_i hpass
      rw [if_neg hpass, List.take_succ_cons, depthAfter_cons]
      exact ih ht

end Search

/-! ## The tokens of a text -/

section Stream

variable {ts : List Token} {i j : Nat}

/-- At every place of the tokens of a text the brackets before it have closed in order, and where a
line or a block begins or ends none is open. -/
theorem exists_nestAll_take (h : Laid none 0 [] (ts.map (·.kind))) (hi : i < ts.length) :
    ∃ bs, nestAll [] ((ts.take i).map (·.kind)) = some bs ∧ depthAt ts i = bs.length ∧
      ∀ t, ts[i]? = some t → t.kind.isLayout = true → bs = [] := by
  rw [← List.take_append_drop i ts, List.map_append, List.drop_eq_getElem_cons hi,
    List.map_cons] at h
  obtain ⟨depth, bs, -, hbs, hlaid⟩ := h.cut
  refine ⟨bs, hbs, ?_, ?_⟩
  · have hcount := length_of_nestAll hbs
    simp only [List.countP_map, Function.comp_def, List.length_nil] at hcount
    unfold depthAt
    omega
  · intro t ht hlayout
    rw [List.getElem?_eq_getElem hi] at ht
    cases ht
    by_contra hopen
    rw [hlaid.isLayout_eq_false hopen] at hlayout
    cases hlayout

/-- The same for the tokens from a place outside of brackets on. -/
theorem exists_nestAll_between (h : Laid none 0 [] (ts.map (·.kind))) (hij : i ≤ j)
    (hj : j < ts.length) (hdepth : depthAt ts i = 0) :
    ∃ bs, nestAll [] (kindsBetween ts i j) = some bs ∧ depthAt ts j = bs.length ∧
      ∀ t, ts[j]? = some t → t.kind.isLayout = true → bs = [] := by
  obtain ⟨front, hfront, hlength, -⟩ := exists_nestAll_take h (Nat.lt_of_le_of_lt hij hj)
  obtain ⟨bs, hbs, hrest⟩ := exists_nestAll_take h hj
  obtain rfl : front = [] := List.length_eq_zero_iff.mp (hlength ▸ hdepth)
  refine ⟨bs, ?_, hrest⟩
  have hcut := List.take_append_drop i (ts.take j)
  rw [List.take_take, Nat.min_eq_left hij] at hcut
  rw [← hcut, List.map_append, nestAll_append, hfront] at hbs
  exact hbs

/-- From a place outside of brackets on, a statement ends where the search stops. -/
theorem endsStatement_iff (h : Laid none 0 [] (ts.map (·.kind))) (hdepth : depthAt ts i = 0)
    {n : Nat} {t : Token} (ht : (ts.drop i)[n]? = some t) :
    endsStatement (depthAfter 0 ((ts.drop i).take n)) t.kind = true ↔
      EndsStatementAt ts (i + n) := by
  rw [List.getElem?_drop] at ht
  obtain ⟨hj, -⟩ := List.getElem?_eq_some_iff.mp ht
  obtain ⟨bs, hbs, hlength, -⟩ := exists_nestAll_between h (Nat.le_add_right i n) hj hdepth
  have hafter : depthAfter 0 ((ts.drop i).take n) = depthAt ts (i + n) := by
    rw [kindsBetween, List.drop_take, Nat.add_sub_cancel_left] at hbs
    rw [hlength]
    exact depthAfter_of_nestAll hbs
  simp [hafter, endsStatement, EndsStatementAt, ht, or_assoc, and_comm]

/-- The text has an end, so the search for the end of a statement finds one. -/
theorem statementEnd_lt (h : Laid none 0 [] (ts.map (·.kind))) (hi : i < ts.length) :
    i + statementEnd (ts.drop i) < ts.length := by
  obtain ⟨body, hbody, -, -, -⟩ := h.ends
  obtain ⟨front, back, rfl, -, hback⟩ := List.map_eq_append_iff.mp hbody
  obtain ⟨u, rest, rfl, hu, hrest⟩ := List.map_eq_cons_iff.mp hback
  obtain rfl : rest = [] := List.map_eq_nil_iff.mp hrest
  rw [List.length_append, List.length_singleton] at hi ⊢
  have hlast : ((front ++ [u]).drop i)[front.length - i]? = some u := by
    rw [List.getElem?_drop, Nat.add_sub_cancel' (by omega)]
    simp
  have hle : statementEnd ((front ++ [u]).drop i) ≤ front.length - i := by
    refine Cursor.positionFrom_le_of_stop hlast fun d => ?_
    simp [hu, endsStatement]
  omega

theorem isLeast_statementEnd (h : Laid none 0 [] (ts.map (·.kind))) (hi : i < ts.length)
    (hdepth : depthAt ts i = 0) :
    IsLeast {j | i ≤ j ∧ EndsStatementAt ts j} (i + statementEnd (ts.drop i)) := by
  constructor
  · have hlt := statementEnd_lt h hi
    have htoken : (ts.drop i)[statementEnd (ts.drop i)]? =
        some ts[i + statementEnd (ts.drop i)] := by
      rw [List.getElem?_drop, List.getElem?_eq_getElem hlt]
    exact ⟨Nat.le_add_right _ _,
      (endsStatement_iff h hdepth htoken).mp (stop_at_positionFrom htoken)⟩
  · rintro j ⟨hij, hends⟩
    by_contra hlater
    obtain ⟨n, rfl⟩ := Nat.exists_eq_add_of_le hij
    obtain ⟨t, ht, -⟩ := id hends
    rw [← List.getElem?_drop] at ht
    have hbefore : n < positionFrom endsStatement 0 (ts.drop i) := by
      unfold statementEnd at hlater
      omega
    have hpass := stop_of_lt_positionFrom ht hbefore
    rw [(endsStatement_iff h hdepth ht).mpr hends] at hpass
    cases hpass

/-- A statement ends at a token of the layout, or outside of brackets. -/
theorem EndsStatementAt.isLayout_or_depthAt (h : EndsStatementAt ts j) :
    ∃ t, ts[j]? = some t ∧ (t.kind.isLayout = true ∨ depthAt ts j = 0) := by
  obtain ⟨t, ht, hkind | hkind | ⟨-, hdepth⟩⟩ := h
  · exact ⟨t, ht, .inl (by rw [hkind]; rfl)⟩
  · exact ⟨t, ht, .inl (by rw [hkind]; rfl)⟩
  · exact ⟨t, ht, .inr hdepth⟩

end Stream

/-- **Brackets and statements in the tokens of a text.** -/
theorem positions_exact {source : String} {ts : List Token} (h : tokenize source = .ok ts) :
    (∀ i t, ts[i]? = some t → t.kind.isOpening = true →
      ∀ j, Encloses ts i j ↔ j = i + 1 + closingAt (ts.drop (i + 1))) ∧
    ∀ i < ts.length, depthAt ts i = 0 →
      IsLeast {j | i ≤ j ∧ EndsStatementAt ts j} (i + statementEnd (ts.drop i)) ∧
      depthAt ts (i + statementEnd (ts.drop i)) = 0 ∧
      Nested (kindsBetween ts i (i + statementEnd (ts.drop i))) := by
  have hlaid := laid_of_tokenize h
  constructor
  · intro i t ht hopening j
    constructor
    · exact Encloses.eq_closingAt
    · rintro rfl
      obtain ⟨-, -, -, -, hnest⟩ := hlaid.ends
      obtain ⟨hi, rfl⟩ := List.getElem?_eq_some_iff.mp ht
      have hcut : ts.take i ++ ts[i] :: ts.drop (i + 1) = ts := by
        rw [← List.drop_eq_getElem_cons hi, List.take_append_drop]
      rw [← hcut] at hnest
      obtain ⟨j, hj⟩ := exists_encloses hnest hopening
      rw [hcut, List.length_take, Nat.min_eq_left (Nat.le_of_lt hi)] at hj
      rw [← hj.eq_closingAt]
      exact hj
  · intro i hi hdepth
    have hleast := isLeast_statementEnd hlaid hi hdepth
    obtain ⟨hij, hends⟩ := hleast.1
    obtain ⟨bs, hbs, hlength, hlayout⟩ :=
      exists_nestAll_between hlaid hij (statementEnd_lt hlaid hi) hdepth
    obtain rfl : bs = [] := by
      obtain ⟨t, ht, hkind | hzero⟩ := hends.isLayout_or_depthAt
      · exact hlayout t ht hkind
      · exact List.length_eq_zero_iff.mp (hlength ▸ hzero)
    exact ⟨hleast, hlength, nested_of_nestAll hbs⟩

/-- Two brackets of different kinds, and a semicolon inside of them before the one that ends the
statement. -/
def bracketText : String := "f(a[b;c]);d"

def bracketTokens : List Token :=
  let token (kind : Kind) (offset length : Nat) : Token := { kind, span := { offset, length } }
  [token (.ident "f") 0 1, token (.opening .paren) 1 1, token (.ident "a") 2 1,
   token (.opening .square) 3 1, token (.ident "b") 4 1, token (.punct .semicolon) 5 1,
   token (.ident "c") 6 1, token (.closing .square) 7 1, token (.closing .paren) 8 1,
   token (.punct .semicolon) 9 1, token (.ident "d") 10 1, token .newline 11 0, token .eof 11 0]

theorem tokenize_bracketText : tokenize bracketText = .ok bracketTokens := by
  have hrun : (tokenize bracketText).toOption = some bracketTokens := by decide +kernel
  exact Layout.eq_ok_of_toOption hrun

theorem positions_exact_brackets :
    tokenize bracketText = .ok bracketTokens ∧
    Encloses bracketTokens 1 8 ∧ Encloses bracketTokens 3 7 ∧ depthAt bracketTokens 0 = 0 ∧
    IsLeast {j | 0 ≤ j ∧ EndsStatementAt bracketTokens j} 9 ∧
    depthAt bracketTokens 9 = 0 ∧ Nested (kindsBetween bracketTokens 0 9) := by
  obtain ⟨hbrackets, hstatements⟩ := positions_exact tokenize_bracketText
  refine ⟨tokenize_bracketText, ?_, ?_, rfl, hstatements 0 (by decide) rfl⟩
  · exact (hbrackets 1 _ rfl rfl 8).mpr rfl
  · exact (hbrackets 3 _ rfl rfl 7).mpr rfl

end FieldView.Scope
