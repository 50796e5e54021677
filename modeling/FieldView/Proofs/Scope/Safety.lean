import FieldView.Proofs.Scope.Bounds
import FieldView.Proofs.Scope.Level

/-!
# Classifying names never fails

From expressions on, the reader by positions is followed through parts of statements, statements,
bodies and function definitions up to the classified names of a text. No step faults on any run of
tokens, so brackets that do not close, headers without a colon and names that are cut off need no
case of their own.

The statement that carries the rest is `scanStatement_eq`. A statement is read where no statement
ends, and this is what puts its own end behind its first token.
-/

set_option autoImplicit false

namespace FieldView.Scope.Cursor

/-! ## Parts of statements -/

theorem scanAll_eq {scan : List Token → Checked (List Mark)} {marks : List Token → List Mark}
    (hscan : ∀ part, scan part = .ok (marks part)) (parts : List (List Token)) :
    scanAll scan parts = .ok (parts.flatMap marks) := by
  induction parts with
  | nil => rfl
  | cons part parts ih =>
    rw [scanAll, hscan, ok_bind, ih, List.flatMap_cons]
    rfl

theorem scanSides_eq {p : Kind → Bool} {before behind : List Token → Nat → Checked (List Mark)}
    {left right : List Token → List Mark} (hbefore : ∀ ts, before ts 0 = .ok (left ts))
    (hbehind : ∀ ts, behind ts 0 = .ok (right ts)) (ts : List Token) :
    scanSides p before behind ts =
      .ok (if topAt p ts < ts.length then
        left (ts.take (topAt p ts)) ++ right (ts.drop (topAt p ts + 1))
      else exprMarks false ts) := by
  unfold scanSides
  rw [head?_places]
  by_cases h : topAt p ts < ts.length
  · simp only [h, if_true, slice_front (Nat.le_of_lt h), slice_back h, hbefore, hbehind, ok_bind,
      pure_eq_ok]
  · simp only [h, if_false, scanExpr_whole]

theorem bindImport_eq (own : List Token → Option Token) (item : List Token) :
    bindImport own item = importMarks own item := by
  unfold bindImport importMarks
  rw [head?_places]
  by_cases h : topAt isAs item < item.length
  · simp only [h, if_true]
    cases item[topAt isAs item + 1]?.bind (·.kind.ident?) with
    | none => rfl
    | some name => rfl
  · simp only [h, if_false]
    cases (own item).bind (·.kind.ident?) with
    | none => rfl
    | some name => rfl

theorem dropWhile_eq_drop {p q : Token → Bool} (hq : ∀ t, q t = !p t) (ts : List Token) :
    ts.dropWhile q = ts.drop (ts.findIdx p) := by
  rw [List.dropWhile_eq_drop_findIdx_not]
  simp only [hq, Bool.not_not]

theorem bindFrom_eq (stmt : List Token) : bindFrom stmt = .ok (fromImportMarks stmt) := by
  have hdrop : stmt.dropWhile (·.kind != .keyword .importKw) =
      stmt.drop (stmt.findIdx (·.kind == .keyword .importKw)) :=
    dropWhile_eq_drop (fun t => rfl) stmt
  unfold bindFrom fromImportMarks
  rw [hdrop]
  cases hfind : stmt.findIdx? (·.kind == .keyword .importKw) with
  | none =>
    rw [List.findIdx?_eq_none_iff_findIdx_eq.mp hfind, List.drop_length]
    rfl
  | some place =>
    obtain ⟨hlt, hplace⟩ := List.findIdx?_eq_some_iff_findIdx_eq.mp hfind
    rw [hplace, List.drop_eq_getElem_cons hlt]
    simp only [slice_back hlt, split_eq, ok_bind, pure_eq_ok, funext (bindImport_eq _)]

theorem scanParamTail_eq (param : List Token) :
    scanParamTail param = .ok (paramTailMarks param) := by
  have hdrop : param.dropWhile (fun t => t.kind != .punct .colon && t.kind != .punct .eq) =
      param.drop (param.findIdx fun t => t.kind == .punct .colon || t.kind == .punct .eq) :=
    dropWhile_eq_drop (fun t => (Bool.not_or _ _).symm) param
  unfold scanParamTail paramTailMarks
  rw [hdrop]
  cases hfind : param.findIdx? (fun t => t.kind == .punct .colon || t.kind == .punct .eq) with
  | none =>
    rw [List.findIdx?_eq_none_iff_findIdx_eq.mp hfind, List.drop_length]
    rfl
  | some place =>
    obtain ⟨hlt, hplace⟩ := List.findIdx?_eq_some_iff_findIdx_eq.mp hfind
    rw [hplace, List.drop_eq_getElem_cons hlt]
    simp only [slice_back hlt, split_eq, ok_bind, scanAll_eq scanExpr_whole]

theorem scanBrackets_eq (isDef : Bool) (inner : List Token) :
    scanBrackets isDef inner =
      .ok (if isDef then (splitTop isComma inner).flatMap paramTailMarks
        else exprMarks false inner) := by
  cases isDef with
  | true =>
    unfold scanBrackets
    simp only [if_true, split_eq, ok_bind, scanAll_eq scanParamTail_eq]
  | false => exact scanExpr_whole inner

theorem scanNestedHeader_eq (isDef : Bool) (header : List Token) :
    scanNestedHeader isDef (header.drop 1) = .ok (nestedHeaderMarks isDef header) := by
  unfold scanNestedHeader nestedHeaderMarks
  cases hheader : header.drop 1 with
  | nil => rfl
  | cons t ts =>
    have h : Reads (t :: ts) 0 t ts := reads_of_drop rfl
    by_cases hk : t.kind = .opening .paren
    · have hle := closingAt_le ts
      have hclose : min (matchingClose (t :: ts) 0) (t :: ts).length = 0 + 1 + closingAt ts := by
        rw [matchingClose_eq h (by rw [hk]; rfl), h.length]
        omega
      have hopen : (t :: ts).head?.any (·.kind == .opening .paren) = true := by
        rw [List.head?_cons, Option.any_some, hk]
        rfl
      have hinner : slice (t :: ts) 1 (0 + 1 + closingAt ts) = .ok (ts.take (closingAt ts)) :=
        h.slice_eq hle
      simp only [hopen, if_true, hk, hclose, Nat.max_eq_left (Nat.le_add_right (0 + 1) _), hinner,
        ok_bind, scanBrackets_eq]
      by_cases hmore : 0 + 1 + closingAt ts + 1 < (t :: ts).length
      · rw [if_pos hmore, slice_back (Nat.le_of_lt hmore), ok_bind, scanExpr_whole, ok_bind,
          Nat.add_assoc (0 + 1), h.drop_add]
        rfl
      · rw [if_neg hmore, List.drop_eq_nil_of_le (by rw [h.length] at hmore; omega), exprMarks,
          List.append_nil]
        rfl
    · have hopen : (t :: ts).head?.any (·.kind == .opening .paren) = false := by
        rw [List.head?_cons, Option.any_some]
        exact beq_eq_false_iff_ne.mpr hk
      simp only [hopen, hk, Bool.false_eq_true, if_false, pure_eq_ok]

/-! ## Statements -/

section Statements

variable {ts : List Token} {i : Nat} {t : Token} {rest : List Token} {n : Nat}

theorem Reads.headerColon_eq (h : Reads ts i t rest) (hn : n ≤ rest.length) :
    headerColon ts (i + 1) (i + 1 + n) = .ok (i + 1 + colonAt (rest.take n)) := by
  have hlength := h.length
  rw [Cursor.headerColon_eq (Nat.le_add_right _ _) (by omega), List.drop_take,
    Nat.add_sub_cancel_left, h.back]

theorem colonAt_take_le (hn : n ≤ rest.length) : colonAt (rest.take n) ≤ n := by
  have hle := colonFrom_le 0 0 (rest.take n)
  rwa [List.length_take, Nat.min_eq_left hn] at hle

theorem scanLine_eq (h : Reads ts i t rest) (hn : n ≤ rest.length)
    {scan : List Token → Checked (List Mark)} {marks : List Mark}
    (hscan : scan (rest.take n) = .ok marks) :
    scanLine ts i (i + 1 + n) scan = .ok (marks, i + 1 + n) := by
  unfold scanLine
  rw [h.slice_eq hn, ok_bind, hscan]
  rfl

theorem scanHeader_eq (h : Reads ts i t rest) (hn : n ≤ rest.length)
    {scan : List Token → Checked (List Mark)} {marks : List Mark}
    (hscan : scan ((rest.take n).take (colonAt (rest.take n))) = .ok marks) :
    scanHeader ts i (i + 1 + n) scan = .ok (marks, i + 1 + (colonAt (rest.take n) + 1)) := by
  have hcolon := colonAt_take_le hn
  unfold scanHeader
  rw [List.take_take, Nat.min_eq_left hcolon] at hscan
  rw [h.headerColon_eq hn, ok_bind, h.slice_eq (by omega), ok_bind, hscan]
  rfl

theorem skipHeader_eq (h : Reads ts i t rest) (hn : n ≤ rest.length) :
    skipHeader ts i (i + 1 + n) = .ok ([], i + 1 + (colonAt (rest.take n) + 1)) := by
  unfold skipHeader
  rw [h.headerColon_eq hn]
  rfl

/-- The header of a nested definition behind its name, which may be all that there is of it. -/
theorem slice_behindName (h : Reads ts i t rest) (hn : n ≤ rest.length) :
    slice ts (min (i + 2) (i + 1 + n)) (i + 1 + n) = .ok ((rest.take n).drop 1) := by
  have hlength := h.length
  cases n with
  | zero => rw [Nat.min_eq_right (by omega), h.slice_eq (Nat.zero_le _)]; rfl
  | succ n =>
    rw [Nat.min_eq_left (by omega), slice_eq (by omega) (by omega), ← Nat.add_assoc i 1 1,
      ← List.drop_drop, List.drop_take, Nat.add_sub_cancel_left, h.back]

/-- A line end that follows the colon of a header is the end of the header's line. -/
theorem lineEnd_of_newline {start depth k : Nat}
    (hn : n = positionFrom endsStatement depth (ts.drop start)) (hk : k < n)
    (hnewline : isAt ts (start + k + 1) .newline = true) : start + k + 1 = start + n := by
  unfold isAt at hnewline
  rw [Nat.add_assoc, ← List.getElem?_drop] at hnewline
  cases hu : (ts.drop start)[k + 1]? with
  | none =>
    rw [hu] at hnewline
    cases hnewline
  | some u =>
    rw [hu, Option.any_some] at hnewline
    have hstop (d : Nat) : endsStatement d u.kind = true := by
      rw [eq_of_beq hnewline]
      rfl
    have hle : positionFrom endsStatement depth (ts.drop start) ≤ k + 1 :=
      positionFrom_le_of_stop hu hstop
    omega

/-- The suite of a header whose colon stands `k` tokens behind the one that begins it. -/
theorem Reads.suiteAfter_eq (h : Reads ts i t rest) {depth k : Nat}
    (hn : n = positionFrom endsStatement depth rest) (hk : k < n) :
    suiteAfter ts (i + 1 + k) (i + 1 + n) =
      .ok (rangeAt (suite (rest.drop (k + 1))) (i + 1 + (k + 1)),
        i + 1 + (k + 1) + (suite (rest.drop (k + 1))).next) := by
  have hline : isAt ts (i + 1 + k + 1) .newline = true → i + 1 + k + 1 = i + 1 + n := by
    rw [← h.back] at hn
    exact lineEnd_of_newline hn hk
  rw [Cursor.suiteAfter_eq hline, Nat.add_assoc (i + 1), h.drop_add]

/-- A result that counts the tokens behind the one at `i`, by places. -/
def placedAt (i : Nat) (r : List Mark × Nat) : List Mark × Nat := (r.1, i + 1 + r.2)

theorem lt_placedAt (i : Nat) (r : List Mark × Nat) : i < (placedAt i r).2 :=
  Nat.lt_add_right r.2 (Nat.lt_succ_self i)

theorem Reads.drop_placedAt (h : Reads ts i t rest) (r : List Mark × Nat) :
    ts.drop (placedAt i r).2 = rest.drop r.2 := h.drop_add r.2

theorem scanNested_eq (h : Reads ts i t rest)
    (hn : n = positionFrom endsStatement (nest 0 t.kind) rest) :
    scanNested ts i (i + 1 + n) =
      .ok (placedAt i (statementMarks.nested rest (t.kind == .keyword .defKw) n (rest.take n)
        (colonAt (rest.take n)) ((rest.take n).take (colonAt (rest.take n))))) := by
  have hle : n ≤ rest.length := hn ▸ positionFrom_le ..
  have hcolon := colonAt_take_le hle
  unfold scanNested statementMarks.nested placedAt
  rw [h.tokenAt_eq, ok_bind, h.headerColon_eq hle, ok_bind, slice_behindName h (by omega), ok_bind,
    h.getElem?_succ, List.take_take, Nat.min_eq_left hcolon, scanNestedHeader_eq, ok_bind,
    List.length_take, Nat.min_eq_left hle]
  by_cases hsuite : colonAt (rest.take n) < n
  · rw [if_neg (by omega), if_pos hsuite, h.suiteAfter_eq hn hsuite, ok_bind, Nat.add_assoc (i + 1)]
    rfl
  · rw [if_pos (by omega), if_neg hsuite]
    rfl

/-! ## Simple statements -/

theorem splitTop_ne_nil (p : Kind → Bool) (ts : List Token) : splitTop p ts ≠ [] := by
  rw [splitTop]
  split
  · exact List.cons_ne_nil _ _
  · exact List.cons_ne_nil _ _

/-- Targets up to the last `=` of the part that can hold one, and then the value with all of what
follows that part. -/
theorem scanChain_eq (head tail : List Token) {last : Nat} (hlast : last ≤ head.length)
    (hrest : head.drop last = rest) :
    scanChain (head ++ tail) last (placesFrom isEq 0 last rest) =
      .ok ((splitTop isEq rest).dropLast.flatMap (targetMarks false) ++
        exprMarks false ((splitTop isEq rest).getLast?.getD [] ++ tail)) := by
  have hdrop : (head ++ tail).drop last = rest ++ tail := by
    rw [List.drop_append_of_le_length hlast, hrest]
  fun_induction splitTop isEq rest generalizing last with
  | case1 rest n hlt =>
    rename_i ih
    have hlength : rest.length = head.length - last := by rw [← hrest, List.length_drop]
    have hnext : head.drop (last + topAt isEq rest + 1) = rest.drop (topAt isEq rest + 1) := by
      rw [← hrest, List.drop_drop, Nat.add_assoc]
    have hnext' : (head ++ tail).drop (last + topAt isEq rest + 1) =
        rest.drop (topAt isEq rest + 1) ++ tail := by
      rw [List.drop_append_of_le_length (by omega), hnext]
    rw [placesFrom_top, if_pos hlt, scanChain, slice_drop (by rw [List.length_append]; omega),
      hdrop, List.take_append_of_le_length (Nat.le_of_lt hlt), ok_bind, bindTargets_whole, ok_bind,
      ih (by omega) hnext hnext', List.dropLast_cons_of_ne_nil (splitTop_ne_nil _ _),
      List.getLast?_cons_of_ne_nil (splitTop_ne_nil _ _), List.flatMap_cons, List.append_assoc]
    rfl
  | case2 rest n =>
    rename_i hlt
    rw [placesFrom_top, if_neg hlt, scanChain, slice_back (by rw [List.length_append]; omega),
      hdrop, ok_bind, scanExpr_whole]
    rfl

theorem scanTyped_eq {stmt : List Token} {colon eqAt size : Nat} (hcolon : colon < eqAt)
    (heq : eqAt ≤ size) (hsize : size ≤ stmt.length) :
    scanTyped stmt colon (if eqAt < size then some eqAt else none) =
      .ok (targetMarks false (stmt.take colon) ++
        if eqAt < size then
          exprMarks false ((stmt.take eqAt).drop (colon + 1)) ++
            exprMarks false (stmt.drop (eqAt + 1))
        else exprMarks false (stmt.drop (colon + 1))) := by
  unfold scanTyped
  rw [slice_front (by omega), ok_bind, bindTargets_whole, ok_bind]
  by_cases hvalue : eqAt < size
  · simp only [hvalue, if_true]
    rw [slice_eq hcolon (by omega), ok_bind, scanExpr_whole, ok_bind, slice_back (by omega),
      ok_bind, scanExpr_whole]
    rfl
  · simp only [hvalue, if_false]
    rw [slice_back (by omega), ok_bind, scanExpr_whole]
    rfl

/-- The colon of a typed target stands before the first `=`. -/
theorem typeColon_eq (head : List Token) :
    ((places (· == .punct .colon) head).head?.filter fun colon =>
        (places isEq head).head?.all (colon < ·)) =
      if topAt (· == .punct .colon) head < topAt isEq head then
        some (topAt (· == .punct .colon) head)
      else none := by
  have hle := topAt_le isEq head
  rw [head?_places, head?_places]
  by_cases hcolon : topAt (· == .punct .colon) head < head.length
  · by_cases heq : topAt isEq head < head.length
    · simp only [hcolon, heq, if_true, Option.filter_some, Option.all_some, decide_eq_true_eq]
    · simp only [hcolon, heq, if_true, if_false, Option.filter_some, Option.all_none]
      rw [if_pos (by omega)]
  · rw [if_neg hcolon, Option.filter_none, if_neg (by omega)]

theorem scanSimple_eq (stmt : List Token) : scanSimple stmt = .ok (simpleMarks stmt) := by
  have hle := topAt_le (· == .keyword .lambdaKw) stmt
  unfold scanSimple simpleMarks
  rw [getD_head?_places, slice_front hle, ok_bind]
  generalize hhead : stmt.take (topAt (· == .keyword .lambdaKw) stmt) = head
  have hsize : head.length ≤ stmt.length := hhead ▸ (List.take_sublist _ _).length_le
  have hstmt : head ++ stmt.drop head.length = stmt := by
    have hlength : head.length = topAt (· == .keyword .lambdaKw) stmt := by
      rw [← hhead, List.length_take, Nat.min_eq_left hle]
    rw [hlength, ← hhead, List.take_append_drop]
  rw [head?_places]
  by_cases haug : topAt isAugAssign head < head.length
  · simp only [haug, if_true]
    rw [slice_front (by omega), ok_bind, bindTargets_whole, ok_bind, slice_back (by omega), ok_bind,
      scanExpr_whole]
    rfl
  · have htype : topAt (· == .punct .colon) (head.take (topAt isEq head)) =
        min (topAt isEq head) (topAt (· == .punct .colon) head) := positionFrom_take ..
    simp only [haug, if_false, typeColon_eq, htype]
    by_cases htyped : topAt (· == .punct .colon) head < topAt isEq head
    · rw [Nat.min_eq_right (Nat.le_of_lt htyped)]
      simp only [htyped, if_true, head?_places]
      exact scanTyped_eq htyped (topAt_le _ _) hsize
    · have hnone : ¬min (topAt isEq head) (topAt (· == .punct .colon) head) < topAt isEq head := by
        omega
      simp only [htyped, hnone, if_false]
      have hchain := scanChain_eq head (stmt.drop head.length) (Nat.zero_le _) rfl
      rw [hstmt] at hchain
      exact hchain

theorem pass_of_positionFrom_pos {stop : Nat → Kind → Bool} {depth : Nat}
    (h : 0 < positionFrom stop depth (t :: rest)) : stop depth t.kind = false := by
  rw [positionFrom] at h
  split at h
  · cases h
  · rename_i hpass
    exact Bool.eq_false_iff.mpr hpass

/-- **A statement is read without a fault, and the reader goes on.** -/
theorem scanStatement_eq (ts : List Token) (i : Nat) {t : Token} {rest : List Token}
    (h : Reads ts i t rest) (hend : endsStatement 0 t.kind = false) :
    scanStatement ts i = .ok (placedAt i (statementMarks t rest)) := by
  have hlt := h.lt
  have hle := positionFrom_le endsStatement (nest 0 t.kind) rest
  rw [scanStatement, if_pos hlt, statementEnd_eq h hend, h.tokenAt_eq, ok_bind,
    statementMarks.eq_def]
  generalize hn : positionFrom endsStatement (nest 0 t.kind) rest = n at hle ⊢
  -- the two ways that more than one word shares
  have nested := scanNested_eq h hn.symm
  have simple : (do
      let stmt ← slice ts i (i + 1 + n)
      let marks ← scanSimple stmt
      return (marks, i + 1 + n) : Checked (List Mark × Nat)) =
        .ok (simpleMarks (t :: rest.take n), i + 1 + n) := by
    rw [h.slice_whole hle, ok_bind, scanSimple_eq]
    rfl
  cases hk : t.kind with
  | keyword w =>
    rw [hk] at nested
    cases w with
    | asyncKw =>
      rw [hk] at hn
      cases rest with
      | nil =>
        cases hn
        exact if_neg (Nat.lt_irrefl _)
      | cons u us =>
        by_cases hmore : 0 < n
        · -- the next token is still of this statement, so a statement begins there too
          have hu : Reads ts (i + 1) u us := reads_of_drop h.back
          have hpass : endsStatement 0 u.kind = false := pass_of_positionFrom_pos (hn ▸ hmore)
          simp only [Nat.lt_add_right_iff_pos, hmore, if_true]
          rw [scanStatement_eq ts (i + 1) hu hpass]
          simp only [placedAt, Nat.add_assoc, Nat.add_comm 1]
        · simp only [Nat.lt_add_right_iff_pos, hmore, if_false]
          rfl
    | defKw => exact nested
    | classKw => exact nested
    | globalKw => exact scanLine_eq h hle rfl
    | nonlocalKw => exact scanLine_eq h hle rfl
    | importKw =>
      apply scanLine_eq h hle
      rw [split_eq, ok_bind, funext (bindImport_eq _)]
      rfl
    | fromKw =>
      have hfrom : fromImportMarks (t :: rest.take n) = fromImportMarks (rest.take n) := by
        unfold fromImportMarks
        rw [List.dropWhile_cons_of_pos]
        rw [hk]
        rfl
      simp only
      rw [h.slice_whole hle, ok_bind, bindFrom_eq, hfrom]
      rfl
    | forKw => exact scanHeader_eq h hle (scanSides_eq bindTargets_whole scanExpr_whole _)
    | withKw =>
      apply scanHeader_eq h hle
      rw [split_eq, ok_bind]
      exact scanAll_eq (scanSides_eq scanExpr_whole bindTargets_whole) _
    | exceptKw => exact scanHeader_eq h hle (scanSides_eq scanExpr_whole bindTargets_whole _)
    | ifKw => exact scanHeader_eq h hle (scanExpr_whole _)
    | elifKw => exact scanHeader_eq h hle (scanExpr_whole _)
    | whileKw => exact scanHeader_eq h hle (scanExpr_whole _)
    | elseKw => exact skipHeader_eq h hle
    | tryKw => exact skipHeader_eq h hle
    | finallyKw => exact skipHeader_eq h hle
    | delKw => exact scanLine_eq h hle (bindTargets_whole _)
    | passKw => rfl
    | breakKw => rfl
    | continueKw => rfl
    | _ => exact simple
  | punct p =>
    cases p with
    | atSign => exact scanLine_eq h hle (scanExpr_whole _)
    | _ => exact simple
  | _ => exact simple
termination_by ts.length - i

theorem pass_of_not_separates {k : Kind} (h : separatesStatements k = false) :
    endsStatement 0 k = false := by
  cases k with
  | punct p =>
    cases p with
    | semicolon => cases h
    | _ => rfl
  | newline => cases h
  | eof => cases h
  | _ => rfl

theorem scanBody_eq (ts : List Token) (i : Nat) :
    scanBody ts i = .ok (bodyMarks (ts.drop i)) := by
  obtain ⟨hnil, hlt⟩ | ⟨t, rest, hcons, h⟩ := drop_cases ts i
  · rw [scanBody, if_neg hlt, hnil, bodyMarks]
    rfl
  · have hlt := h.lt
    rw [scanBody, if_pos hlt, h.tokenAt_eq, ok_bind, hcons, bodyMarks]
    by_cases hsep : separatesStatements t.kind = true
    · rw [if_pos hsep, if_pos hsep, scanBody_eq ts (i + 1), h.back]
    · have hend := pass_of_not_separates (Bool.eq_false_iff.mpr hsep)
      rw [if_neg hsep, if_neg hsep, scanStatement_eq ts i h hend, ok_bind]
      have hnext := lt_placedAt i (statementMarks t rest)
      simp only
      rw [if_pos hnext, scanBody_eq ts (placedAt i (statementMarks t rest)).2, h.drop_placedAt]
      rfl
termination_by ts.length - i

end Statements

/-! ## Functions -/

/-- A function by places, and the function whose stretches stand there. -/
structure Locates (ts : List Token) (function : FunctionAt) (block : FunctionBlock) : Prop where
  name : function.name = block.name
  params : slice ts function.params.start function.params.stop = .ok block.params
  body : slice ts function.body.start function.body.stop = .ok block.body

/-- The same definition read by places from `start` on and as a run. -/
inductive SameRead (ts : List Token) (start : Nat) :
    Except (Option Token) (FunctionAt × Nat) → Except (Option Token) (FunctionBlock × Nat) → Prop
  | fails (culprit : Option Token) : SameRead ts start (.error culprit) (.error culprit)
  | finds {function : FunctionAt} {block : FunctionBlock} {size : Nat}
      (h : Locates ts function block) :
      SameRead ts start (.ok (function, start + size)) (.ok (block, size))

section Functions

variable {ts : List Token} {i : Nat} {t : Token} {rest : List Token}

/-- The bracket that closes ends no statement and no depth but its own. -/
theorem statementEnd_closing (h : Reads ts i t rest) (ht : t.kind.isClosing = true) :
    statementEnd ts i = i + 1 + Scope.statementEnd rest := by
  cases hk : t.kind with
  | closing b =>
    have hpass : endsStatement 0 t.kind = false := by
      rw [hk]
      rfl
    rw [statementEnd_eq h hpass, hk]
    rfl
  | _ =>
    rw [hk] at ht
    cases ht

theorem readFunction_eq (h : Reads ts i t rest) :
    ∃ read, readFunction ts i = .ok read ∧ SameRead ts (i + 1) read (FunctionBlock.read rest) := by
  unfold readFunction
  obtain ⟨hnil, hlt⟩ | ⟨u, us, hcons, hu⟩ := drop_cases ts (i + 1)
  · rw [← h.back, hnil, List.getElem?_eq_none (Nat.not_lt.mp hlt)]
    exact ⟨_, rfl, .fails none⟩
  rw [← h.back, hcons, hu.token, Option.bind_some]
  cases hname : u.kind.ident? with
  | none =>
    simp only [FunctionBlock.read, hname]
    exact ⟨_, rfl, .fails (some u)⟩
  | some name =>
    obtain ⟨hnil, hlt⟩ | ⟨p, inner, hcons, hp⟩ := drop_cases ts (i + 1 + 1)
    · rw [← hu.back, hnil, isAt_missing hlt, List.getElem?_eq_none (Nat.not_lt.mp hlt)]
      simp only [FunctionBlock.read, hname]
      exact ⟨_, rfl, .fails none⟩
    rw [← hu.back, hcons, isAt_eq hp, hp.token]
    simp only [FunctionBlock.read, hname]
    by_cases hparen : p.kind = .opening .paren
    · have hclose := matchingClose_eq hp (by rw [hparen]; rfl)
      simp only [hparen, BEq.rfl, if_true, hclose]
      obtain ⟨hnil, hlt⟩ | ⟨paren, after, hcons, ha⟩ :=
        drop_cases ts (i + 1 + 1 + 1 + closingAt inner)
      · rw [← hp.drop_add, hnil, if_pos (by omega)]
        exact ⟨_, rfl, .fails (some p)⟩
      have hclosing : paren.kind.isClosing = true :=
        isClosing_of_closingAt (by rw [← hp.getElem?_add, ha.token])
      rw [← hp.drop_add, hcons, if_neg (by have := ha.lt; omega), statementEnd_closing ha hclosing]
      simp only
      generalize hn : Scope.statementEnd after = n
      have hle : n ≤ after.length := hn ▸ positionFrom_le ..
      rw [ha.headerColon_eq hle, ok_bind, ha.token, List.length_take, Nat.min_eq_left hle]
      generalize colonAt (after.take n) = k
      by_cases hk : k < n
      · have hnext (next : Nat) : i + 1 + 1 + 1 + closingAt inner + 1 + (k + 1) + next =
            i + 1 + (2 + closingAt inner + 1 + (k + 1) + next) := by omega
        rw [if_neg (by omega), if_pos hk, ha.suiteAfter_eq hn.symm hk, ok_bind, hnext]
        refine ⟨_, rfl, .finds ⟨rfl, hp.slice_eq (closingAt_le inner), ?_⟩⟩
        rw [← ha.drop_add]
        exact slice_rangeAt (by have := ha.length; omega)
      · rw [if_pos (by omega), if_neg hk]
        exact ⟨_, rfl, .fails (some paren)⟩
    · simp only [hparen, beq_eq_false_iff_ne.mpr hparen, Bool.false_eq_true, if_false]
      exact ⟨_, rfl, .fails (some p)⟩

/-- The same answer by places and as a run. -/
inductive SameAnswer (ts : List Token) :
    Except ShapeError FunctionAt → Except ShapeError FunctionBlock → Prop
  | fails (e : ShapeError) : SameAnswer ts (.error e) (.error e)
  | finds {function : FunctionAt} {block : FunctionBlock} (h : Locates ts function block) :
      SameAnswer ts (.ok function) (.ok block)

theorem answer_same (filename : String) {found : Option FunctionAt} {found' : Option FunctionBlock}
    (hfound : Option.Rel (Locates ts) found found') :
    SameAnswer ts (findFunction.answer filename found)
      (Scope.findFunction.answer filename found') := by
  cases hfound with
  | none => exact .fails _
  | some hlocates => exact .finds hlocates

theorem findFunction_eq (filename : String) (ts : List Token) (i : Nat)
    {found : Option FunctionAt} {found' : Option FunctionBlock}
    (hfound : Option.Rel (Locates ts) found found') :
    ∃ answer, findFunction filename ts found i = .ok answer ∧
      SameAnswer ts answer (Scope.findFunction filename found' (ts.drop i)) := by
  obtain ⟨hnil, hlt⟩ | ⟨t, rest, hcons, h⟩ := drop_cases ts i
  · rw [findFunction, if_neg hlt, hnil, Scope.findFunction]
    exact ⟨_, rfl, answer_same filename hfound⟩
  · have hlt := h.lt
    rw [findFunction, if_pos hlt, h.tokenAt_eq, ok_bind, hcons, Scope.findFunction]
    cases hk : t.kind with
    | newline =>
      have ih := findFunction_eq filename ts (i + 1) hfound
      rwa [h.back] at ih
    | eof => exact ⟨_, rfl, answer_same filename hfound⟩
    | punct p =>
      cases p with
      | atSign =>
        have hend : statementEnd ts i = i + 1 + Scope.statementEnd rest := by
          rw [statementEnd_eq h (by rw [hk]; rfl), hk]
          rfl
        have ih := findFunction_eq filename ts (i + 1 + Scope.statementEnd rest + 1) hfound
        rw [Nat.add_assoc (i + 1), h.drop_add, ← Nat.add_assoc (i + 1)] at ih
        simp only [hend]
        rwa [if_pos (by omega)]
      | _ => exact ⟨_, rfl, .fails _⟩
    | keyword w =>
      cases w with
      | defKw =>
        obtain ⟨read, hread, hsame⟩ := readFunction_eq h
        simp only [hread, ok_bind]
        generalize FunctionBlock.read rest = read' at hsame
        cases hsame with
        | fails culprit => exact ⟨_, rfl, .fails _⟩
        | @finds function block size hlocates =>
          cases hfound with
          | some _ => exact ⟨_, rfl, .fails _⟩
          | none =>
            have ih := findFunction_eq filename ts (i + 1 + size) (.some hlocates)
            rw [h.drop_add] at ih
            simp only
            rwa [if_pos (by omega)]
      | asyncKw =>
        have hnext : rest.head?.any (·.kind == .keyword .defKw) =
            isAt ts (i + 1) (.keyword .defKw) := by
          rw [← h.back, any_head?_drop]
        simp only [hnext]
        split
        · have ih := findFunction_eq filename ts (i + 1) hfound
          rwa [h.back] at ih
        · exact ⟨_, rfl, .fails _⟩
      | _ => exact ⟨_, rfl, .fails _⟩
    | _ => exact ⟨_, rfl, .fails _⟩
termination_by ts.length - i

theorem paramNames_eq (params : List Token) :
    paramNames params = .ok (Scope.paramNames params) := by
  unfold paramNames
  rw [split_eq]
  rfl

theorem namesOf_eq (source filename : String) :
    namesOf source filename = .ok (Scope.namesOf source filename) := by
  unfold namesOf Scope.namesOf
  cases tokenize source with
  | error e => rfl
  | ok tokens =>
    obtain ⟨answer, hanswer, hsame⟩ := findFunction_eq filename tokens 0 .none
    simp only [hanswer, ok_bind]
    rw [List.drop_zero] at hsame
    generalize Scope.findFunction filename none tokens = answer' at hsame
    cases hsame with
    | fails e => rfl
    | finds hlocates =>
      simp only [hlocates.params, hlocates.body, paramNames_eq, scanBody_eq, List.drop_zero,
        ok_bind, pure_eq_ok]

end Functions

/-- **Classifying names reads inside its runs and always goes on.** For every text and every file
name the checked reader has no fault and answers what `namesOf` answers; it has none on the body of
a function either, whatever tokens stand there; and a statement is left behind the place at which it
began. -/
theorem namesOf_never_faults :
    (∀ source filename : String, namesOf source filename = .ok (Scope.namesOf source filename)) ∧
    (∀ body : List Token, scanBody body 0 = .ok (bodyMarks body)) ∧
    ∀ (ts : List Token) (i : Nat) (t : Token), ts[i]? = some t → endsStatement 0 t.kind = false →
      ∃ marks next, scanStatement ts i = .ok (marks, next) ∧ i < next := by
  refine ⟨namesOf_eq, fun body => scanBody_eq body 0, ?_⟩
  intro ts i t ht hend
  have h := reads_of_getElem? ht
  exact ⟨_, _, scanStatement_eq ts i h hend, lt_placedAt i _⟩

/-- A loop that breaks off in a lambda without a colon, inside a bracket that does not close. -/
def brokenLoop : List Token :=
  toks [.keyword .asyncKw, .keyword .forKw, .ident "x", .punct .dot, .opening .paren,
    .keyword .lambdaKw, .ident "y"]

theorem brokenLoop_never_faults :
    brokenLoop[0]? = some (Kind.keyword .asyncKw).bare ∧
    endsStatement 0 (Kind.keyword .asyncKw).bare.kind = false ∧
    scanBody brokenLoop 0 = .ok (bodyMarks brokenLoop) ∧
    ∃ marks next, scanStatement brokenLoop 0 = .ok (marks, next) ∧ 0 < next :=
  ⟨rfl, rfl, namesOf_never_faults.2.1 brokenLoop,
    namesOf_never_faults.2.2 brokenLoop 0 (Kind.keyword .asyncKw).bare rfl rfl⟩

end FieldView.Scope.Cursor
