import FieldView.Proofs.Scope.Level

/-!
# Spans do not matter to the scope

The analysis looks at the kinds of tokens and never at where they stand in the text. So a run can be
replaced by the bare tokens of the same kinds; this is proved function by function, up to
`bodyMarks_erase`.
-/

set_option autoImplicit false

namespace FieldView.Scope

/-- The tokens without their spans. -/
def erase (ts : List Token) : List Token := ts.map fun t => t.kind.bare

@[simp] theorem erase_nil : erase [] = [] := rfl

@[simp] theorem erase_cons (t : Token) (ts : List Token) : erase (t :: ts) = t.kind.bare :: erase ts :=
  rfl

@[simp] theorem length_erase (ts : List Token) : (erase ts).length = ts.length := List.length_map ..

@[simp] theorem take_erase (n : Nat) (ts : List Token) : (erase ts).take n = erase (ts.take n) :=
  List.map_take.symm

@[simp] theorem drop_erase (n : Nat) (ts : List Token) : (erase ts).drop n = erase (ts.drop n) :=
  List.map_drop.symm

theorem erase_eq_toks (ts : List Token) : erase ts = toks (ts.map Token.kind) := by
  unfold erase toks
  rw [List.map_map]
  rfl

/-! ## Positions -/

@[simp] theorem positionFrom_erase (stop : Nat → Kind → Bool) (depth : Nat) (ts : List Token) :
    positionFrom stop depth (erase ts) = positionFrom stop depth ts := by
  induction ts generalizing depth with
  | nil => rfl
  | cons t ts ih => simp [positionFrom, ih]

@[simp] theorem closingAt_erase (ts : List Token) : closingAt (erase ts) = closingAt ts :=
  positionFrom_erase ..

@[simp] theorem topAt_erase (p : Kind → Bool) (ts : List Token) : topAt p (erase ts) = topAt p ts :=
  positionFrom_erase ..

@[simp] theorem splitTop_erase (p : Kind → Bool) (ts : List Token) :
    splitTop p (erase ts) = (splitTop p ts).map erase := by
  fun_induction splitTop p ts with
  | case1 ts n hlt ih =>
    rw [splitTop]
    simp only [topAt_erase, length_erase, take_erase, drop_erase]
    rw [if_pos hlt, ih]
    rfl
  | case2 ts n hlt =>
    rw [splitTop]
    simp only [topAt_erase, length_erase]
    rw [if_neg hlt]
    rfl

@[simp] theorem colonFrom_erase (depth lambdas : Nat) (ts : List Token) :
    colonFrom depth lambdas (erase ts) = colonFrom depth lambdas ts := by
  induction ts generalizing depth lambdas with
  | nil => rfl
  | cons t ts ih => simp only [erase_cons, colonFrom, Kind.kind_bare, ih]

@[simp] theorem colonAt_erase (ts : List Token) : colonAt (erase ts) = colonAt ts :=
  colonFrom_erase ..

@[simp] theorem blockEnd_erase (inner : Nat) (ts : List Token) :
    blockEnd inner (erase ts) = blockEnd inner ts := by
  induction ts generalizing inner with
  | nil => rfl
  | cons t ts ih => simp only [erase_cons, blockEnd, Kind.kind_bare, ih]

theorem any_head?_erase (p : Kind → Bool) (ts : List Token) :
    (erase ts).head?.any (p ·.kind) = ts.head?.any (p ·.kind) := by
  cases ts <;> rfl

theorem next_suite_erase (ts : List Token) : (suite (erase ts)).next = (suite ts).next := by
  have hbegins : beginsBlock (erase ts) = beginsBlock ts := by
    cases ts with
    | nil => rfl
    | cons t ts => cases ts <;> rfl
  have hline : ((erase ts).takeWhile (·.kind != .newline)).length =
      (ts.takeWhile (·.kind != .newline)).length := by
    unfold erase
    rw [List.takeWhile_map, List.length_map]
    rfl
  unfold suite
  rw [hbegins]
  split
  · simp only [drop_erase, blockEnd_erase, any_head?_erase (· == .dedent)]
  · simp only [hline]

@[simp] theorem lambdaEnd_erase (ts : List Token) : lambdaEnd (erase ts) = lambdaEnd ts := by
  unfold lambdaEnd
  simp only [colonAt_erase, drop_erase, positionFrom_erase]

@[simp] theorem trailerEnd_erase (ts : List Token) : trailerEnd (erase ts) = trailerEnd ts := by
  fun_induction trailerEnd ts with
  | case1 => rw [erase_nil, trailerEnd]
  | case2 t ts hk ih =>
    rw [erase_cons, trailerEnd]
    simp only [Kind.kind_bare, hk, drop_erase, ih]
  | case3 t ts hk n ih =>
    rw [erase_cons, trailerEnd]
    simp only [Kind.kind_bare, hk, closingAt_erase, drop_erase]
    exact congrArg (2 + closingAt ts + ·) ih
  | case4 t ts hk n ih =>
    rw [erase_cons, trailerEnd]
    simp only [Kind.kind_bare, hk, closingAt_erase, drop_erase]
    exact congrArg (2 + closingAt ts + ·) ih
  | case5 t ts hdot hsquare hparen =>
    rw [erase_cons, trailerEnd]
    simp only [Kind.kind_bare]

/-! ## Expressions and targets -/

theorem nameMarks_erase (name : String) (ts : List Token) :
    nameMarks name (erase ts) = nameMarks name ts := by
  cases ts <;> rfl

theorem firstIterable_erase (ts : List Token) :
    firstIterable (erase ts) = erase (firstIterable ts) := by
  unfold firstIterable
  simp only [topAt_erase, drop_erase, take_erase]

@[simp] theorem exprMarks_erase (afterDot : Bool) (ts : List Token) :
    exprMarks afterDot (erase ts) = exprMarks afterDot ts := by
  fun_induction exprMarks afterDot ts with
  | case1 => rw [erase_nil, exprMarks]
  | case2 afterDot t ts name hk ih =>
    rw [erase_cons, exprMarks]
    simp only [Kind.kind_bare, hk, nameMarks_erase, ih]
  | case3 afterDot t ts hk ih =>
    rw [erase_cons, exprMarks]
    simp only [Kind.kind_bare, hk, lambdaEnd_erase, drop_erase, ih]
  | case4 afterDot t ts b hk close inner forAt hfor ihfirst ihrest =>
    rw [erase_cons, exprMarks]
    simp only [Kind.kind_bare, hk, closingAt_erase, take_erase, topAt_erase, length_erase,
      drop_erase, firstIterable_erase]
    rw [if_pos hfor, ← ihfirst, ← ihrest]
  | case5 afterDot t ts b hk close inner forAt hfor ih =>
    rw [erase_cons, exprMarks]
    simp only [Kind.kind_bare, hk, closingAt_erase, take_erase, topAt_erase, length_erase]
    rw [if_neg hfor, ← ih]
  | case6 afterDot t ts hident hlambda hopening ih =>
    rw [erase_cons, exprMarks]
    simp only [Kind.kind_bare, ih]

theorem endsWithDot_erase (ts : List Token) : endsWithDot (erase ts) = endsWithDot ts := by
  unfold endsWithDot erase
  rw [List.getLast?_map, Option.any_map]
  rfl

@[simp] theorem targetMarks_erase (afterDot : Bool) (ts : List Token) :
    targetMarks afterDot (erase ts) = targetMarks afterDot ts := by
  fun_induction targetMarks afterDot ts with
  | case1 => rw [erase_nil, targetMarks]
  | case2 t ts name hk ih =>
    rw [erase_cons, targetMarks]
    simp only [Kind.kind_bare, hk, if_true, ih]
  | case3 afterDot t ts name hk hdot htrailer trailer ih =>
    rw [erase_cons, targetMarks]
    simp only [Kind.kind_bare, hk, any_head?_erase beginsTrailer, htrailer, if_true, hdot,
      trailerEnd_erase, take_erase, drop_erase, exprMarks_erase, endsWithDot_erase]
    rw [if_neg Bool.false_ne_true, ← ih]
  | case4 afterDot t ts name hk hdot htrailer ih =>
    rw [erase_cons, targetMarks]
    simp only [Kind.kind_bare, hk, any_head?_erase beginsTrailer, htrailer, hdot, ih,
      Bool.false_eq_true, if_false]
  | case5 afterDot t ts hident ih =>
    rw [erase_cons, targetMarks]
    simp only [Kind.kind_bare, ih]

/-! ## Statements -/

theorem flatMap_map_erase {f : List Token → List Mark} (hf : ∀ ts, f (erase ts) = f ts)
    (parts : List (List Token)) : (parts.map erase).flatMap f = parts.flatMap f := by
  rw [List.flatMap_map]
  simp only [hf]

theorem identsOf_erase (ts : List Token) : identsOf (erase ts) = identsOf ts := by
  unfold identsOf erase
  rw [List.filterMap_map]
  rfl

theorem importMarks_erase {own : List Token → Option Token}
    (hown : ∀ ts, own (erase ts) = (own ts).map (·.kind.bare)) (ts : List Token) :
    importMarks own (erase ts) = importMarks own ts := by
  unfold importMarks
  simp only [topAt_erase, length_erase, hown]
  have hget : (erase ts)[topAt isAs ts + 1]? = ts[topAt isAs ts + 1]?.map (·.kind.bare) :=
    List.getElem?_map ..
  have hkind : ∀ token : Option Token,
      (token.map (·.kind.bare)).bind (·.kind.ident?) = token.bind (·.kind.ident?) := by
    intro token
    cases token <;> rfl
  rw [hget, ← apply_ite (Option.map _), hkind]

theorem plainImportMarks_erase (ts : List Token) :
    plainImportMarks (erase ts) = plainImportMarks ts := by
  unfold plainImportMarks
  rw [splitTop_erase, flatMap_map_erase (importMarks_erase fun ts => List.head?_map)]

theorem fromImportMarks_erase (ts : List Token) : fromImportMarks (erase ts) = fromImportMarks ts := by
  have hdrop : (erase ts).dropWhile (·.kind != .keyword .importKw) =
      erase (ts.dropWhile (·.kind != .keyword .importKw)) := List.dropWhile_map ..
  have hfilter : ∀ ts, (erase ts).filter (!isParen ·.kind) = erase (ts.filter (!isParen ·.kind)) :=
    fun ts => List.filter_map ..
  unfold fromImportMarks
  rw [hdrop]
  cases ts.dropWhile (·.kind != .keyword .importKw) with
  | nil => rfl
  | cons t items =>
    simp only [erase_cons, hfilter]
    rw [splitTop_erase, flatMap_map_erase (importMarks_erase fun ts => List.getLast?_map)]

theorem asMarks_erase (ts : List Token) : asMarks (erase ts) = asMarks ts := by
  unfold asMarks
  simp only [topAt_erase, length_erase, take_erase, drop_erase, exprMarks_erase, targetMarks_erase]

theorem forMarks_erase (ts : List Token) : forMarks (erase ts) = forMarks ts := by
  unfold forMarks
  simp only [topAt_erase, length_erase, take_erase, drop_erase, exprMarks_erase, targetMarks_erase]

theorem paramTailMarks_erase (ts : List Token) : paramTailMarks (erase ts) = paramTailMarks ts := by
  have hdrop : (erase ts).dropWhile (fun t => t.kind != .punct .colon && t.kind != .punct .eq) =
      erase (ts.dropWhile fun t => t.kind != .punct .colon && t.kind != .punct .eq) :=
    List.dropWhile_map ..
  unfold paramTailMarks
  rw [hdrop]
  cases ts.dropWhile fun t => t.kind != .punct .colon && t.kind != .punct .eq with
  | nil => rfl
  | cons t tail =>
    simp only [erase_cons]
    rw [splitTop_erase, flatMap_map_erase (exprMarks_erase false)]

theorem nestedHeaderMarks_erase (isDef : Bool) (ts : List Token) :
    nestedHeaderMarks isDef (erase ts) = nestedHeaderMarks isDef ts := by
  unfold nestedHeaderMarks
  rw [drop_erase]
  cases ts.drop 1 with
  | nil => rfl
  | cons t ts =>
    simp only [erase_cons, Kind.kind_bare, closingAt_erase, take_erase, drop_erase, splitTop_erase,
      flatMap_map_erase paramTailMarks_erase, exprMarks_erase]

theorem simpleMarks_erase (ts : List Token) : simpleMarks (erase ts) = simpleMarks ts := by
  have hlast : ∀ parts : List (List Token),
      (parts.map erase).getLast?.getD [] = erase (parts.getLast?.getD []) := by
    intro parts
    rw [List.getLast?_map]
    cases parts.getLast? <;> rfl
  have happend : ∀ ts us, erase ts ++ erase us = erase (ts ++ us) := fun ts us =>
    List.map_append.symm
  unfold simpleMarks
  simp only [topAt_erase, take_erase, drop_erase, length_erase, targetMarks_erase, exprMarks_erase,
    splitTop_erase, ← List.map_dropLast, flatMap_map_erase (targetMarks_erase false), hlast, happend]

theorem nested_erase (ts : List Token) (isDef : Bool) (stop : Nat) (line : List Token) (colon : Nat)
    (header : List Token) :
    statementMarks.nested (erase ts) isDef stop (erase line) colon (erase header) =
      statementMarks.nested ts isDef stop line colon header := by
  have hname : (erase ts).head?.bind (·.kind.ident?) = ts.head?.bind (·.kind.ident?) := by
    cases ts <;> rfl
  unfold statementMarks.nested
  simp only [hname, nestedHeaderMarks_erase, length_erase, drop_erase, next_suite_erase]

theorem statementMarks_erase (t : Token) (ts : List Token) :
    statementMarks t.kind.bare (erase ts) = statementMarks t ts := by
  induction ts generalizing t
  all_goals
    rw [statementMarks.eq_def t.kind.bare, statementMarks.eq_def t]
    simp only [Kind.kind_bare, positionFrom_erase, take_erase, colonAt_erase, exprMarks_erase,
      identsOf_erase, plainImportMarks_erase, fromImportMarks_erase, forMarks_erase,
      splitTop_erase, flatMap_map_erase asMarks_erase, asMarks_erase, targetMarks_erase,
      ← erase_cons, simpleMarks_erase, nested_erase]
  -- What is left is the word before another statement, which is read as if it stood there alone.
  case nil => rfl
  case cons u us ih => simp only [erase_cons, ih]

/-- **The names of a body depend on the kinds of its tokens only.** -/
theorem bodyMarks_erase (ts : List Token) : bodyMarks (erase ts) = bodyMarks ts := by
  fun_induction bodyMarks ts with
  | case1 => rw [erase_nil, bodyMarks]
  | case2 t ts hk ih =>
    rw [erase_cons, bodyMarks, Kind.kind_bare, if_pos hk, ih]
  | case3 t ts hk marks done hread ih =>
    rw [erase_cons, bodyMarks, Kind.kind_bare, if_neg hk]
    simp only [statementMarks_erase, hread, drop_erase, ih]

end FieldView.Scope
