import FieldView.Proofs.Host.Simple
import FieldView.Proofs.Scope.Erasure
import FieldView.Scope.Function

/-!
# Reading compound statements

A clause is read up to its colon, and its block after that as if its statements stood in the body
itself. A nested function or class is the exception: its block is jumped over, to the dedent that
closes it. That this is the right one is a matter of counting indents and dedents, which
`BlockBalanced` does for each form of statement.
-/

set_option autoImplicit false

namespace FieldView.Host

open FieldView.Scope

/-! ## Headers -/

/-- The tokens of a value and its target. -/
def bound (k : Kind) : Bool := calm k || spot k || k == .keyword .asKw

theorem AsItem.level (item : AsItem) : Level bound item.kinds := by
  have hvalue : Level bound item.value.kinds :=
    item.value.level.mono fun k hk => by simp [bound, hk]
  refine hvalue.append ?_
  cases item.target with
  | none => exact .nil
  | some t => exact .flat rfl rfl (t.level.mono fun k hk => by simp [bound, hk])

theorem stated_of_bound (k : Kind) (h : bound k = true) : stated k = true := by
  unfold stated
  split
  all_goals first | rfl | cases h

theorem AsItem.asMarks_toks (item : AsItem) : asMarks (toks item.kinds) = item.marks := by
  obtain ⟨value, target⟩ := item
  unfold asMarks
  cases target with
  | none =>
    simp only [AsItem.kinds, AsItem.marks, Option.elim_none, List.append_nil]
    rw [topAt_level value.level (avoids_isAs rfl), length_toks, if_neg (Nat.lt_irrefl _),
      value.exprMarks_toks]
  | some t =>
    simp only [AsItem.kinds, AsItem.marks, Option.elim_some, toks_append, toks_cons]
    rw [topAt_append value.level (avoids_isAs rfl) rfl, if_pos (by simp), take_toks, drop_toks_succ,
      value.exprMarks_toks, t.targetMarks_toks]

theorem asMarks_nil : asMarks [] = [] := by
  show exprMarks false [] = []
  rw [exprMarks]

theorem withMarks_toks (items : List AsItem) :
    (splitTop isComma (toks (commaSep (items.map AsItem.kinds)))).flatMap asMarks =
      items.flatMap AsItem.marks := by
  have hlevel : ∀ part ∈ items.map AsItem.kinds, Level bound part := by
    intro part hpart
    obtain ⟨item, -, rfl⟩ := List.mem_map.mp hpart
    exact item.level
  rw [flatMap_splitTop_commaSep rfl asMarks_nil hlevel, List.flatMap_map]
  simp only [AsItem.asMarks_toks]

theorem forMarks_toks (target : Targets) (iterable : Exprs) :
    forMarks (toks (target.kinds ++ .keyword .inKw :: iterable.kinds)) =
      target.marks ++ iterable.marks := by
  have hin : topAt (· == .keyword .inKw)
      (toks target.kinds ++ (Kind.keyword .inKw).bare :: toks iterable.kinds) =
      target.kinds.length :=
    topAt_append target.level (.beq rfl rfl) (beq_self_eq_true _) _
  unfold forMarks
  rw [toks_append, toks_cons, hin]
  simp only [List.length_append, length_toks, List.length_cons, take_toks, drop_toks_succ,
    target.targetMarks_toks, iterable.exprMarks_toks]
  rw [if_pos (by omega)]

/-- How the rest of a header is read after its word. -/
def headerMarks : Keyword → Option (List Token → List Mark)
  | .ifKw | .elifKw | .whileKw => some (exprMarks false)
  | .elseKw | .tryKw | .finallyKw => some fun _ => []
  | .forKw => some forMarks
  | .withKw => some fun ts => (splitTop isComma ts).flatMap asMarks
  | .exceptKw => some asMarks
  | _ => none

theorem statementMarks_header {w : Keyword} {marksOf : List Token → List Mark}
    (h : headerMarks w = some marksOf) (ts : List Token) :
    statementMarks (Kind.keyword w).bare ts =
      (let line := ts.take (positionFrom endsStatement 0 ts)
       (marksOf (line.take (colonAt line)), colonAt line + 1)) := by
  rw [statementMarks.eq_def]
  cases w <;> cases h <;> rfl

/-- The first line of a compound statement, up to the end of the line. -/
theorem take_header {header : List Kind} (hheader : Level stated header) (after : List Token) :
    (toks header ++ (Kind.punct .colon).bare :: Kind.newline.bare :: after).take
        (positionFrom endsStatement 0
          (toks header ++ (Kind.punct .colon).bare :: Kind.newline.bare :: after)) =
      toks header ++ [(Kind.punct .colon).bare] := by
  have hline : Level lined (header ++ [.punct .colon]) :=
    (hheader.mono lined_of_stated).append (.single rfl rfl)
  have hcut : toks header ++ (Kind.punct .colon).bare :: Kind.newline.bare :: after =
      toks (header ++ [.punct .colon]) ++ Kind.newline.bare :: after := by
    simp
  have hend : positionFrom endsStatement 0 (Kind.newline.bare :: after) = 0 := rfl
  rw [hcut, hline.positionFrom_append (passes_endsStatement rfl), hend, Nat.add_zero, take_toks]
  simp

/-- A clause gives the marks of its header, and reading goes on behind its colon. -/
theorem bodyMarks_header {w : Keyword} {rest : List Kind} {marks : List Mark}
    {marksOf : List Token → List Mark} (h : headerMarks w = some marksOf)
    (hheader : Level stated (.keyword w :: rest)) (hmarks : marksOf (toks rest) = marks)
    (after : List Token) :
    bodyMarks (toks (.keyword w :: rest) ++ (Kind.punct .colon).bare :: Kind.newline.bare :: after) =
      marks ++ bodyMarks (Kind.newline.bare :: after) := by
  have hlevel := hheader.of_cons rfl
  have hcolon := colonAt_append hlevel rfl rfl []
  rw [toks_cons, List.cons_append, bodyMarks]
  simp only [Kind.kind_bare, separatesStatements, Bool.false_eq_true, if_false,
    statementMarks_header h, take_header hlevel, hcolon, take_toks, drop_toks_succ, hmarks]

theorem Header.level (header : Header) : Level stated header.kinds := by
  cases header with
  | «if» test => exact .flat rfl rfl (test.level.mono stated_of_calm)
  | elif test => exact .flat rfl rfl (test.level.mono stated_of_calm)
  | «while» test => exact .flat rfl rfl (test.level.mono stated_of_calm)
  | «else» => exact .single rfl rfl
  | «try» => exact .single rfl rfl
  | «finally» => exact .single rfl rfl
  | «for» target iterable =>
    exact .flat rfl rfl (target.level_stated.append (.flat rfl rfl iterable.level))
  | «with» items =>
    refine .flat rfl rfl (level_commaSep rfl fun part hpart => ?_)
    obtain ⟨item, -, rfl⟩ := List.mem_map.mp hpart
    exact item.level.mono stated_of_bound
  | except item =>
    cases item with
    | none => exact .single rfl rfl
    | some item => exact .flat rfl rfl (item.level.mono stated_of_bound)

theorem Header.bodyMarks_append (header : Header) (after : List Token) :
    bodyMarks (toks header.kinds ++ (Kind.punct .colon).bare :: Kind.newline.bare :: after) =
      header.marks ++ bodyMarks (Kind.newline.bare :: after) := by
  have hlevel := header.level
  cases header with
  | «if» test => exact bodyMarks_header rfl hlevel test.exprMarks_toks after
  | elif test => exact bodyMarks_header rfl hlevel test.exprMarks_toks after
  | «while» test => exact bodyMarks_header rfl hlevel test.exprMarks_toks after
  | «else» => exact bodyMarks_header rfl hlevel rfl after
  | «try» => exact bodyMarks_header rfl hlevel rfl after
  | «finally» => exact bodyMarks_header rfl hlevel rfl after
  | «for» target iterable => exact bodyMarks_header rfl hlevel (forMarks_toks target iterable) after
  | «with» items => exact bodyMarks_header rfl hlevel (withMarks_toks items) after
  | except item =>
    cases item with
    | none => exact bodyMarks_header rfl hlevel asMarks_nil after
    | some item => exact bodyMarks_header rfl hlevel item.asMarks_toks after

/-! ## Blocks -/

/-- Every indent of the run is undone in it, so a search for the end of a block passes it. -/
def BlockBalanced (ks : List Kind) : Prop :=
  ∀ (inner : Nat) (rest : List Token),
    blockEnd inner (toks ks ++ rest) = ks.length + blockEnd inner rest

namespace BlockBalanced

variable {ks ls : List Kind}

theorem nil : BlockBalanced [] := by
  intro inner rest
  simp

theorem append (hk : BlockBalanced ks) (hl : BlockBalanced ls) : BlockBalanced (ks ++ ls) := by
  intro inner rest
  rw [toks_append, List.append_assoc, hk, hl, List.length_append]
  omega

theorem of_level {q : Kind → Bool} (h : Level q ks) : BlockBalanced ks := h.blockEnd_append

theorem newline : BlockBalanced [.newline] := by
  intro inner rest
  show blockEnd inner rest + 1 = 1 + blockEnd inner rest
  omega

theorem cons {k : Kind} (hk : BlockBalanced [k]) (hks : BlockBalanced ks) :
    BlockBalanced (k :: ks) := hk.append hks

theorem flat {k : Kind} (h : k.isFlat = true) : BlockBalanced [k] :=
  of_level (.single rfl h : Level (fun _ => true) [k])

theorem block (h : BlockBalanced ks) : BlockBalanced (blockKinds ks) := by
  intro inner rest
  have hbody := h (inner + 1) (Kind.dedent.bare :: rest)
  have hout : blockEnd (inner + 1) (Kind.dedent.bare :: rest) = blockEnd inner rest + 1 := rfl
  simp only [blockKinds, toks_cons, toks_append, toks_nil, List.cons_append, List.append_assoc,
    List.nil_append, List.length_cons, List.length_append, List.length_nil]
  show blockEnd (inner + 1) (toks ks ++ Kind.dedent.bare :: rest) + 1 + 1 = _
  rw [hbody, hout]
  omega

end BlockBalanced

/-- The suite after the colon of a nested definition ends with its block. -/
theorem suite_blockKinds {body : List Kind} (h : BlockBalanced body) (rest : List Token) :
    (suite (toks (blockKinds body) ++ rest)).next = (blockKinds body).length := by
  -- Each dedent of the body closes an indent of the body; the next one closes the block.
  have hsize : blockEnd 0 (toks body ++ Kind.dedent.bare :: rest) = body.length := by
    rw [h]
    rfl
  have hblock : toks (blockKinds body) ++ rest =
      Kind.newline.bare :: Kind.indent.bare :: (toks body ++ Kind.dedent.bare :: rest) := by
    simp [blockKinds]
  have hdrop : (Kind.newline.bare :: Kind.indent.bare ::
      (toks body ++ Kind.dedent.bare :: rest)).drop (2 + body.length) = Kind.dedent.bare :: rest := by
    rw [← List.drop_drop]
    exact drop_toks body _
  have hbegins : beginsBlock (Kind.newline.bare :: Kind.indent.bare ::
      (toks body ++ Kind.dedent.bare :: rest)) = true := rfl
  rw [hblock]
  unfold suite
  rw [if_pos hbegins]
  simp only [List.drop_succ_cons, List.drop_zero, hsize, hdrop]
  simp [blockKinds]
  omega

/-! ## Nested definitions -/

/-- The tokens of a parameter. -/
def parametric (k : Kind) : Bool := calm k || k == .punct .colon || k == .punct .eq

theorem parametric_of_calm (k : Kind) (h : calm k = true) : parametric k = true := by
  simp [parametric, h]

theorem Param.level (p : Param) : Level parametric p.kinds := by
  cases p with
  | named stars name type default =>
    have hstars : Level parametric stars.kinds := by
      cases stars with
      | none => exact .nil
      | one => exact .single rfl rfl
      | two => exact .single rfl rfl
    refine hstars.append (.flat rfl rfl (.append ?_ ?_))
    · cases type with
      | none => exact .nil
      | some e => exact .flat rfl rfl (e.level.mono parametric_of_calm)
    · cases default with
      | none => exact .nil
      | some e => exact .flat rfl rfl (e.level.mono parametric_of_calm)
  | bareStar => exact .single rfl rfl
  | slash => exact .single rfl rfl

theorem Stars.dropWhile_append (stars : Stars) (name : String) (rest : List Token) :
    (toks stars.kinds ++ (Kind.ident name).bare :: rest).dropWhile
        (fun t => t.kind != .punct .colon && t.kind != .punct .eq) =
      rest.dropWhile (fun t => t.kind != .punct .colon && t.kind != .punct .eq) := by
  cases stars <;> rfl

theorem Param.paramTailMarks_toks (p : Param) : paramTailMarks (toks p.kinds) = p.marks := by
  cases p with
  | named stars name type default =>
    unfold paramTailMarks
    rw [Param.kinds, toks_append, toks_cons, stars.dropWhile_append, Param.marks]
    cases type with
    | none =>
      cases default with
      | none => rfl
      | some d =>
        show (splitTop isEq (toks d.kinds)).flatMap (exprMarks false) = d.marks
        rw [splitTop_level d.level (avoids_isEq rfl), List.flatMap_singleton, d.exprMarks_toks]
    | some t =>
      cases default with
      | none =>
        show (splitTop isEq (toks (t.kinds ++ []))).flatMap (exprMarks false) = t.marks ++ []
        rw [List.append_nil, List.append_nil, splitTop_level t.level (avoids_isEq rfl),
          List.flatMap_singleton, t.exprMarks_toks]
      | some d =>
        show (splitTop isEq (toks (t.kinds ++ .punct .eq :: d.kinds))).flatMap (exprMarks false) =
          t.marks ++ d.marks
        rw [toks_append, toks_cons, splitTop_append t.level (avoids_isEq rfl) rfl,
          splitTop_level d.level (avoids_isEq rfl), List.flatMap_cons, List.flatMap_singleton,
          t.exprMarks_toks, d.exprMarks_toks]
  | bareStar => rfl
  | slash => rfl

/-- The header of a function evaluates the types and defaults of its parameters, and its result. -/
theorem nestedHeaderMarks_function (name : String) (params : List Param) (trailing : Bool)
    (returns : Option Expr) :
    nestedHeaderMarks true (toks (functionKinds name params trailing returns)) =
      params.flatMap Param.marks ++ returns.elim [] Expr.marks := by
  have hparams : ∀ part ∈ params.map Param.kinds ++ (if trailing then [[]] else []),
      Level parametric part := by
    refine level_trailing trailing fun part hpart => ?_
    obtain ⟨p, -, rfl⟩ := List.mem_map.mp hpart
    exact p.level
  have hinner : Level (fun _ => true)
      (commaSep (params.map Param.kinds ++ if trailing then [[]] else [])) :=
    level_commaSep rfl fun part hpart => (hparams part hpart).any
  have hnone : paramTailMarks [] = [] := rfl
  have hmarks : (params.map Param.kinds ++ (if trailing then [[]] else [])).flatMap
      (fun part => paramTailMarks (toks part)) = params.flatMap Param.marks := by
    rw [List.flatMap_append, List.flatMap_map]
    simp only [Param.paramTailMarks_toks]
    -- A comma at the end leaves an empty part, and that has no marks.
    cases trailing with
    | true => exact List.append_nil _
    | false => exact List.append_nil _
  have hreturns : exprMarks false (toks (returns.elim [] (.punct .arrow :: ·.kinds))) =
      returns.elim [] Expr.marks := by
    cases returns with
    | none =>
      show exprMarks false [] = []
      rw [exprMarks]
    | some e =>
      show exprMarks false ((Kind.punct .arrow).bare :: toks e.kinds) = e.marks
      rw [exprMarks_inert (.punct .arrow) rfl, e.exprMarks_toks]
  unfold nestedHeaderMarks functionKinds
  simp only [toks_cons, toks_append, List.drop_succ_cons, List.drop_zero, Kind.kind_bare, if_true,
    take_closingAt _ _ hinner, drop_closingAt _ _ hinner, hreturns]
  rw [flatMap_splitTop_commaSep rfl hnone hparams, hmarks]

/-- The header of a class evaluates its bases. -/
theorem nestedHeaderMarks_class (name : String) (bases : Option Items) :
    nestedHeaderMarks false (toks (classKinds name bases)) = bases.elim [] Items.marks := by
  cases bases with
  | none => rfl
  | some items =>
    have hitems : exprMarks false (toks items.kinds) = items.marks := by
      have h := items.exprMarks_append [] rfl
      rwa [List.append_nil, exprMarks, List.append_nil] at h
    unfold nestedHeaderMarks classKinds
    simp only [Option.elim_some, toks_cons, toks_append, List.drop_succ_cons, List.drop_zero,
      Kind.kind_bare, if_true, Bool.false_eq_true, if_false, take_closingAt _ _ items.level.any,
      drop_closingAt _ _ items.level.any, hitems, toks_nil]
    rw [exprMarks, List.append_nil]

theorem level_functionKinds (name : String) (params : List Param) (trailing : Bool)
    (returns : Option Expr) : Level stated (functionKinds name params trailing returns) := by
  refine .flat rfl rfl (.group (level_commaSep rfl (level_trailing trailing ?_)) ?_)
  · intro part hpart
    obtain ⟨p, -, rfl⟩ := List.mem_map.mp hpart
    exact p.level.any
  · cases returns with
    | none => exact .nil
    | some e => exact .flat rfl rfl (e.level.mono stated_of_calm)

theorem level_classKinds (name : String) (bases : Option Items) :
    Level stated (classKinds name bases) := by
  cases bases with
  | none => exact .single rfl rfl
  | some items => exact .flat rfl rfl (.group items.level.any .nil)

/-- Whether the word begins a function rather than a class. -/
def definesFunction : Keyword → Option Bool
  | .defKw => some true
  | .classKw => some false
  | _ => none

theorem statementMarks_nested {w : Keyword} {isDef : Bool} (h : definesFunction w = some isDef)
    (name : String) (ts : List Token) :
    statementMarks (Kind.keyword w).bare ((Kind.ident name).bare :: ts) =
      (let stop := positionFrom endsStatement 0 ((Kind.ident name).bare :: ts)
       let line := ((Kind.ident name).bare :: ts).take stop
       (.binds name :: nestedHeaderMarks isDef (line.take (colonAt line)),
        if colonAt line < line.length then
          colonAt line + 1 + (suite (((Kind.ident name).bare :: ts).drop (colonAt line + 1))).next
        else stop)) := by
  rw [statementMarks.eq_def]
  cases w <;> cases h <;> rfl

/-- **A nested definition leaves its name and the marks of its header.** Its block is passed over,
whatever it holds. -/
theorem bodyMarks_nested {w : Keyword} {isDef : Bool} (h : definesFunction w = some isDef)
    {name : String} {header : List Kind} {marks : List Mark}
    (hlevel : Level stated (.ident name :: header))
    (hmarks : nestedHeaderMarks isDef (toks (.ident name :: header)) = marks) {body : List Kind}
    (hbody : BlockBalanced body) (after : List Token) :
    bodyMarks (toks (.keyword w :: .ident name :: header) ++
        (Kind.punct .colon).bare :: (toks (blockKinds body) ++ after)) =
      .binds name :: (marks ++ bodyMarks after) := by
  have hcolon := colonAt_append hlevel rfl rfl []
  have hline := take_header hlevel (Kind.indent.bare :: (toks (body ++ [.dedent]) ++ after))
  have hblock : Kind.newline.bare :: Kind.indent.bare :: (toks (body ++ [.dedent]) ++ after) =
      toks (blockKinds body) ++ after := rfl
  have hlt : (Kind.ident name :: header).length <
      (toks (.ident name :: header) ++ [(Kind.punct .colon).bare]).length := by
    simp
  have hdrop : (toks (.ident name :: header) ++
      (Kind.punct .colon).bare :: (toks (blockKinds body) ++ after)).drop
      ((Kind.ident name :: header).length + 1 + (blockKinds body).length) = after := by
    rw [← List.drop_drop, drop_toks_succ, drop_toks]
  -- The line ends at the colon, so what comes before it is the header and all of it.
  have hread := statementMarks_nested h name
    (toks header ++ (Kind.punct .colon).bare :: (toks (blockKinds body) ++ after))
  rw [← List.cons_append, ← toks_cons] at hread
  rw [hblock] at hline
  simp only [hline, hcolon, take_toks, drop_toks_succ, hlt, if_true, suite_blockKinds hbody,
    hmarks] at hread
  rw [toks_cons, List.cons_append, bodyMarks]
  simp only [Kind.kind_bare, separatesStatements, Bool.false_eq_true, if_false, hread, hdrop,
    List.cons_append]

/-! ## Bodies -/

theorem statementMarks_decorator (ts : List Token) :
    statementMarks (Kind.punct .atSign).bare ts =
      (exprMarks false (ts.take (positionFrom endsStatement 0 ts)),
        positionFrom endsStatement 0 ts) := by
  rw [statementMarks.eq_def]
  rfl

/-- One statement, up to what ends it. -/
theorem ReadsAs.bodyMarks_append {ks : List Kind} {marks : List Mark} (h : ReadsAs ks marks)
    {stop : Kind} (hstop : endsStatement 0 stop = true) (rest : List Token) :
    bodyMarks (toks ks ++ stop.bare :: rest) = marks ++ bodyMarks rest := by
  obtain ⟨k, ks, rfl, hk, hread⟩ := h
  have hsep : separatesStatements stop = true := by
    unfold endsStatement at hstop
    cases stop with
    | newline => rfl
    | eof => rfl
    | punct p =>
      cases p with
      | semicolon => rfl
      | _ => cases hstop
    | _ => cases hstop
  rw [toks_cons, List.cons_append, bodyMarks]
  simp only [Kind.kind_bare, hk, Bool.false_eq_true, if_false, hread stop hstop rest, drop_toks]
  rw [bodyMarks, Kind.kind_bare, if_pos hsep]

theorem readsAs_decorator (e : Expr) : ReadsAs (.punct .atSign :: e.kinds) e.marks := by
  refine ⟨_, _, rfl, rfl, fun stop hstop after => ?_⟩
  have hlevel : Level lined (.punct .atSign :: e.kinds) :=
    .flat rfl rfl (e.level.mono fun k hk => lined_of_stated k (stated_of_calm k hk))
  have hend := positionFrom_endsStatement hlevel rfl hstop after
  rw [show nest 0 (.punct .atSign) = 0 from rfl] at hend
  rw [statementMarks_decorator, hend, take_toks, e.exprMarks_toks]

theorem bodyMarks_decorators (decorators : List Expr) (rest : List Token) :
    bodyMarks (toks (decoratorKinds decorators) ++ rest) =
      decorators.flatMap Expr.marks ++ bodyMarks rest := by
  induction decorators with
  | nil => rfl
  | cons e decorators ih =>
    have hend : endsStatement 0 .newline = true := rfl
    have hfirst := (readsAs_decorator e).bodyMarks_append hend
      (toks (decoratorKinds decorators) ++ rest)
    have hcut : toks (decoratorKinds (e :: decorators)) ++ rest =
        toks (.punct .atSign :: e.kinds) ++
          Kind.newline.bare :: (toks (decoratorKinds decorators) ++ rest) := by
      simp [decoratorKinds]
    rw [hcut, hfirst, ih, List.flatMap_cons, List.append_assoc]

/-- A nested definition with its decorators. -/
theorem bodyMarks_definition {w : Keyword} {isDef : Bool} (h : definesFunction w = some isDef)
    {name : String} {header : List Kind} {marks : List Mark}
    (hlevel : Level stated (.ident name :: header))
    (hmarks : nestedHeaderMarks isDef (toks (.ident name :: header)) = marks) {body : List Kind}
    (hbody : BlockBalanced body) (decorators : List Expr) (rest : List Token) :
    bodyMarks (toks (decoratorKinds decorators ++
        .keyword w :: (.ident name :: header ++ .punct .colon :: blockKinds body)) ++ rest) =
      decorators.flatMap Expr.marks ++ .binds name :: marks ++ bodyMarks rest := by
  have hnested := bodyMarks_nested h hlevel hmarks hbody rest
  have hcut : toks (.keyword w :: (.ident name :: header ++ .punct .colon :: blockKinds body)) ++
      rest = toks (.keyword w :: .ident name :: header) ++
        (Kind.punct .colon).bare :: (toks (blockKinds body) ++ rest) := by
    simp
  rw [toks_append, List.append_assoc, bodyMarks_decorators, hcut, hnested, List.append_assoc,
    List.cons_append]

theorem blockBalanced_decorators (decorators : List Expr) :
    BlockBalanced (decoratorKinds decorators) := by
  induction decorators with
  | nil => exact .nil
  | cons e decorators ih =>
    have hline : BlockBalanced (.punct .atSign :: (e.kinds ++ [.newline])) :=
      .cons (.flat rfl) ((BlockBalanced.of_level e.level).append .newline)
    exact hline.append ih

theorem blockBalanced_definition (w : Keyword) {header body : List Kind}
    (hheader : Level stated header) (hbody : BlockBalanced body) (decorators : List Expr) :
    BlockBalanced (decoratorKinds decorators ++
      .keyword w :: (header ++ .punct .colon :: blockKinds body)) :=
  (blockBalanced_decorators decorators).append (.cons (.flat rfl)
    ((BlockBalanced.of_level hheader).append (.cons (.flat rfl) hbody.block)))

mutual

theorem Stmt.blockBalanced : (s : Stmt) → BlockBalanced s.kinds
  | .simple statement joined => by
    refine (BlockBalanced.of_level statement.level).append ?_
    cases joined with
    | true => exact .flat rfl
    | false => exact .newline
  | .clause header body =>
    (BlockBalanced.of_level header.level).append (.cons (.flat rfl) body.blockBalanced.block)
  | .function decorators name params trailing returns body =>
    blockBalanced_definition .defKw (level_functionKinds name params trailing returns)
      body.blockBalanced decorators
  | .class decorators name bases body =>
    blockBalanced_definition .classKw (level_classKinds name bases) body.blockBalanced decorators

theorem Body.blockBalanced : (b : Body) → BlockBalanced b.kinds
  | .nil => .nil
  | .cons first rest => first.blockBalanced.append rest.blockBalanced

end

theorem bodyMarks_separator (k : Kind) (hk : separatesStatements k = true) (rest : List Token) :
    bodyMarks (k.bare :: rest) = bodyMarks rest := by
  rw [bodyMarks, Kind.kind_bare, if_pos hk]

mutual

theorem Stmt.bodyMarks_append : (s : Stmt) → (rest : List Token) →
    bodyMarks (toks s.kinds ++ rest) = s.marks ++ bodyMarks rest
  | .simple statement joined, rest => by
    have hstop : endsStatement 0 (if joined then .punct .semicolon else .newline) = true := by
      cases joined <;> rfl
    have h := statement.readsAs.bodyMarks_append hstop rest
    rw [Stmt.kinds, Stmt.marks, toks_append, List.append_assoc]
    exact h
  | .clause header body, rest => by
    have hheader := header.bodyMarks_append
      (Kind.indent.bare :: (toks (body.kinds ++ [.dedent]) ++ rest))
    have hbody := body.bodyMarks_append (Kind.dedent.bare :: rest)
    rw [Stmt.kinds, Stmt.marks, toks_append, List.append_assoc]
    refine hheader.trans ?_
    -- What is around the block separates statements, so its statements are read like the others.
    rw [bodyMarks_separator .newline rfl, bodyMarks_separator .indent rfl, toks_append,
      List.append_assoc]
    rw [toks_cons, toks_nil, List.singleton_append, hbody, bodyMarks_separator .dedent rfl,
      List.append_assoc]
  | .function decorators name params trailing returns body, rest =>
    bodyMarks_definition (w := .defKw) rfl (level_functionKinds name params trailing returns)
      (nestedHeaderMarks_function name params trailing returns) body.blockBalanced decorators rest
  | .class decorators name bases body, rest =>
    bodyMarks_definition (w := .classKw) rfl (level_classKinds name bases)
      (nestedHeaderMarks_class name bases) body.blockBalanced decorators rest

theorem Body.bodyMarks_append : (b : Body) → (rest : List Token) →
    bodyMarks (toks b.kinds ++ rest) = b.marks ++ bodyMarks rest
  | .nil, _ => rfl
  | .cons first others, rest => by
    rw [Body.kinds, Body.marks, toks_append, List.append_assoc, first.bodyMarks_append,
      others.bodyMarks_append, List.append_assoc]

end

/-! ## The analysis of a body -/

/-- **The scope analysis finds what the tree of a body says.** Every body is a run of tokens, and
whatever their spans, going over them one by one finds the names that the body binds, reads, imports
and declares, in the order of the text: those that its constructors give, and no others. -/
theorem bodyMarks_eq_marks (body : Body) (tokens : List Token)
    (h : tokens.map Token.kind = body.kinds) : bodyMarks tokens = body.marks := by
  have hbody := body.bodyMarks_append []
  rw [List.append_nil, bodyMarks, List.append_nil] at hbody
  rw [← bodyMarks_erase, erase_eq_toks, h, hbody]

/-- A function with a lambda, a comprehension and another function in it. -/
def sampleText : String :=
  "def f(a):\n" ++
  "    for i, o.x in g(a, k=(lambda q: q)):\n" ++
  "        c = [e * s for e in (n := d) if e]\n" ++
  "    def h(x=y):\n" ++
  "        return z\n"

/-- The tree of its body. -/
def sample : Body :=
  let name (id : String) : Exprs := { first := .name id }
  let parens (item : Item) : Expr := .bracketed .paren (.items (.last item))
  let args : Items := .more (.expr (.name "a"))
    (.last (.keyword "k" (.expr (parens (.lambda [.name "q"] (.name "q"))))))
  let products : Content := .comprehension
    (.expr (.binary (.sign ⟨.star, rfl⟩) (.name "e") (.name "s"))) false (.last (.place "e" .nil))
    (parens (.walrus "n" (.expr (.name "d")))) (.cond (.name "e") .nil)
  let loop : Header := .for
    (.more (.place "i" .nil) (.last (.place "o" (.cons (.attr "x") .nil))))
    { first := .trailed (.name "g") (.call (.items args)) }
  .cons
    (.clause loop
      (.cons
        (.simple
          (.assign [.last (.place "c" .nil)] { first := .bracketed .square products }) false)
        .nil))
    (.cons
      (.function [] "h" [.named .none "x" none (some (.name "y"))] false none
        (.cons (.simple (.tell .return (some (name "z"))) false) .nil))
      .nil)

/-- The tokens of the text spell the tree, and so it tells what the analysis finds in them. -/
theorem bodyMarks_eq_marks_sample :
    ∃ tokens block, tokenize sampleText = .ok tokens ∧
      findFunction "f.py" none tokens = .ok block ∧
      block.body.map Token.kind = sample.kinds ∧
      bodyMarks block.body =
        [.binds "i", .reads "o", .reads "g", .reads "a", .binds "c", .binds "n", .reads "d",
         .binds "h", .reads "y"] := by
  have hspells : ((tokenize sampleText).toOption.bind fun tokens =>
      (findFunction "f.py" none tokens).toOption.map fun block => block.body.map Token.kind) =
      some sample.kinds := by
    decide +kernel
  cases htokens : tokenize sampleText with
  | error e =>
    rw [htokens] at hspells
    cases hspells
  | ok tokens =>
    rw [htokens] at hspells
    cases hblock : findFunction "f.py" none tokens with
    | error e => simp [Except.toOption, hblock] at hspells
    | ok block =>
      have hkinds : block.body.map Token.kind = sample.kinds := by
        simpa [Except.toOption, hblock] using hspells
      exact ⟨tokens, block, rfl, hblock, hkinds, bodyMarks_eq_marks sample block.body hkinds⟩

end FieldView.Host
