import FieldView.Proofs.Host.Syntax
import FieldView.Proofs.Scope.Level

/-!
# Reading expressions and targets

An expression is read from the front, and what has been read is not looked at again. So it is enough
to know what the tokens of a tree contribute when something follows them: the marks of the tree, and
then those of what follows (`Expr.exprMarks_append`, `Targets.targetMarks_append`). What may follow is
limited, since a name is read differently before a `=` and a `:=`, and a lambda goes on to the next
comma or bracket.

Brackets are what the proofs turn on. The content of a pair of brackets is a level run, so the
analysis finds the bracket that closes it, and an item is told from a comprehension by a `for` that
is not hidden in further brackets.
-/

set_option autoImplicit false

namespace FieldView.Host

open FieldView.Scope

/-! ## Level trees -/

/-- The tokens of an expression that stand outside of brackets. -/
def calm : Kind → Bool
  | .ident _ => true
  | .int _ => true
  | .float _ => true
  | .string _ => true
  | .keyword .andKw | .keyword .orKw | .keyword .notKw | .keyword .isKw | .keyword .inKw => true
  | .keyword .awaitKw | .keyword .trueKw | .keyword .falseKw | .keyword .noneKw => true
  | .punct p => isOperator p || p == .dot || p == .ellipsis || p == .tilde
  | _ => false

/-- The tokens of a target that stand outside of brackets. -/
def spot : Kind → Bool
  | .ident _ => true
  | .punct .star | .punct .dot => true
  | _ => false

/-- The tokens of a list of targets that stand outside of brackets. -/
def placed (k : Kind) : Bool := spot k || k == .punct .comma

/-- The tokens of the parameters of a lambda. -/
def signature : Kind → Bool
  | .ident _ => true
  | .punct .comma | .punct .star | .punct .starStar | .punct .slash => true
  | _ => false

/-- All but the word that makes a comprehension of a list. -/
def notFor (k : Kind) : Bool := k != .keyword .forKw

theorem notFor_of_calm (k : Kind) (h : calm k = true) : notFor k = true := by
  unfold notFor
  rw [bne_iff_ne]
  intro hk
  rw [hk] at h
  cases h

theorem placed_of_spot (k : Kind) (h : spot k = true) : placed k = true := by
  simp [placed, h]

theorem level_commaSep {q : Kind → Bool} (hcomma : q (.punct .comma) = true) :
    ∀ {parts : List (List Kind)}, (∀ part ∈ parts, Level q part) → Level q (commaSep parts)
  | [], _ => .nil
  | [part], h => h part List.mem_cons_self
  | part :: _ :: _, h =>
    (h part List.mem_cons_self).append
      (.flat hcomma rfl (level_commaSep hcomma fun p hp => h p (List.mem_cons_of_mem _ hp)))

theorem Literal.level (l : Literal) : Level calm [l.kind] := by
  cases l <;> exact .single rfl rfl

theorem BinaryOp.level (op : BinaryOp) : Level calm op.kinds := by
  cases op with
  | sign p => exact .single (by simp [calm, p.property]) rfl
  | and => exact .single rfl rfl
  | or => exact .single rfl rfl
  | is => exact .single rfl rfl
  | isNot => exact .flat rfl rfl (.single rfl rfl)
  | «in» => exact .single rfl rfl
  | notIn => exact .flat rfl rfl (.single rfl rfl)

theorem level_lambdaParams (params : List LambdaParam) :
    Level signature (commaSep (params.map (·.kinds))) := by
  refine level_commaSep rfl fun part hpart => ?_
  obtain ⟨p, -, rfl⟩ := List.mem_map.mp hpart
  cases p with
  | name id => exact .single rfl rfl
  | star id => exact .flat rfl rfl (.single rfl rfl)
  | starStar id => exact .flat rfl rfl (.single rfl rfl)
  | bareStar => exact .single rfl rfl
  | slash => exact .single rfl rfl

theorem level_forKinds (isAsync : Bool) : Level (fun _ => true) (forKinds isAsync) := by
  cases isAsync with
  | true => exact .flat rfl rfl (.single rfl rfl)
  | false => exact .single rfl rfl

mutual

theorem Expr.level : (e : Expr) → Level calm e.kinds
  | .name _ => .single rfl rfl
  | .literal value => value.level
  | .trailed value trailer => value.level.append (trailer.level rfl fun _ => rfl)
  | .unary op operand => by
    cases op <;> exact .flat rfl rfl operand.level
  | .binary op left right => left.level.append (op.level.append right.level)
  | .bracketed _ content => .group content.level .nil

theorem Trailer.level {q : Kind → Bool} (hdot : q (.punct .dot) = true)
    (hident : ∀ name, q (.ident name) = true) : (t : Trailer) → Level q t.kinds
  | .attr name => .flat hdot rfl (.single (hident name) rfl)
  | .subscript index => .group index.level .nil
  | .call args => .group args.level .nil

theorem Content.level : (c : Content) → Level (fun _ => true) c.kinds
  | .items items => items.level.any
  | .comprehension element isAsync target iterable clauses =>
    element.level.any.append ((level_forKinds isAsync).append
      (target.level.any.append (.flat rfl rfl (iterable.level.any.append clauses.level))))

theorem Items.level : (is : Items) → Level notFor is.kinds
  | .nil => .nil
  | .last item => item.level
  | .more item rest => item.level.append (.flat rfl rfl rest.level)

theorem Item.level : (i : Item) → Level notFor i.kinds
  | .expr value => value.level.mono notFor_of_calm
  | .star value => .flat rfl rfl value.level
  | .starStar value => .flat rfl rfl value.level
  | .keyword _ value => .flat rfl rfl (.flat rfl rfl value.level)
  | .pair key value => (key.level.mono notFor_of_calm).append (.flat rfl rfl value.level)
  | .slice lower upper =>
    (lower.level.mono notFor_of_calm).append (.flat rfl rfl (upper.level.mono notFor_of_calm))
  | .stepped lower upper step =>
    (lower.level.mono notFor_of_calm).append (.flat rfl rfl
      ((upper.level.mono notFor_of_calm).append
        (.flat rfl rfl (step.level.mono notFor_of_calm))))
  | .conditional value test otherwise =>
    (value.level.mono notFor_of_calm).append (.flat rfl rfl
      ((test.level.mono notFor_of_calm).append (.flat rfl rfl otherwise.level)))
  | .walrus _ value => .flat rfl rfl (.flat rfl rfl value.level)
  | .lambda params body => by
    refine .flat rfl rfl (.append ?_ (.flat rfl rfl (body.level.mono notFor_of_calm)))
    refine (level_lambdaParams params).mono fun k hk => ?_
    unfold notFor
    rw [bne_iff_ne]
    intro hfor
    rw [hfor] at hk
    cases hk

theorem Bound.level : (b : Bound) → Level calm b.kinds
  | .none => .nil
  | .some value => value.level

theorem Clauses.level : (c : Clauses) → Level (fun _ => true) c.kinds
  | .nil => .nil
  | .each isAsync target iterable rest =>
    (level_forKinds isAsync).append
      (target.level.any.append (.flat rfl rfl (iterable.level.any.append rest.level)))
  | .cond test rest => .flat rfl rfl (test.level.any.append rest.level)

theorem Targets.level : (ts : Targets) → Level placed ts.kinds
  | .nil => .nil
  | .last target => target.level.mono placed_of_spot
  | .more target rest => (target.level.mono placed_of_spot).append (.flat rfl rfl rest.level)

theorem Target.level : (t : Target) → Level spot t.kinds
  | .place _ trailers => .flat rfl rfl (trailers.level rfl fun _ => rfl)
  | .starred target => .flat rfl rfl target.level
  | .group _ targets => .group targets.level.any .nil

theorem Trailers.level {q : Kind → Bool} (hdot : q (.punct .dot) = true)
    (hident : ∀ name, q (.ident name) = true) : (ts : Trailers) → Level q ts.kinds
  | .nil => .nil
  | .cons first rest => (first.level hdot hident).append (rest.level hdot hident)

end

/-! ## Steps of the reading -/

/-- Whether a token leaves no mark and does not change how the next one is read. -/
def inert : Kind → Bool
  | .ident _ => false
  | .opening _ => false
  | .keyword .lambdaKw => false
  | .punct .dot => false
  | _ => true

theorem exprMarks_inert (k : Kind) (hk : inert k = true) (afterDot : Bool) (rest : List Token) :
    exprMarks afterDot (k.bare :: rest) = exprMarks false rest := by
  rw [exprMarks]
  cases k with
  | ident name => cases hk
  | opening b => cases hk
  | keyword w =>
    cases w with
    | lambdaKw => cases hk
    | _ => rfl
  | punct p =>
    cases p with
    | dot => cases hk
    | _ => rfl
  | _ => rfl

/-- A name is read as such before these tokens. -/
def EndsName (rest : List Token) : Prop := ∀ name, nameMarks name rest = [.reads name]

theorem exprMarks_name {rest : List Token} (h : EndsName rest) (name : String) :
    exprMarks false ((Kind.ident name).bare :: rest) = .reads name :: exprMarks false rest := by
  rw [exprMarks]
  simp [h name]

theorem exprMarks_keyword (name : String) (rest : List Token) :
    exprMarks false ((Kind.ident name).bare :: (Kind.punct .eq).bare :: rest) =
      exprMarks false rest := by
  rw [exprMarks, exprMarks_inert (.punct .eq) rfl]
  rfl

theorem exprMarks_walrus (name : String) (rest : List Token) :
    exprMarks false ((Kind.ident name).bare :: (Kind.punct .walrus).bare :: rest) =
      .binds name :: exprMarks false rest := by
  rw [exprMarks, exprMarks_inert (.punct .walrus) rfl]
  rfl

theorem exprMarks_attribute (afterDot : Bool) (name : String) (rest : List Token) :
    exprMarks afterDot ((Kind.punct .dot).bare :: (Kind.ident name).bare :: rest) =
      exprMarks false rest := by
  rw [exprMarks]
  simp only [Kind.kind_bare, beq_self_eq_true]
  rw [exprMarks]
  simp

/-! ### Lambdas -/

/-- Before these tokens a lambda ends: nothing, a comma, or a bracket that closes around it. -/
def Delimits (rest : List Token) : Prop :=
  rest.head?.all (fun t => t.kind == .punct .comma || t.kind.isClosing) = true

theorem delimits_comma (rest : List Token) : Delimits ((Kind.punct .comma).bare :: rest) := rfl

theorem delimits_closing (c : Bracket) (rest : List Token) :
    Delimits ((Kind.closing c).bare :: rest) := rfl

theorem Delimits.endsName {rest : List Token} (h : Delimits rest) : EndsName rest := by
  intro name
  cases rest with
  | nil => rfl
  | cons t rest =>
    have ht : (t.kind == .punct .comma || t.kind.isClosing) = true := h
    simp only [nameMarks]
    split
    · rename_i hk
      rw [hk] at ht
      cases ht
    · rename_i hk
      rw [hk] at ht
      cases ht
    · rfl

theorem lambdaEnd_append {params body : List Kind} (hparams : Level signature params)
    (hbody : Level calm body) {rest : List Token} (h : Delimits rest) :
    lambdaEnd (toks params ++ (Kind.punct .colon).bare :: (toks body ++ rest)) =
      params.length + 1 + body.length := by
  -- A body outside of brackets has no comma there, so only what delimits it can stop the search.
  have hpasses : Passes (fun d k => d == 0 && (k.isClosing || k == .punct .comma)) 0 calm :=
    (Avoids.closing.or (.beq rfl rfl)).passes
  have hstop : positionFrom (fun d k => d == 0 && (k.isClosing || k == .punct .comma)) 0 rest = 0 := by
    cases rest with
    | nil => rfl
    | cons t rest =>
      have ht : (t.kind == .punct .comma || t.kind.isClosing) = true := h
      rw [Bool.or_comm] at ht
      simp [positionFrom, ht]
  unfold lambdaEnd
  simp only [colonAt_append hparams rfl rfl, drop_toks_succ]
  rw [hbody.positionFrom_append hpasses, hstop]
  omega

theorem exprMarks_lambda {params body : List Kind} (hparams : Level signature params)
    (hbody : Level calm body) {rest : List Token} (h : Delimits rest) (afterDot : Bool) :
    exprMarks afterDot ((Kind.keyword .lambdaKw).bare ::
        (toks params ++ (Kind.punct .colon).bare :: (toks body ++ rest))) =
      exprMarks false rest := by
  rw [exprMarks]
  simp only [Kind.kind_bare, lambdaEnd_append hparams hbody h]
  rw [← List.drop_drop, drop_toks_succ, drop_toks]

/-! ### Brackets -/

section Brackets

variable {inner : List Kind} (b c : Bracket) (rest : List Token) (afterDot : Bool)

theorem take_closingAt (hinner : Level (fun _ => true) inner) :
    (toks inner ++ (Kind.closing c).bare :: rest).take
      (closingAt (toks inner ++ (Kind.closing c).bare :: rest)) = toks inner := by
  rw [closingAt_append hinner, take_toks]

theorem drop_closingAt (hinner : Level (fun _ => true) inner) :
    (toks inner ++ (Kind.closing c).bare :: rest).drop
      (closingAt (toks inner ++ (Kind.closing c).bare :: rest) + 1) = rest := by
  rw [closingAt_append hinner, drop_toks_succ]

/-- Brackets without a comprehension are gone through. -/
theorem exprMarks_opening (hinner : Level notFor inner) :
    exprMarks afterDot ((Kind.opening b).bare :: (toks inner ++ (Kind.closing c).bare :: rest)) =
      exprMarks false (toks inner ++ (Kind.closing c).bare :: rest) := by
  rw [exprMarks]
  simp only [Kind.kind_bare, take_closingAt c rest hinner.any]
  rw [topAt_level hinner (.beq rfl rfl)]
  simp

theorem firstIterable_append {target iterable clauses : List Kind} (htarget : Level placed target)
    (hiterable : Level calm iterable) (hclauses : clauses.head?.all endsIterable = true) :
    firstIterable (toks target ++ (Kind.keyword .inKw).bare :: (toks iterable ++ toks clauses)) =
      toks iterable := by
  have havoids : Avoids calm endsIterable :=
    ((Avoids.beq rfl rfl).or (.beq rfl rfl)).or (.beq rfl rfl)
  have hend : topAt endsIterable (toks iterable ++ toks clauses) = iterable.length := by
    cases clauses with
    | nil =>
      rw [toks_nil, List.append_nil]
      exact topAt_level hiterable havoids
    | cons k clauses => exact topAt_append hiterable havoids hclauses _
  have hin : topAt (· == .keyword .inKw)
      (toks target ++ (Kind.keyword .inKw).bare :: (toks iterable ++ toks clauses)) =
      target.length := topAt_append htarget (.beq rfl rfl) (beq_self_eq_true _) _
  unfold firstIterable
  simp only [hin, drop_toks_succ, hend, take_toks]

/-- Of a comprehension, only the first iterable is read. -/
theorem exprMarks_comprehension {element target iterable clauses : List Kind}
    (helement : Level notFor element) (htarget : Level placed target)
    (hiterable : Level calm iterable) (hclauses : Level (fun _ => true) clauses)
    (hbegin : clauses.head?.all endsIterable = true) :
    exprMarks afterDot ((Kind.opening b).bare ::
        (toks (element ++ .keyword .forKw :: (target ++ .keyword .inKw :: (iterable ++ clauses))) ++
          (Kind.closing c).bare :: rest)) =
      exprMarks false (toks iterable) ++ exprMarks false rest := by
  have hinner : Level (fun _ => true)
      (element ++ .keyword .forKw :: (target ++ .keyword .inKw :: (iterable ++ clauses))) :=
    helement.any.append
      (.flat rfl rfl (htarget.any.append (.flat rfl rfl (hiterable.any.append hclauses))))
  rw [exprMarks]
  simp only [Kind.kind_bare, take_closingAt c rest hinner, drop_closingAt c rest hinner]
  have hfor : topAt (· == .keyword .forKw) (toks
      (element ++ .keyword .forKw :: (target ++ .keyword .inKw :: (iterable ++ clauses)))) =
      element.length := by
    rw [toks_append, toks_cons]
    exact topAt_append helement (.beq rfl rfl) (beq_self_eq_true _) _
  have hlt : element.length < (toks
      (element ++ .keyword .forKw :: (target ++ .keyword .inKw :: (iterable ++ clauses)))).length := by
    simp
  rw [hfor, if_pos hlt, toks_append, toks_cons, drop_toks_succ, toks_append, toks_cons, toks_append,
    firstIterable_append htarget hiterable hbegin]

end Brackets

/-! ## Expressions -/

theorem Trailer.endsName (t : Trailer) (rest : List Token) : EndsName (toks t.kinds ++ rest) := by
  intro name
  cases t <;> rfl

theorem BinaryOp.endsName (op : BinaryOp) (rest : List Token) : EndsName (toks op.kinds ++ rest) := by
  intro name
  cases op with
  | sign p =>
    obtain ⟨p, hp⟩ := p
    cases p <;> first | rfl | cases hp
  | _ => rfl

/-- An operator leaves no mark. -/
theorem BinaryOp.exprMarks_append (op : BinaryOp) (rest : List Token) :
    exprMarks false (toks op.kinds ++ rest) = exprMarks false rest := by
  cases op with
  | sign p =>
    obtain ⟨p, hp⟩ := p
    refine exprMarks_inert (.punct p) ?_ false rest
    cases p <;> first | rfl | cases hp
  | and => exact exprMarks_inert (.keyword .andKw) rfl false rest
  | or => exact exprMarks_inert (.keyword .orKw) rfl false rest
  | is => exact exprMarks_inert (.keyword .isKw) rfl false rest
  | isNot =>
    show exprMarks false ((Kind.keyword .isKw).bare :: (Kind.keyword .notKw).bare :: rest) = _
    rw [exprMarks_inert (.keyword .isKw) rfl, exprMarks_inert (.keyword .notKw) rfl]
  | «in» => exact exprMarks_inert (.keyword .inKw) rfl false rest
  | notIn =>
    show exprMarks false ((Kind.keyword .notKw).bare :: (Kind.keyword .inKw).bare :: rest) = _
    rw [exprMarks_inert (.keyword .notKw) rfl, exprMarks_inert (.keyword .inKw) rfl]

theorem Clauses.head_endsIterable (c : Clauses) : c.kinds.head?.all endsIterable = true := by
  cases c with
  | nil => rfl
  | each isAsync target iterable rest => cases isAsync <;> rfl
  | cond test rest => rfl

mutual

theorem Expr.exprMarks_append : (e : Expr) → (rest : List Token) → EndsName rest →
    exprMarks false (toks e.kinds ++ rest) = e.marks ++ exprMarks false rest
  | .name id, rest, h => exprMarks_name h id
  | .literal value, rest, _ => by
    cases value <;> exact exprMarks_inert _ rfl false rest
  | .trailed value trailer, rest, _ => by
    simp only [Expr.kinds, Expr.marks, toks_append, List.append_assoc]
    rw [value.exprMarks_append _ (trailer.endsName rest), trailer.exprMarks_append rest]
  | .unary op operand, rest, h => by
    have hop : exprMarks false (op.kind.bare :: (toks operand.kinds ++ rest)) =
        exprMarks false (toks operand.kinds ++ rest) := by
      cases op <;> exact exprMarks_inert _ rfl false _
    exact hop.trans (operand.exprMarks_append rest h)
  | .binary op left right, rest, h => by
    simp only [Expr.kinds, Expr.marks, toks_append, List.append_assoc]
    rw [left.exprMarks_append _ (op.endsName _), op.exprMarks_append, right.exprMarks_append rest h]
  | .bracketed b content, rest, _ => by
    simp only [Expr.kinds, Expr.marks, toks_cons, toks_append, List.cons_append, List.append_assoc,
      toks_nil, List.nil_append]
    exact content.exprMarks_brackets b b rest

theorem Trailer.exprMarks_append : (t : Trailer) → (rest : List Token) →
    exprMarks false (toks t.kinds ++ rest) = t.marks ++ exprMarks false rest
  | .attr name, rest => exprMarks_attribute false name rest
  | .subscript index, rest => by
    simp only [Trailer.kinds, Trailer.marks, toks_cons, toks_append, List.cons_append,
      List.append_assoc, toks_nil, List.nil_append]
    exact index.exprMarks_brackets .square .square rest
  | .call args, rest => by
    simp only [Trailer.kinds, Trailer.marks, toks_cons, toks_append, List.cons_append,
      List.append_assoc, toks_nil, List.nil_append]
    exact args.exprMarks_brackets .paren .paren rest

theorem Content.exprMarks_brackets : (content : Content) → (b c : Bracket) → (rest : List Token) →
    exprMarks false ((Kind.opening b).bare ::
        (toks content.kinds ++ (Kind.closing c).bare :: rest)) =
      content.marks ++ exprMarks false rest
  | .items items, b, c, rest => by
    rw [Content.kinds, exprMarks_opening b c rest false items.level,
      items.exprMarks_append _ (delimits_closing c rest), exprMarks_inert (.closing c) rfl]
    rfl
  | .comprehension element isAsync target iterable clauses, b, c, rest => by
    have hiterable : exprMarks false (toks iterable.kinds) = iterable.marks := by
      have h := iterable.exprMarks_append [] fun _ => rfl
      rwa [List.append_nil, exprMarks, List.append_nil] at h
    rw [Content.marks, ← hiterable]
    cases isAsync with
    | false =>
      exact exprMarks_comprehension b c rest false element.level target.level iterable.level
        clauses.level clauses.head_endsIterable
    | true =>
      -- The word before `for` is as good as a part of the element, of which nothing is read.
      have helement : Level notFor (element.kinds ++ [.keyword .asyncKw]) :=
        element.level.append (.single rfl rfl)
      have h := exprMarks_comprehension b c rest false helement target.level iterable.level
        clauses.level clauses.head_endsIterable
      rwa [List.append_assoc] at h

theorem Items.exprMarks_append : (items : Items) → (rest : List Token) → Delimits rest →
    exprMarks false (toks items.kinds ++ rest) = items.marks ++ exprMarks false rest
  | .nil, _, _ => rfl
  | .last item, rest, h => item.exprMarks_append rest h
  | .more item others, rest, h => by
    simp only [Items.kinds, Items.marks, toks_append, toks_cons, List.append_assoc, List.cons_append]
    rw [item.exprMarks_append _ (delimits_comma _), exprMarks_inert (.punct .comma) rfl,
      others.exprMarks_append rest h]

theorem Item.exprMarks_append : (item : Item) → (rest : List Token) → Delimits rest →
    exprMarks false (toks item.kinds ++ rest) = item.marks ++ exprMarks false rest
  | .expr value, rest, h => value.exprMarks_append rest h.endsName
  | .star value, rest, h =>
    (exprMarks_inert (.punct .star) rfl false _).trans (value.exprMarks_append rest h)
  | .starStar value, rest, h =>
    (exprMarks_inert (.punct .starStar) rfl false _).trans (value.exprMarks_append rest h)
  | .keyword name value, rest, h =>
    (exprMarks_keyword name _).trans (value.exprMarks_append rest h)
  | .pair key value, rest, h => by
    simp only [Item.kinds, Item.marks, toks_append, toks_cons, List.append_assoc, List.cons_append]
    rw [key.exprMarks_append _ fun _ => rfl, exprMarks_inert (.punct .colon) rfl,
      value.exprMarks_append rest h]
  | .slice lower upper, rest, h => by
    simp only [Item.kinds, Item.marks, toks_append, toks_cons, List.append_assoc, List.cons_append]
    rw [lower.exprMarks_append _ fun _ => rfl, exprMarks_inert (.punct .colon) rfl,
      upper.exprMarks_append rest h.endsName]
  | .stepped lower upper step, rest, h => by
    simp only [Item.kinds, Item.marks, toks_append, toks_cons, List.append_assoc, List.cons_append]
    rw [lower.exprMarks_append _ fun _ => rfl, exprMarks_inert (.punct .colon) rfl,
      upper.exprMarks_append _ fun _ => rfl, exprMarks_inert (.punct .colon) rfl,
      step.exprMarks_append rest h.endsName]
  | .conditional value test otherwise, rest, h => by
    simp only [Item.kinds, Item.marks, toks_append, toks_cons, List.append_assoc, List.cons_append]
    rw [value.exprMarks_append _ fun _ => rfl, exprMarks_inert (.keyword .ifKw) rfl,
      test.exprMarks_append _ fun _ => rfl, exprMarks_inert (.keyword .elseKw) rfl,
      otherwise.exprMarks_append rest h]
  | .walrus name value, rest, h => by
    simp only [Item.kinds, Item.marks, toks_cons, List.cons_append]
    rw [exprMarks_walrus, value.exprMarks_append rest h]
  | .lambda params body, rest, h => by
    simp only [Item.kinds, Item.marks, toks_append, toks_cons, List.append_assoc, List.cons_append,
      List.nil_append]
    exact exprMarks_lambda (level_lambdaParams params) body.level h false

theorem Bound.exprMarks_append : (bound : Bound) → (rest : List Token) → EndsName rest →
    exprMarks false (toks bound.kinds ++ rest) = bound.marks ++ exprMarks false rest
  | .none, _, _ => rfl
  | .some value, rest, h => value.exprMarks_append rest h

end

/-! ## Targets -/

/-- These tokens do not go on with a trailer. -/
def EndsTrailers (rest : List Token) : Prop := rest.head?.any (beginsTrailer ·.kind) = false

theorem endsTrailers_nil : EndsTrailers [] := rfl

theorem endsTrailers_comma (rest : List Token) : EndsTrailers ((Kind.punct .comma).bare :: rest) := rfl

theorem endsTrailers_closing (c : Bracket) (rest : List Token) :
    EndsTrailers ((Kind.closing c).bare :: rest) := rfl

theorem trailerEnd_of_endsTrailers {rest : List Token} (h : EndsTrailers rest) :
    trailerEnd rest = 0 := by
  cases rest with
  | nil => rw [trailerEnd]
  | cons t rest =>
    have ht : beginsTrailer t.kind = false := h
    rw [trailerEnd]
    split
    · rename_i hk
      rw [hk] at ht
      cases ht
    · rename_i hk
      rw [hk] at ht
      cases ht
    · rename_i hk
      rw [hk] at ht
      cases ht
    · rfl

theorem Trailer.trailerEnd_append (t : Trailer) (rest : List Token) :
    trailerEnd (toks t.kinds ++ rest) = t.kinds.length + trailerEnd rest := by
  cases t with
  | attr name =>
    simp only [Trailer.kinds, toks_cons, toks_nil, List.cons_append, List.nil_append]
    rw [trailerEnd]
    rfl
  | subscript index =>
    simp only [Trailer.kinds, toks_cons, toks_append, toks_nil, List.cons_append, List.append_assoc,
      List.nil_append, List.length_cons, List.length_append, List.length_nil]
    rw [trailerEnd]
    simp only [Kind.kind_bare, closingAt_append index.level, drop_toks_succ]
    omega
  | call args =>
    simp only [Trailer.kinds, toks_cons, toks_append, toks_nil, List.cons_append, List.append_assoc,
      List.nil_append, List.length_cons, List.length_append, List.length_nil]
    rw [trailerEnd]
    simp only [Kind.kind_bare, closingAt_append args.level, drop_toks_succ]
    omega

theorem Trailers.trailerEnd_append {rest : List Token} (h : EndsTrailers rest) :
    (ts : Trailers) → trailerEnd (toks ts.kinds ++ rest) = ts.kinds.length
  | .nil => trailerEnd_of_endsTrailers h
  | .cons first others => by
    simp only [Trailers.kinds, toks_append, List.append_assoc, List.length_append]
    rw [first.trailerEnd_append, others.trailerEnd_append h]

theorem Trailers.exprMarks_append (rest : List Token) :
    (ts : Trailers) → exprMarks false (toks ts.kinds ++ rest) = ts.marks ++ exprMarks false rest
  | .nil => rfl
  | .cons first others => by
    simp only [Trailers.kinds, Trailers.marks, toks_append, List.append_assoc]
    rw [first.exprMarks_append, others.exprMarks_append rest]

/-- A trailer ends with a name or a bracket. -/
theorem Trailer.endsWithDot_append (t : Trailer) (before : List Token) :
    endsWithDot (before ++ toks t.kinds) = false := by
  unfold endsWithDot
  rw [List.getLast?_append]
  cases t <;> simp [Trailer.kinds, List.getLast?_cons]

theorem Trailers.endsWithDot_append : (ts : Trailers) → (before : List Token) →
    endsWithDot before = false → endsWithDot (before ++ toks ts.kinds) = false
  | .nil, before, h => by
    rw [Trailers.kinds, toks_nil, List.append_nil]
    exact h
  | .cons first others, before, _ => by
    rw [Trailers.kinds, toks_append, ← List.append_assoc]
    exact others.endsWithDot_append _ (first.endsWithDot_append before)

theorem targetMarks_inert (k : Kind) (hk : (k.ident? == none && k != .punct .dot) = true)
    (afterDot : Bool) (rest : List Token) :
    targetMarks afterDot (k.bare :: rest) = targetMarks false rest := by
  rw [targetMarks]
  cases k with
  | ident name => cases hk
  | punct p =>
    cases p with
    | dot => cases hk
    | _ => rfl
  | _ => rfl

theorem targetMarks_name {rest : List Token} (h : EndsTrailers rest) (name : String) :
    targetMarks false ((Kind.ident name).bare :: rest) = .binds name :: targetMarks false rest := by
  have h' : rest.head?.any (beginsTrailer ·.kind) = false := h
  rw [targetMarks]
  simp [h']

/-- A name with trailers is read, and so is what its trailers hold. -/
theorem targetMarks_trailed (name : String) (first : Trailer) (others : Trailers)
    {rest : List Token} (h : EndsTrailers rest) :
    targetMarks false ((Kind.ident name).bare :: (toks (Trailers.cons first others).kinds ++ rest)) =
      .reads name :: ((Trailers.cons first others).marks ++ targetMarks false rest) := by
  have hbegins : (toks (Trailers.cons first others).kinds ++ rest).head?.any
      (beginsTrailer ·.kind) = true := by
    cases first <;> rfl
  have hmarks : exprMarks false (toks (Trailers.cons first others).kinds) =
      (Trailers.cons first others).marks := by
    have hall := (Trailers.cons first others).exprMarks_append []
    rwa [List.append_nil, exprMarks, List.append_nil] at hall
  have hdot : endsWithDot (toks (Trailers.cons first others).kinds) = false :=
    (Trailers.cons first others).endsWithDot_append [] rfl
  rw [targetMarks]
  simp only [Kind.kind_bare, Bool.false_eq_true, if_false, hbegins, if_true,
    Trailers.trailerEnd_append h, take_toks, drop_toks, hmarks, hdot, List.cons_append]

mutual

theorem Target.targetMarks_append : (t : Target) → (rest : List Token) → EndsTrailers rest →
    targetMarks false (toks t.kinds ++ rest) = t.marks ++ targetMarks false rest
  | .place base .nil, _, h => targetMarks_name h base
  | .place base (.cons first others), rest, h => targetMarks_trailed base first others h
  | .starred target, rest, h =>
    (targetMarks_inert (.punct .star) rfl false _).trans (target.targetMarks_append rest h)
  | .group b targets, rest, _ => by
    simp only [Target.kinds, Target.marks, toks_cons, toks_append, toks_nil, List.cons_append,
      List.append_assoc, List.nil_append]
    rw [targetMarks_inert (.opening b) rfl, targets.targetMarks_append _ (endsTrailers_closing b rest),
      targetMarks_inert (.closing b) rfl]

theorem Targets.targetMarks_append : (ts : Targets) → (rest : List Token) → EndsTrailers rest →
    targetMarks false (toks ts.kinds ++ rest) = ts.marks ++ targetMarks false rest
  | .nil, _, _ => rfl
  | .last target, rest, h => target.targetMarks_append rest h
  | .more target others, rest, h => by
    simp only [Targets.kinds, Targets.marks, toks_append, toks_cons, List.append_assoc,
      List.cons_append]
    rw [target.targetMarks_append _ (endsTrailers_comma _), targetMarks_inert (.punct .comma) rfl,
      others.targetMarks_append rest h]

end

end FieldView.Host
