import FieldView.Proofs.Host.Expression

/-!
# Reading simple statements

A simple statement is cut at its first words, its `=`, its `:` and its commas, and the pieces are
read as targets and expressions. Each of these cuts is a search outside of brackets, so it is found
from what the pieces hold there: four classes of tokens, each inside the next, say this for values,
for targets with their type, for plain assignments and for all simple statements.
-/

set_option autoImplicit false

namespace FieldView.Host

open FieldView.Scope

/-! ## What stands outside of brackets -/

/-- Values, and the words before them. -/
def stated : Kind → Bool
  | .punct .eq => false
  | .punct .colon => false
  | .punct .semicolon => false
  | .keyword .lambdaKw => false
  | .augAssign _ => false
  | _ => true

/-- Targets with their type. -/
def typed (k : Kind) : Bool := stated k || k == .punct .colon

/-- Assignments, typed or not. -/
def plain : Kind → Bool
  | .punct .semicolon => false
  | .keyword .lambdaKw => false
  | .augAssign _ => false
  | _ => true

/-- Simple statements. -/
def lined : Kind → Bool
  | .punct .semicolon => false
  | .keyword .lambdaKw => false
  | _ => true

theorem stated_of_calm (k : Kind) (h : calm k = true) : stated k = true := by
  cases k with
  | keyword w => cases w <;> first | rfl | cases h
  | punct p => cases p <;> first | rfl | cases h
  | augAssign op => cases h
  | _ => rfl

theorem stated_of_placed (k : Kind) (h : placed k = true) : stated k = true := by
  cases k with
  | keyword w => cases h
  | punct p => cases p <;> first | rfl | cases h
  | augAssign op => cases h
  | _ => rfl

theorem plain_of_stated (k : Kind) (h : stated k = true) : plain k = true := by
  unfold plain
  split
  · cases h
  · cases h
  · cases h
  · rfl

theorem typed_of_stated (k : Kind) (h : stated k = true) : typed k = true := by
  simp [typed, h]

theorem plain_of_typed (k : Kind) (h : typed k = true) : plain k = true := by
  unfold plain
  split
  · cases h
  · cases h
  · cases h
  · rfl

theorem lined_of_plain (k : Kind) (h : plain k = true) : lined k = true := by
  unfold lined
  split
  · cases h
  · cases h
  · rfl

theorem lined_of_stated (k : Kind) (h : stated k = true) : lined k = true :=
  lined_of_plain k (plain_of_stated k h)

theorem avoids_augAssign_plain : Avoids plain isAugAssign where
  flat k hk _ := by
    cases k with
    | augAssign op => cases hk
    | _ => rfl
  opening _ := rfl

theorem avoids_augAssign_stated : Avoids stated isAugAssign where
  flat k hk hflat := avoids_augAssign_plain.flat k (plain_of_stated k hk) hflat
  opening _ := rfl

/-! ## Lists with commas -/

theorem avoids_isComma {q : Kind → Bool} (hq : q (.punct .comma) = false) : Avoids q isComma :=
  .beq hq rfl

/-- A comma list is cut into its parts again. -/
theorem flatMap_splitTop_commaSep {α : Type} {q : Kind → Bool} (hq : q (.punct .comma) = false)
    {f : List Token → List α} (hf : f [] = []) :
    ∀ {parts : List (List Kind)}, (∀ part ∈ parts, Level q part) →
      (splitTop isComma (toks (commaSep parts))).flatMap f = parts.flatMap fun part => f (toks part)
  | [], _ => by
    have hnil := splitTop_level (.nil : Level q []) (avoids_isComma hq)
    rw [commaSep, hnil]
    simp [hf]
  | [part], h => by
    rw [commaSep, splitTop_level (h part List.mem_cons_self) (avoids_isComma hq)]
    simp
  | part :: next :: parts, h => by
    have hrest := flatMap_splitTop_commaSep hq hf fun p hp => h p (List.mem_cons_of_mem part hp)
    rw [commaSep, toks_append, toks_cons,
      splitTop_append (h part List.mem_cons_self) (avoids_isComma hq) rfl,
      List.flatMap_cons, List.flatMap_cons, hrest]

theorem level_trailing {q : Kind → Bool} {parts : List (List Kind)} (trailing : Bool)
    (h : ∀ part ∈ parts, Level q part) :
    ∀ part ∈ parts ++ (if trailing then [[]] else []), Level q part := by
  intro part hpart
  rcases List.mem_append.mp hpart with hp | hp
  · exact h part hp
  · cases trailing with
    | true =>
      obtain rfl := List.mem_singleton.mp hp
      exact .nil
    | false => cases hp

theorem exprMarks_commaSep {rest : List Token} (h : EndsName rest) : (es : List Expr) →
    exprMarks false (toks (commaSep (es.map Expr.kinds)) ++ rest) =
      es.flatMap Expr.marks ++ exprMarks false rest
  | [] => rfl
  | [e] => by
    rw [List.flatMap_singleton]
    exact e.exprMarks_append rest h
  | e :: next :: es => by
    have hrest := exprMarks_commaSep h (next :: es)
    rw [List.map_cons, List.map_cons, commaSep, toks_append, toks_cons, List.append_assoc,
      List.cons_append, e.exprMarks_append _ fun _ => rfl, exprMarks_inert (.punct .comma) rfl,
      List.flatMap_cons, List.append_assoc]
    rw [List.map_cons] at hrest
    rw [hrest]

/-! ## Pieces that are read whole -/

theorem Expr.exprMarks_toks (e : Expr) : exprMarks false (toks e.kinds) = e.marks := by
  have h := e.exprMarks_append [] fun _ => rfl
  rwa [List.append_nil, exprMarks, List.append_nil] at h

theorem Exprs.exprMarks_toks (values : Exprs) : exprMarks false (toks values.kinds) = values.marks := by
  have h := exprMarks_commaSep (fun _ => rfl : EndsName []) (values.first :: values.rest)
  rwa [List.append_nil, exprMarks, List.append_nil] at h

theorem Target.targetMarks_toks (t : Target) : targetMarks false (toks t.kinds) = t.marks := by
  have h := t.targetMarks_append [] endsTrailers_nil
  rwa [List.append_nil, targetMarks, List.append_nil] at h

theorem Targets.targetMarks_toks (ts : Targets) : targetMarks false (toks ts.kinds) = ts.marks := by
  have h := ts.targetMarks_append [] endsTrailers_nil
  rwa [List.append_nil, targetMarks, List.append_nil] at h

theorem Exprs.level (values : Exprs) : Level stated values.kinds := by
  refine level_commaSep rfl fun part hpart => ?_
  obtain ⟨e, -, rfl⟩ := List.mem_map.mp hpart
  exact e.level.mono stated_of_calm

theorem Targets.level_stated (ts : Targets) : Level stated ts.kinds := ts.level.mono stated_of_placed

theorem Target.level_stated (t : Target) : Level stated t.kinds :=
  t.level.mono fun k hk => stated_of_placed k (placed_of_spot k hk)

/-! ## Assignments and expressions -/

theorem avoids_isEq {q : Kind → Bool} (hq : q (.punct .eq) = false) : Avoids q isEq := .beq hq rfl

/-- Without a lambda outside of brackets the whole statement is looked at. -/
theorem take_lambda {q : Kind → Bool} {ks : List Kind} (hks : Level q ks)
    (hq : q (.keyword .lambdaKw) = false) :
    (toks ks).take (topAt (· == .keyword .lambdaKw) (toks ks)) = toks ks := by
  rw [topAt_level hks (.beq hq rfl)]
  exact List.take_of_length_le (by simp)

theorem simpleMarks_stated {ks : List Kind} (hks : Level stated ks) :
    simpleMarks (toks ks) = exprMarks false (toks ks) := by
  have haug := topAt_level hks avoids_augAssign_stated
  have heq := topAt_level hks (avoids_isEq rfl)
  have hcolon : topAt (· == .punct .colon) (toks ks) = ks.length := topAt_level hks (.beq rfl rfl)
  have hwhole : (toks ks).take ks.length = toks ks := List.take_of_length_le (by simp)
  have hnothing : (toks ks).drop ks.length = [] := List.drop_of_length_le (by simp)
  unfold simpleMarks
  simp only [take_lambda hks rfl, haug, heq, hwhole, hcolon, length_toks, Nat.lt_irrefl, if_false,
    splitTop_level hks (avoids_isEq rfl)]
  simp [hnothing]

theorem splitTop_assign (value : Exprs) : (targets : List Targets) →
    splitTop isEq (toks (targets.flatMap (·.kinds ++ [.punct .eq]) ++ value.kinds)) =
      targets.map (fun t => toks t.kinds) ++ [toks value.kinds]
  | [] => splitTop_level value.level (avoids_isEq rfl)
  | t :: targets => by
    rw [List.flatMap_cons, List.append_assoc, List.append_assoc, toks_append, List.singleton_append,
      toks_cons, splitTop_append t.level_stated (avoids_isEq rfl) rfl, splitTop_assign value targets]
    rfl

theorem level_assign (value : Exprs) : (targets : List Targets) →
    Level plain (targets.flatMap (·.kinds ++ [.punct .eq]) ++ value.kinds)
  | [] => value.level.mono plain_of_stated
  | t :: targets => by
    rw [List.flatMap_cons, List.append_assoc, List.append_assoc, List.singleton_append]
    exact (t.level_stated.mono plain_of_stated).append (.flat rfl rfl (level_assign value targets))

theorem simpleMarks_assign (targets : List Targets) (value : Exprs) :
    simpleMarks (toks (Simple.assign targets value).kinds) = (Simple.assign targets value).marks := by
  cases targets with
  | nil =>
    show simpleMarks (toks value.kinds) = value.marks
    rw [simpleMarks_stated value.level, value.exprMarks_toks]
  | cons t targets =>
    have hlevel := level_assign value (t :: targets)
    have hsplit := splitTop_assign value (t :: targets)
    have haug := topAt_level hlevel avoids_augAssign_plain
    simp only [Simple.kinds, Simple.marks]
    have hcut : toks ((t :: targets).flatMap (·.kinds ++ [.punct .eq]) ++ value.kinds) =
        toks t.kinds ++ (Kind.punct .eq).bare ::
          toks (targets.flatMap (·.kinds ++ [.punct .eq]) ++ value.kinds) := by
      simp
    have heq : topAt isEq (toks ((t :: targets).flatMap (·.kinds ++ [.punct .eq]) ++ value.kinds)) =
        t.kinds.length := by
      rw [hcut]
      exact topAt_append t.level_stated (avoids_isEq rfl) rfl _
    have hcolon : topAt (· == .punct .colon) (toks t.kinds) = t.kinds.length :=
      topAt_level t.level_stated (.beq rfl rfl)
    have htake : (toks ((t :: targets).flatMap (·.kinds ++ [.punct .eq]) ++ value.kinds)).take
        t.kinds.length = toks t.kinds := by
      rw [hcut, take_toks]
    unfold simpleMarks
    -- No `:` stands before the first `=`, so the parts between the `=` are targets and a value.
    simp only [take_lambda hlevel rfl, haug, heq, htake, hcolon, hsplit, length_toks, Nat.lt_irrefl,
      if_false, List.dropLast_concat, List.getLast?_concat, Option.getD_some, List.flatMap_map,
      Targets.targetMarks_toks]
    rw [List.drop_of_length_le (by simp), List.append_nil, value.exprMarks_toks]

section Typed

variable {target type value : List Kind}

theorem level_typed (htarget : Level stated target) (htype : Level stated type) :
    Level typed (target ++ .punct .colon :: type) :=
  (htarget.mono typed_of_stated).append (.flat rfl rfl (htype.mono typed_of_stated))

theorem topAt_typed (htarget : Level stated target) :
    topAt (· == .punct .colon) (toks (target ++ .punct .colon :: type)) = target.length := by
  rw [toks_append, toks_cons]
  exact topAt_append htarget (.beq rfl rfl) (beq_self_eq_true _) _

theorem simpleMarks_typed (htarget : Level stated target) (htype : Level stated type) :
    simpleMarks (toks (target ++ .punct .colon :: type)) =
      targetMarks false (toks target) ++ exprMarks false (toks type) := by
  have hfront := level_typed htarget htype
  have hplain := hfront.mono plain_of_typed
  have haug := topAt_level hplain avoids_augAssign_plain
  have heq := topAt_level hfront (avoids_isEq rfl)
  have hwhole : (toks (target ++ .punct .colon :: type)).take
      (target ++ .punct .colon :: type).length = toks (target ++ .punct .colon :: type) :=
    List.take_of_length_le (by simp)
  have hlt : target.length < (target ++ .punct .colon :: type).length := by simp
  unfold simpleMarks
  simp only [take_lambda hplain rfl, haug, heq, hwhole, topAt_typed htarget, length_toks,
    Nat.lt_irrefl, hlt, if_false, if_true]
  rw [toks_append, toks_cons, take_toks, drop_toks_succ]

theorem simpleMarks_typed_value (htarget : Level stated target) (htype : Level stated type)
    (hvalue : Level stated value) :
    simpleMarks (toks ((target ++ .punct .colon :: type) ++ .punct .eq :: value)) =
      targetMarks false (toks target) ++
        (exprMarks false (toks type) ++ exprMarks false (toks value)) := by
  have hfront := level_typed htarget htype
  have hplain : Level plain ((target ++ .punct .colon :: type) ++ .punct .eq :: value) :=
    (hfront.mono plain_of_typed).append (.flat rfl rfl (hvalue.mono plain_of_stated))
  have haug := topAt_level hplain avoids_augAssign_plain
  have heq : topAt isEq (toks ((target ++ .punct .colon :: type) ++ .punct .eq :: value)) =
      (target ++ .punct .colon :: type).length := by
    rw [toks_append, toks_cons]
    exact topAt_append hfront (avoids_isEq rfl) rfl _
  have hbefore : (toks ((target ++ .punct .colon :: type) ++ .punct .eq :: value)).take
      (target ++ .punct .colon :: type).length = toks (target ++ .punct .colon :: type) := by
    rw [toks_append, take_toks]
  have htyped : target.length < (target ++ .punct .colon :: type).length := by simp
  have hassigned : (target ++ .punct .colon :: type).length <
      ((target ++ .punct .colon :: type) ++ .punct .eq :: value).length := by simp
  unfold simpleMarks
  simp only [take_lambda hplain rfl, haug, heq, hbefore, topAt_typed htarget, htyped, hassigned,
    length_toks, Nat.lt_irrefl, if_false, if_true]
  have hfirst : (toks ((target ++ .punct .colon :: type) ++ .punct .eq :: value)).take
      target.length = toks target := by
    rw [List.append_assoc, toks_append, take_toks]
  have hlast : (toks ((target ++ .punct .colon :: type) ++ .punct .eq :: value)).drop
      ((target ++ .punct .colon :: type).length + 1) = toks value := by
    rw [toks_append, toks_cons, drop_toks_succ]
  rw [hfirst, hlast, toks_append, toks_cons, drop_toks_succ]

theorem simpleMarks_augmented (op : String) (htarget : Level stated target)
    (hvalue : Level stated value) :
    simpleMarks (toks (target ++ .augAssign op :: value)) =
      targetMarks false (toks target) ++ exprMarks false (toks value) := by
  have hlevel : Level lined (target ++ .augAssign op :: value) :=
    (htarget.mono lined_of_stated).append
      (.flat rfl rfl (hvalue.mono lined_of_stated))
  have haug : topAt isAugAssign (toks (target ++ .augAssign op :: value)) = target.length := by
    rw [toks_append, toks_cons]
    exact topAt_append htarget avoids_augAssign_stated rfl _
  have hlt : target.length < (toks (target ++ .augAssign op :: value)).length := by simp
  unfold simpleMarks
  simp only [take_lambda hlevel rfl, haug, hlt, if_true]
  rw [toks_append, toks_cons, take_toks, drop_toks_succ]

end Typed

/-! ## Imports and declarations -/

/-- Runs without brackets are level. -/
theorem level_of_all {q : Kind → Bool} {ks : List Kind}
    (h : ks.all (fun k => q k && k.isFlat) = true) : Level q ks := by
  induction ks with
  | nil => exact .nil
  | cons k ks ih =>
    rw [List.all_cons, Bool.and_eq_true, Bool.and_eq_true] at h
    exact .flat h.1.1 h.1.2 (ih h.2)

theorem all_commaSep {p : Kind → Bool} (hcomma : p (.punct .comma) = true) :
    (parts : List (List Kind)) → (∀ part ∈ parts, part.all p = true) → (commaSep parts).all p = true
  | [], _ => rfl
  | [part], h => h part List.mem_cons_self
  | part :: next :: parts, h => by
    have hrest := all_commaSep hcomma (next :: parts) fun l hl => h l (List.mem_cons_of_mem part hl)
    rw [commaSep, List.all_append, List.all_cons, h part List.mem_cons_self, hcomma, hrest]
    rfl

/-- The tokens of a path. -/
def pathed : Kind → Bool
  | .ident _ => true
  | .punct .dot => true
  | .punct .ellipsis => true
  | _ => false

/-- The tokens of a path and of the name after it. -/
def aliased (k : Kind) : Bool := pathed k || k == .keyword .asKw

theorem avoids_isAs {q : Kind → Bool} (hq : q (.keyword .asKw) = false) : Avoids q isAs :=
  .beq hq rfl

theorem importMarks_alias {front : List Kind} (hfront : Level pathed front)
    (own : List Token → Option Token) (name : String) :
    importMarks own (toks (front ++ asKinds (some name))) = [.imports name] := by
  have has : topAt isAs (toks (front ++ asKinds (some name))) = front.length := by
    rw [toks_append]
    exact topAt_append hfront (avoids_isAs rfl) rfl _
  have hlt : front.length < (toks (front ++ asKinds (some name))).length := by
    simp [asKinds]
  have hname : (toks (front ++ asKinds (some name)))[front.length + 1]? =
      some (Kind.ident name).bare := by
    rw [toks_append, List.getElem?_append_right (by simp), length_toks]
    simp [asKinds]
  unfold importMarks
  simp only [has, hlt, if_true, hname]
  rfl

theorem importMarks_own {front : List Kind} (hfront : Level pathed front)
    (own : List Token → Option Token) {name : String}
    (hown : own (toks front) = some (Kind.ident name).bare) :
    importMarks own (toks front) = [.imports name] := by
  unfold importMarks
  simp only [topAt_level hfront (avoids_isAs rfl), length_toks, Nat.lt_irrefl, if_false, hown]
  rfl

theorem ImportItem.level_path (item : ImportItem) : Level pathed
    (.ident item.first :: item.rest.flatMap fun name => [.punct .dot, .ident name]) := by
  refine .flat rfl rfl (level_of_all ?_)
  rw [List.all_flatMap]
  exact List.all_eq_true.mpr fun _ _ => rfl

theorem level_asKinds (given : Option String) : Level aliased (asKinds given) := by
  cases given with
  | none => exact .nil
  | some name => exact .flat rfl rfl (.single rfl rfl)

theorem aliased_of_pathed (k : Kind) (h : pathed k = true) : aliased k = true := by
  simp [aliased, h]

theorem ImportItem.level (item : ImportItem) : Level aliased item.kinds :=
  (item.level_path.mono aliased_of_pathed).append (level_asKinds item.given)

theorem ImportItem.importMarks_toks (item : ImportItem) :
    importMarks List.head? (toks item.kinds) = item.marks := by
  obtain ⟨first, rest, given⟩ := item
  cases given with
  | none =>
    have h := importMarks_own (ImportItem.level_path { first, rest }) List.head? rfl
    rwa [← List.append_nil (Kind.ident first :: _)] at h
  | some name => exact importMarks_alias (ImportItem.level_path { first, rest }) List.head? name

theorem plainImportMarks_toks (items : List ImportItem) :
    plainImportMarks (toks (commaSep (items.map ImportItem.kinds))) =
      items.flatMap ImportItem.marks := by
  have hlevel : ∀ part ∈ items.map ImportItem.kinds, Level aliased part := by
    intro part hpart
    obtain ⟨item, -, rfl⟩ := List.mem_map.mp hpart
    exact item.level
  unfold plainImportMarks
  rw [flatMap_splitTop_commaSep rfl rfl hlevel, List.flatMap_map]
  simp only [ImportItem.importMarks_toks]

theorem FromItem.level (item : FromItem) : Level aliased item.kinds :=
  .flat rfl rfl (level_asKinds item.given)

theorem FromItem.importMarks_toks (item : FromItem) :
    importMarks List.getLast? (toks item.kinds) = item.marks := by
  obtain ⟨name, given⟩ := item
  have hname : Level pathed [.ident name] := .single rfl rfl
  cases given with
  | none => exact importMarks_own hname List.getLast? rfl
  | some other => exact importMarks_alias hname List.getLast? other

theorem dropWhile_path (path : List PathPart) (rest : List Token) :
    (toks (path.map PathPart.kind) ++ (Kind.keyword .importKw).bare :: rest).dropWhile
      (·.kind != .keyword .importKw) = (Kind.keyword .importKw).bare :: rest := by
  induction path with
  | nil => rfl
  | cons part path ih => cases part <;> exact ih

theorem filter_isParen {ks : List Kind} (h : ks.all (!isParen ·) = true) :
    (toks ks).filter (!isParen ·.kind) = toks ks := by
  rw [List.filter_eq_self]
  intro t ht
  obtain ⟨k, hk, rfl⟩ := List.mem_map.mp ht
  exact List.all_eq_true.mp h k hk

theorem FromItems.names_filter (items : List FromItem) (parens trailing : Bool) :
    (toks (FromItems.names items parens trailing).kinds).filter (!isParen ·.kind) =
      toks (commaSep (items.map FromItem.kinds ++ if trailing then [[]] else [])) := by
  have hflat : (commaSep (items.map FromItem.kinds ++ if trailing then [[]] else [])).all
      (!isParen ·) = true := by
    refine all_commaSep rfl _ fun part hpart => ?_
    rcases List.mem_append.mp hpart with hp | hp
    · obtain ⟨⟨name, given⟩, -, rfl⟩ := List.mem_map.mp hp
      cases given <;> rfl
    · cases trailing with
      | true =>
        obtain rfl := List.mem_singleton.mp hp
        rfl
      | false => cases hp
  have hlist := filter_isParen hflat
  cases parens with
  | false => exact hlist
  | true =>
    simp only [FromItems.kinds, if_true, toks_cons, toks_append, toks_nil, List.filter_cons,
      List.filter_append, Kind.kind_bare, hlist]
    simp [isParen]

theorem fromImportMarks_toks (path : List PathPart) (items : FromItems) :
    fromImportMarks (toks (path.map PathPart.kind ++ .keyword .importKw :: items.kinds)) =
      items.marks := by
  unfold fromImportMarks
  rw [toks_append, toks_cons, dropWhile_path]
  cases items with
  | star =>
    have hsplit := splitTop_level (.single rfl rfl : Level (· == .punct .star) [.punct .star])
      (avoids_isComma rfl)
    show (splitTop isComma (toks [.punct .star])).flatMap _ = _
    rw [hsplit]
    rfl
  | names items parens trailing =>
    have hlevel : ∀ part ∈ items.map FromItem.kinds ++ (if trailing then [[]] else []),
        Level aliased part := by
      refine level_trailing trailing fun part hpart => ?_
      obtain ⟨item, -, rfl⟩ := List.mem_map.mp hpart
      exact item.level
    simp only [FromItems.names_filter]
    rw [flatMap_splitTop_commaSep rfl rfl hlevel, List.flatMap_append, List.flatMap_map]
    simp only [FromItem.importMarks_toks, FromItems.marks]
    cases trailing with
    | true => exact List.append_nil _
    | false => exact List.append_nil _

theorem identsOf_names : (names : List String) →
    identsOf (toks (commaSep (names.map ([.ident ·])))) = names
  | [] => rfl
  | [_] => rfl
  | name :: next :: names => by
    have hrest := identsOf_names (next :: names)
    show name :: identsOf (toks (commaSep ((next :: names).map ([.ident ·])))) = _
    rw [hrest]

/-! ## Statements -/

theorem lined_of_aliased (k : Kind) (h : aliased k = true) : lined k = true := by
  unfold lined
  split
  · cases h
  · cases h
  · rfl

theorem FromItems.level (items : FromItems) : Level lined items.kinds := by
  cases items with
  | star => exact .single rfl rfl
  | names items parens trailing =>
    have hlist : Level lined
        (commaSep (items.map FromItem.kinds ++ if trailing then [[]] else [])) := by
      refine level_commaSep rfl (level_trailing trailing fun part hpart => ?_)
      obtain ⟨item, -, rfl⟩ := List.mem_map.mp hpart
      exact item.level.mono lined_of_aliased
    cases parens with
    | false => exact hlist
    | true => exact .group hlist.any .nil

theorem level_names (names : List String) : Level lined (commaSep (names.map ([.ident ·]))) := by
  refine level_commaSep rfl fun part hpart => ?_
  obtain ⟨name, -, rfl⟩ := List.mem_map.mp hpart
  exact .single rfl rfl

theorem Simple.level (s : Simple) : Level lined s.kinds := by
  have hstated : ∀ {ks : List Kind}, Level stated ks → Level lined ks := fun h =>
    h.mono lined_of_stated
  have hcalm : ∀ {ks : List Kind}, Level calm ks → Level lined ks := fun h =>
    hstated (h.mono stated_of_calm)
  cases s with
  | assign targets value => exact (level_assign value targets).mono lined_of_plain
  | annotate target type value =>
    refine (hstated target.level_stated).append (.flat rfl rfl ((hcalm type.level).append ?_))
    cases value with
    | none => exact .nil
    | some v => exact .flat rfl rfl (hstated v.level)
  | augment target op value =>
    exact (hstated target.level_stated).append (.flat rfl rfl (hstated value.level))
  | tell verb value =>
    have hvalue : Level lined (value.elim [] (·.kinds)) := by
      cases value with
      | none => exact .nil
      | some v => exact hstated v.level
    cases verb <;> exact .flat rfl rfl hvalue
  | raiseFrom error cause =>
    exact .flat rfl rfl ((hcalm error.level).append (.flat rfl rfl (hcalm cause.level)))
  | «import» items =>
    refine .flat rfl rfl (level_commaSep rfl fun part hpart => ?_)
    obtain ⟨item, -, rfl⟩ := List.mem_map.mp hpart
    exact item.level.mono lined_of_aliased
  | importFrom path items =>
    have hpath : Level lined (path.map PathPart.kind) := by
      refine level_of_all (List.all_eq_true.mpr fun k hk => ?_)
      obtain ⟨part, -, rfl⟩ := List.mem_map.mp hk
      cases part <;> rfl
    exact .flat rfl rfl (hpath.append (.flat rfl rfl items.level))
  | global names => exact .flat rfl rfl (level_names names)
  | nonlocal names => exact .flat rfl rfl (level_names names)
  | del targets => exact .flat rfl rfl (hstated targets.level_stated)
  | pass => exact .single rfl rfl
  | «break» => exact .single rfl rfl
  | «continue» => exact .single rfl rfl

/-- Whether a simple statement without a word of its own can begin with the token. -/
def opensSimple : Kind → Bool
  | .keyword .asyncKw | .keyword .defKw | .keyword .classKw | .keyword .globalKw => false
  | .keyword .nonlocalKw | .keyword .importKw | .keyword .fromKw | .keyword .forKw => false
  | .keyword .withKw | .keyword .exceptKw | .keyword .ifKw | .keyword .elifKw => false
  | .keyword .whileKw | .keyword .elseKw | .keyword .tryKw | .keyword .finallyKw => false
  | .keyword .delKw | .keyword .passKw | .keyword .breakKw | .keyword .continueKw => false
  | .punct .atSign | .punct .semicolon => false
  | .newline | .indent | .dedent | .eof => false
  | _ => true

theorem statementMarks_opensSimple {k stop : Kind} {ks : List Kind} (hk : opensSimple k = true)
    (hks : Level lined (k :: ks)) (hstop : endsStatement 0 stop = true) (rest : List Token) :
    statementMarks k.bare (toks ks ++ stop.bare :: rest) =
      (simpleMarks (toks (k :: ks)), ks.length) := by
  rw [statementMarks.eq_def]
  simp only [Kind.kind_bare, positionFrom_endsStatement hks rfl hstop, take_toks]
  split
  all_goals first | rfl | cases hk

theorem separatesStatements_of_opensSimple {k : Kind} (hk : opensSimple k = true) :
    separatesStatements k = false := by
  unfold separatesStatements
  split
  all_goals first | rfl | cases hk

theorem any_head?_append {p : Kind → Bool} {ks : List Kind} (ls : List Kind)
    (h : ks.head?.any p = true) : (ks ++ ls).head?.any p = true := by
  cases ks with
  | nil => cases h
  | cons k ks => exact h

theorem Expr.head_opensSimple (e : Expr) : e.kinds.head?.any opensSimple = true := by
  cases e with
  | name _ => rfl
  | literal value => cases value <;> rfl
  | trailed value _ => exact any_head?_append _ value.head_opensSimple
  | unary op _ => cases op <;> rfl
  | binary _ left _ => exact any_head?_append _ left.head_opensSimple
  | bracketed _ _ => rfl

theorem Exprs.head_opensSimple (values : Exprs) : values.kinds.head?.any opensSimple = true := by
  obtain ⟨first, rest⟩ := values
  cases rest with
  | nil => exact first.head_opensSimple
  | cons next rest => exact any_head?_append _ first.head_opensSimple

theorem Target.head_opensSimple (t : Target) : t.kinds.head?.any opensSimple = true := by
  cases t <;> rfl

theorem Simple.head_assign (targets : List Targets) (value : Exprs) :
    (Simple.assign targets value).kinds.head?.any opensSimple = true := by
  cases targets with
  | nil => exact value.head_opensSimple
  | cons t targets =>
    refine any_head?_append _ (any_head?_append _ ?_)
    cases t with
    | nil => rfl
    | last target => exact any_head?_append _ target.head_opensSimple
    | more target others =>
      exact any_head?_append _ (any_head?_append _ target.head_opensSimple)

/-- The statement begins with a token that does not separate statements, and reading it gives these
marks and takes all of it, whatever comes after its end. -/
def ReadsAs (ks : List Kind) (marks : List Mark) : Prop :=
  ∃ k rest, ks = k :: rest ∧ separatesStatements k = false ∧
    ∀ stop : Kind, endsStatement 0 stop = true → ∀ after : List Token,
      statementMarks k.bare (toks rest ++ stop.bare :: after) = (marks, rest.length)

theorem readsAs_of_opensSimple {ks : List Kind} {marks : List Mark}
    (hhead : ks.head?.any opensSimple = true) (hlevel : Level lined ks)
    (hmarks : simpleMarks (toks ks) = marks) : ReadsAs ks marks := by
  cases ks with
  | nil => cases hhead
  | cons k rest =>
    refine ⟨k, rest, rfl, separatesStatements_of_opensSimple hhead, fun stop hstop after => ?_⟩
    rw [statementMarks_opensSimple hhead hlevel hstop, hmarks]

/-- How the rest of a statement is read after a word of its own. -/
def wordMarks : Keyword → Option (List Token → List Mark)
  | .importKw => some plainImportMarks
  | .fromKw => some fromImportMarks
  | .globalKw => some fun ts => (identsOf ts).map .declaresGlobal
  | .nonlocalKw => some fun ts => (identsOf ts).map .declaresNonlocal
  | .delKw => some (targetMarks false)
  | .passKw | .breakKw | .continueKw => some fun _ => []
  | _ => none

theorem statementMarks_word {w : Keyword} {marksOf : List Token → List Mark}
    (h : wordMarks w = some marksOf) (ts : List Token) :
    statementMarks (Kind.keyword w).bare ts =
      (marksOf (ts.take (positionFrom endsStatement 0 ts)), positionFrom endsStatement 0 ts) := by
  rw [statementMarks.eq_def]
  cases w <;> cases h <;> rfl

theorem readsAs_word {w : Keyword} {rest : List Kind} {marks : List Mark}
    {marksOf : List Token → List Mark} (h : wordMarks w = some marksOf)
    (hlevel : Level lined (.keyword w :: rest)) (hmarks : marksOf (toks rest) = marks) :
    ReadsAs (.keyword w :: rest) marks := by
  refine ⟨.keyword w, rest, rfl, rfl, fun stop hstop after => ?_⟩
  have hend := positionFrom_endsStatement hlevel rfl hstop after
  rw [statementMarks_word h]
  rw [show nest 0 (.keyword w) = 0 from rfl] at hend
  rw [hend, take_toks, hmarks]

theorem Simple.readsAs (s : Simple) : ReadsAs s.kinds s.marks := by
  have hlevel := s.level
  cases s with
  | assign targets value =>
    exact readsAs_of_opensSimple (Simple.head_assign targets value) hlevel
      (simpleMarks_assign targets value)
  | annotate target type value =>
    refine readsAs_of_opensSimple (any_head?_append _ target.head_opensSimple) hlevel ?_
    have htype := type.level.mono stated_of_calm
    cases value with
    | none =>
      have h := simpleMarks_typed target.level_stated htype
      rw [target.targetMarks_toks, type.exprMarks_toks] at h
      simpa [Simple.kinds, Simple.marks] using h
    | some v =>
      have h := simpleMarks_typed_value target.level_stated htype v.level
      rw [target.targetMarks_toks, type.exprMarks_toks, v.exprMarks_toks] at h
      simpa [Simple.kinds, Simple.marks] using h
  | augment target op value =>
    refine readsAs_of_opensSimple (any_head?_append _ target.head_opensSimple) hlevel ?_
    have h := simpleMarks_augmented op target.level_stated value.level
    rwa [target.targetMarks_toks, value.exprMarks_toks] at h
  | tell verb value =>
    refine readsAs_of_opensSimple (by cases verb <;> rfl) hlevel ?_
    have hvalue : Level stated (value.elim [] (·.kinds)) := by
      cases value with
      | none => exact .nil
      | some v => exact v.level
    have hks : Level stated (verb.kind :: value.elim [] (·.kinds)) := by
      cases verb <;> exact .flat rfl rfl hvalue
    have hinert : inert verb.kind = true := by cases verb <;> rfl
    show simpleMarks (toks (verb.kind :: value.elim [] (·.kinds))) = value.elim [] (·.marks)
    rw [simpleMarks_stated hks, toks_cons, exprMarks_inert _ hinert]
    cases value with
    | none =>
      show exprMarks false [] = []
      rw [exprMarks]
    | some v => exact v.exprMarks_toks
  | raiseFrom error cause =>
    refine readsAs_of_opensSimple rfl hlevel ?_
    have hks : Level stated
        (.keyword .raiseKw :: (error.kinds ++ .keyword .fromKw :: cause.kinds)) :=
      .flat rfl rfl ((error.level.mono stated_of_calm).append
        (.flat rfl rfl (cause.level.mono stated_of_calm)))
    show simpleMarks (toks (.keyword .raiseKw ::
      (error.kinds ++ .keyword .fromKw :: cause.kinds))) = error.marks ++ cause.marks
    rw [simpleMarks_stated hks, toks_cons, toks_append, toks_cons,
      exprMarks_inert (.keyword .raiseKw) rfl, error.exprMarks_append _ fun _ => rfl,
      exprMarks_inert (.keyword .fromKw) rfl, cause.exprMarks_toks]
  | «import» items => exact readsAs_word rfl hlevel (plainImportMarks_toks items)
  | importFrom path items => exact readsAs_word rfl hlevel (fromImportMarks_toks path items)
  | global names =>
    refine readsAs_word rfl hlevel ?_
    rw [identsOf_names, Simple.marks]
  | nonlocal names =>
    refine readsAs_word rfl hlevel ?_
    rw [identsOf_names, Simple.marks]
  | del targets => exact readsAs_word rfl hlevel targets.targetMarks_toks
  | pass => exact readsAs_word rfl hlevel rfl
  | «break» => exact readsAs_word rfl hlevel rfl
  | «continue» => exact readsAs_word rfl hlevel rfl

end FieldView.Host
