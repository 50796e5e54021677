import FieldView.Scope.Mark

/-!
# What a statement does to names

The marks of a function body, statement by statement. A compound statement is read up to its colon;
its suite is then read as more statements of the same scope, so blocks need no case of their own.
Only a nested function or class is passed over: its name is bound here, its decorators, parameter
defaults, annotations and bases are evaluated here, and its suite is a scope of its own.
-/

set_option autoImplicit false

namespace FieldView.Scope

def isComma (k : Kind) : Bool := k == .punct .comma

def isEq (k : Kind) : Bool := k == .punct .eq

def isAs (k : Kind) : Bool := k == .keyword .asKw

def isAugAssign : Kind → Bool
  | .augAssign _ => true
  | _ => false

/-- The names in a run, wherever they stand. -/
def identsOf (ts : List Token) : List String := ts.filterMap (·.kind.ident?)

/-! ## Imports -/

/-- The name bound by one item of an import: what follows `as`, or else `own`. -/
def importMarks (own : List Token → Option Token) (item : List Token) : List Mark :=
  let asAt := topAt isAs item
  let token := if asAt < item.length then item[asAt + 1]? else own item
  match token.bind (·.kind.ident?) with
  | some name => [.imports name]
  | none => []

/-- The marks of `import a.b, c as d`: the first name of each path, or the name after `as`. -/
def plainImportMarks (items : List Token) : List Mark :=
  (splitTop isComma items).flatMap (importMarks List.head?)

def isParen (k : Kind) : Bool := k == .opening .paren || k == .closing .paren

/-- The marks of `from m import x, y as z`, given what follows `from`. Parentheses around the items
do not count. -/
def fromImportMarks (ts : List Token) : List Mark :=
  match ts.dropWhile (·.kind != .keyword .importKw) with
  | [] => []
  | _ :: items =>
    (splitTop isComma (items.filter (!isParen ·.kind))).flatMap (importMarks List.getLast?)

/-! ## Headers -/

/-- A run that binds what follows `as`, if it has one: `e as target`. -/
def asMarks (item : List Token) : List Mark :=
  let asAt := topAt isAs item
  if asAt < item.length then
    exprMarks false (item.take asAt) ++ targetMarks false (item.drop (asAt + 1))
  else exprMarks false item

/-- The header of a loop: `target in e`. -/
def forMarks (header : List Token) : List Mark :=
  let inAt := topAt (· == .keyword .inKw) header
  if inAt < header.length then
    targetMarks false (header.take inAt) ++ exprMarks false (header.drop (inAt + 1))
  else exprMarks false header

/-- What a parameter of a nested function evaluates outside of it: its type and its default. -/
def paramTailMarks (param : List Token) : List Mark :=
  match param.dropWhile (fun t => t.kind != .punct .colon && t.kind != .punct .eq) with
  | [] => []
  | _ :: tail => (splitTop isEq tail).flatMap (exprMarks false)

/-- What the header of a nested function or class evaluates, from its name on. -/
def nestedHeaderMarks (isDef : Bool) (header : List Token) : List Mark :=
  match header.drop 1 with
  | [] => []
  | t :: ts =>
    if t.kind = .opening .paren then
      let close := closingAt ts
      let inner := ts.take close
      (if isDef then (splitTop isComma inner).flatMap paramTailMarks else exprMarks false inner) ++
        exprMarks false (ts.drop (close + 1))
    else []

/-! ## Simple statements -/

/-- Assignment (plain, chained, typed, augmented) or expression. What follows a lambda outside
brackets belongs to the value, so no `=` or `:` is looked for behind it. -/
def simpleMarks (stmt : List Token) : List Mark :=
  let head := stmt.take (topAt (· == .keyword .lambdaKw) stmt)
  let augAt := topAt isAugAssign head
  if augAt < head.length then
    targetMarks false (stmt.take augAt) ++ exprMarks false (stmt.drop (augAt + 1))
  else
    let eqAt := topAt isEq head
    let typeAt := topAt (· == .punct .colon) (head.take eqAt)
    if typeAt < eqAt then
      let tail := stmt.drop (typeAt + 1)
      targetMarks false (stmt.take typeAt) ++
        if eqAt < head.length then
          exprMarks false ((stmt.take eqAt).drop (typeAt + 1)) ++
            exprMarks false (stmt.drop (eqAt + 1))
        else exprMarks false tail
    else
      let parts := splitTop isEq head
      parts.dropLast.flatMap (targetMarks false) ++
        exprMarks false (parts.getLast?.getD [] ++ stmt.drop head.length)

/-! ## Statements -/

/-- The marks of the statement that begins with `t`, and how many of the tokens after it are done.
-/
def statementMarks (t : Token) (ts : List Token) : List Mark × Nat :=
  let stop := positionFrom endsStatement (nest 0 t.kind) ts
  let line := ts.take stop
  let colon := colonAt line
  let header := line.take colon
  match t.kind with
  | .keyword .asyncKw =>
    match ts with
    | [] => ([], stop)
    | u :: us =>
      if 0 < stop then
        let (marks, done) := statementMarks u us
        (marks, done + 1)
      else ([], stop)
  | .punct .atSign => (exprMarks false line, stop)
  | .keyword .defKw => nested true stop line colon header
  | .keyword .classKw => nested false stop line colon header
  | .keyword .globalKw => ((identsOf line).map .declaresGlobal, stop)
  | .keyword .nonlocalKw => ((identsOf line).map .declaresNonlocal, stop)
  | .keyword .importKw => (plainImportMarks line, stop)
  | .keyword .fromKw => (fromImportMarks line, stop)
  | .keyword .forKw => (forMarks header, colon + 1)
  | .keyword .withKw => ((splitTop isComma header).flatMap asMarks, colon + 1)
  | .keyword .exceptKw => (asMarks header, colon + 1)
  | .keyword .ifKw => (exprMarks false header, colon + 1)
  | .keyword .elifKw => (exprMarks false header, colon + 1)
  | .keyword .whileKw => (exprMarks false header, colon + 1)
  | .keyword .elseKw => ([], colon + 1)
  | .keyword .tryKw => ([], colon + 1)
  | .keyword .finallyKw => ([], colon + 1)
  | .keyword .delKw => (targetMarks false line, stop)
  | .keyword .passKw => ([], stop)
  | .keyword .breakKw => ([], stop)
  | .keyword .continueKw => ([], stop)
  | _ => (simpleMarks (t :: line), stop)
where
  /-- A nested definition: where it ends, and what its first line does outside of it. -/
  nested (isDef : Bool) (stop : Nat) (line : List Token) (colon : Nat) (header : List Token) :
      List Mark × Nat :=
    let named := match ts.head?.bind (·.kind.ident?) with
      | some name => [Mark.binds name]
      | none => []
    (named ++ nestedHeaderMarks isDef header,
      if colon < line.length then colon + 1 + (suite (ts.drop (colon + 1))).next else stop)

/-- Tokens that stand between statements. -/
def separatesStatements : Kind → Bool
  | .newline => true
  | .indent => true
  | .dedent => true
  | .punct .semicolon => true
  | .eof => true
  | _ => false

/-- The marks of a function body. -/
def bodyMarks (ts : List Token) : List Mark :=
  match ts with
  | [] => []
  | t :: ts =>
    if separatesStatements t.kind then bodyMarks ts
    else
      let (marks, done) := statementMarks t ts
      marks ++ bodyMarks (ts.drop done)
termination_by ts.length
decreasing_by all_goals (simp only [List.length_drop, List.length_cons]; omega)

end FieldView.Scope
