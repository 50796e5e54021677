import FieldView.Scope.Names

/-!
# The scope analysis by positions

The analysis once more, as a reader that keeps a whole run of tokens and a place in it. It asks for
tokens by their place, cuts stretches by two places, and counts open brackets, blocks and lambdas
down again. Each of these can go wrong, and so can a loop that does not go on; here they are
checked, and what goes wrong is a `Fault`.

Only the searches that look at one token after the other have nothing to check. They answer with the
length of the run, or with the bound they were given, when they find nothing, so their answers are
not places of tokens in general.
-/

set_option autoImplicit false

namespace FieldView.Scope.Cursor

/-- What a reader by positions can do wrong. -/
inductive Fault
  /-- A token is asked for where there is none. -/
  | index
  /-- A stretch ends before it begins, or behind the run. -/
  | range
  /-- More is taken from a count than it holds. -/
  | underflow
  /-- A loop stays where it is, or a part is read that is no shorter than what is left to read. -/
  | stall
deriving DecidableEq, Repr

abbrev Checked := Except Fault

def tokenAt (ts : List Token) (i : Nat) : Checked Token :=
  match ts[i]? with
  | some t => .ok t
  | none => .error .index

/-- The tokens from one place up to another. -/
def slice (ts : List Token) (start stop : Nat) : Checked (List Token) :=
  if start ≤ stop ∧ stop ≤ ts.length then .ok ((ts.take stop).drop start) else .error .range

def minus (m n : Nat) : Checked Nat := if n ≤ m then .ok (m - n) else .error .underflow

/-! ## Searches -/

/-- The first place at which `stop` holds of depth and kind, or else `missing`. -/
def searchFrom (stop : Nat → Kind → Bool) (missing : Nat) : Nat → Nat → List Token → Nat
  | _, _, [] => missing
  | depth, i, t :: ts =>
    if stop depth t.kind then i else searchFrom stop missing (nest depth t.kind) (i + 1) ts

def search (stop : Nat → Kind → Bool) (ts : List Token) (start : Nat) : Nat :=
  searchFrom stop ts.length 0 start (ts.drop start)

/-- The end of the statement at a place. -/
def statementEnd (ts : List Token) (start : Nat) : Nat := search endsStatement ts start

/-- The bracket that closes the one at a place. -/
def matchingClose (ts : List Token) (start : Nat) : Nat :=
  search (fun depth k => depth ≤ 1 && k.isClosing) ts start

def colonFrom (missing : Nat) : Nat → Nat → Nat → List Token → Checked Nat
  | _, _, _, [] => return missing
  | depth, lambdas, i, t :: ts =>
    if depth = 0 ∧ t.kind = .keyword .lambdaKw then colonFrom missing depth (lambdas + 1) (i + 1) ts
    else if depth = 0 ∧ t.kind = .punct .colon then
      if lambdas = 0 then return i
      else do
        let lambdas ← minus lambdas 1
        colonFrom missing depth lambdas (i + 1) ts
    else colonFrom missing (nest depth t.kind) lambdas (i + 1) ts

/-- The colon that ends the header between two places. -/
def headerColon (ts : List Token) (start stop : Nat) : Checked Nat :=
  colonFrom stop 0 0 start ((ts.take stop).drop start)

def placesFrom (p : Kind → Bool) : Nat → Nat → List Token → List Nat
  | _, _, [] => []
  | depth, i, t :: ts =>
    if depth = 0 ∧ p t.kind = true then i :: placesFrom p 0 (i + 1) ts
    else placesFrom p (nest depth t.kind) (i + 1) ts

/-- Where the tokens outside brackets stand that have the property. -/
def places (p : Kind → Bool) (ts : List Token) : List Nat := placesFrom p 0 0 ts

def cutAt (ts : List Token) : Nat → List Nat → Checked (List (List Token))
  | last, [] => do
    let part ← slice ts last ts.length
    return [part]
  | last, place :: rest => do
    let part ← slice ts last place
    let parts ← cutAt ts (place + 1) rest
    return part :: parts

/-- Cuts a run at the tokens outside brackets that have the property. -/
def split (p : Kind → Bool) (ts : List Token) : Checked (List (List Token)) :=
  cutAt ts 0 (places p ts)

/-! ## Suites -/

/-- A stretch of a run by its two places. -/
structure Range where
  start : Nat
  stop : Nat

/-- The end of a block inside `depth` others, and where reading goes on. -/
def blockFrom (ts : List Token) (depth i : Nat) : Checked (Nat × Nat) :=
  if i < ts.length then do
    let t ← tokenAt ts i
    match t.kind with
    | .indent => blockFrom ts (depth + 1) (i + 1)
    | .dedent =>
      let depth ← minus depth 1
      if depth = 0 then return (i, i + 1) else blockFrom ts depth (i + 1)
    | .eof => return (i, i)
    | _ => blockFrom ts depth (i + 1)
  else return (i, i)
termination_by ts.length - i

def lineFrom (ts : List Token) (i : Nat) : Checked Nat :=
  if i < ts.length then do
    let t ← tokenAt ts i
    if t.kind = .newline then return i else lineFrom ts (i + 1)
  else return i
termination_by ts.length - i

def isAt (ts : List Token) (i : Nat) (k : Kind) : Bool := ts[i]?.any (·.kind == k)

/-- The suite after the colon of a header whose line ends at `lineEnd`, and where reading goes on.
-/
def suiteAfter (ts : List Token) (colon lineEnd : Nat) : Checked (Range × Nat) :=
  if colon + 1 = lineEnd ∧ isAt ts lineEnd .newline ∧ isAt ts (lineEnd + 1) .indent then do
    let (stop, next) ← blockFrom ts 1 (lineEnd + 2)
    return (⟨lineEnd + 2, stop⟩, next)
  else do
    let stop ← lineFrom ts (colon + 1)
    return (⟨colon + 1, stop⟩, stop + 1)

/-! ## Expressions and targets -/

/-- Whether the token before a place is a dot. -/
def afterDot (ts : List Token) (i : Nat) : Checked Bool :=
  if 0 < i then do
    let before ← minus i 1
    let t ← tokenAt ts before
    return t.kind == .punct .dot
  else return false

def lambdaFrom (ts : List Token) (depth i : Nat) : Checked Nat :=
  if i < ts.length then do
    let t ← tokenAt ts i
    if t.kind.isOpening then lambdaFrom ts (depth + 1) (i + 1)
    else if t.kind.isClosing then
      if depth = 0 then return i
      else
        let depth ← minus depth 1
        lambdaFrom ts depth (i + 1)
    else if t.kind = .punct .comma ∧ depth = 0 then return i
    else lambdaFrom ts depth (i + 1)
  else return ts.length
termination_by ts.length - i

/-- What follows the lambda at a place. -/
def skipLambda (ts : List Token) (start : Nat) : Checked Nat := do
  let colon ← headerColon ts (start + 1) ts.length
  lambdaFrom ts 0 (colon + 1)

def trailerFrom (ts : List Token) (i : Nat) : Checked Nat :=
  if i < ts.length then do
    let t ← tokenAt ts i
    match t.kind with
    | .punct .dot => trailerFrom ts (i + 2)
    | .opening .square =>
      let next := matchingClose ts i + 1
      if i < next then trailerFrom ts next else .error .stall
    | .opening .paren =>
      let next := matchingClose ts i + 1
      if i < next then trailerFrom ts next else .error .stall
    | _ => return i
  else return i
termination_by ts.length - i

/-- The end of the attributes, subscripts and calls from a place on. -/
def trailerEnd (ts : List Token) (start : Nat) : Checked Nat := do
  let stop ← trailerFrom ts start
  return min stop ts.length

/-- The first iterable of the comprehension inside brackets whose first `for` stands at a place. -/
def firstIterable (inner : List Token) (forAt : Nat) : Checked (List Token) := do
  let rest ← slice inner (forAt + 1) inner.length
  match (places (· == .keyword .inKw) rest).head? with
  | some inAt =>
    let iterable ← slice rest (inAt + 1) rest.length
    slice iterable 0 ((places endsIterable iterable).head?.getD iterable.length)
  | none => return []

def scanExpr (ts : List Token) (i : Nat) : Checked (List Mark) :=
  if i < ts.length then do
    let t ← tokenAt ts i
    match t.kind with
    | .ident name =>
      let dotted ← afterDot ts i
      let rest ← scanExpr ts (i + 1)
      return (if dotted then [] else nameMarks name (ts.drop (i + 1))) ++ rest
    | .keyword .lambdaKw =>
      let next ← skipLambda ts i
      if i < next then scanExpr ts next else .error .stall
    | .opening _ =>
      let close := min (matchingClose ts i) ts.length
      let inner ← slice ts (i + 1) (max close (i + 1))
      match (places (· == .keyword .forKw) inner).head? with
      | some forAt =>
        let iterable ← firstIterable inner forAt
        if iterable.length < ts.length - i ∧ i < close + 1 then do
          let first ← scanExpr iterable 0
          let rest ← scanExpr ts (close + 1)
          return first ++ rest
        else .error .stall
      | none => scanExpr ts (i + 1)
    | _ => scanExpr ts (i + 1)
  else return []
termination_by ts.length - i

def bindTargets (ts : List Token) (i : Nat) : Checked (List Mark) :=
  if i < ts.length then do
    let t ← tokenAt ts i
    match t.kind with
    | .ident name =>
      let dotted ← afterDot ts i
      if dotted then bindTargets ts (i + 1)
      else if ts[i + 1]?.any (beginsTrailer ·.kind) then
        let stop ← trailerEnd ts (i + 1)
        let trailer ← slice ts (i + 1) stop
        let reads ← scanExpr trailer 0
        if i < stop then do
          let rest ← bindTargets ts stop
          return .reads name :: reads ++ rest
        else .error .stall
      else
        let rest ← bindTargets ts (i + 1)
        return .binds name :: rest
    | _ => bindTargets ts (i + 1)
  else return []
termination_by ts.length - i

/-! ## Statements -/

def scanAll (scan : List Token → Checked (List Mark)) : List (List Token) → Checked (List Mark)
  | [] => return []
  | part :: parts => do
    let marks ← scan part
    let rest ← scanAll scan parts
    return marks ++ rest

/-- Reads what stands before and behind the first token outside brackets that has the property; a
run without one is an expression. -/
def scanSides (p : Kind → Bool) (before behind : List Token → Nat → Checked (List Mark))
    (ts : List Token) : Checked (List Mark) :=
  match (places p ts).head? with
  | some place => do
    let left ← slice ts 0 place
    let leftMarks ← before left 0
    let right ← slice ts (place + 1) ts.length
    let rightMarks ← behind right 0
    return leftMarks ++ rightMarks
  | none => scanExpr ts 0

def bindImport (own : List Token → Option Token) (item : List Token) : List Mark :=
  let token := match (places isAs item).head? with
    | some place => item[place + 1]?
    | none => own item
  (token.bind (·.kind.ident?)).toList.map .imports

def bindFrom (stmt : List Token) : Checked (List Mark) :=
  match stmt.findIdx? (·.kind == .keyword .importKw) with
  | some place => do
    let items ← slice stmt (place + 1) stmt.length
    let parts ← split isComma (items.filter (!isParen ·.kind))
    return parts.flatMap (bindImport List.getLast?)
  | none => return []

def scanParamTail (param : List Token) : Checked (List Mark) :=
  match param.findIdx? (fun t => t.kind == .punct .colon || t.kind == .punct .eq) with
  | some place => do
    let tail ← slice param (place + 1) param.length
    let parts ← split isEq tail
    scanAll (scanExpr · 0) parts
  | none => return []

/-- Reads the parameters of a nested function or the bases of a nested class. -/
def scanBrackets (isDef : Bool) (inner : List Token) : Checked (List Mark) :=
  if isDef then do
    let params ← split isComma inner
    scanAll scanParamTail params
  else scanExpr inner 0

def scanNestedHeader (isDef : Bool) (header : List Token) : Checked (List Mark) :=
  if header.head?.any (·.kind == .opening .paren) then do
    let close := min (matchingClose header 0) header.length
    let inner ← slice header 1 (max close 1)
    let marks ← scanBrackets isDef inner
    if close + 1 < header.length then do
      let behind ← slice header (close + 1) header.length
      let rest ← scanExpr behind 0
      return marks ++ rest
    else return marks
  else return []

def scanNested (ts : List Token) (start stop : Nat) : Checked (List Mark × Nat) := do
  let t ← tokenAt ts start
  let named := match ts[start + 1]?.bind (·.kind.ident?) with
    | some name => [Mark.binds name]
    | none => []
  let colon ← headerColon ts (start + 1) stop
  let header ← slice ts (min (start + 2) colon) colon
  let marks ← scanNestedHeader (t.kind == .keyword .defKw) header
  if stop ≤ colon then return (named ++ marks, stop)
  else do
    let (_, next) ← suiteAfter ts colon stop
    return (named ++ marks, next)

def scanChain (stmt : List Token) : Nat → List Nat → Checked (List Mark)
  | last, [] => do
    let value ← slice stmt last stmt.length
    scanExpr value 0
  | last, eqAt :: rest => do
    let target ← slice stmt last eqAt
    let marks ← bindTargets target 0
    let marks' ← scanChain stmt (eqAt + 1) rest
    return marks ++ marks'

def scanTyped (stmt : List Token) (colon : Nat) (eqAt : Option Nat) : Checked (List Mark) := do
  let target ← slice stmt 0 colon
  let marks ← bindTargets target 0
  match eqAt with
  | some eqAt =>
    let type ← slice stmt (colon + 1) eqAt
    let typeMarks ← scanExpr type 0
    let value ← slice stmt (eqAt + 1) stmt.length
    let valueMarks ← scanExpr value 0
    return marks ++ (typeMarks ++ valueMarks)
  | none =>
    let type ← slice stmt (colon + 1) stmt.length
    let typeMarks ← scanExpr type 0
    return marks ++ typeMarks

def scanSimple (stmt : List Token) : Checked (List Mark) := do
  let head ← slice stmt 0 ((places (· == .keyword .lambdaKw) stmt).head?.getD stmt.length)
  match (places isAugAssign head).head? with
  | some augAt =>
    let target ← slice stmt 0 augAt
    let marks ← bindTargets target 0
    let value ← slice stmt (augAt + 1) stmt.length
    let valueMarks ← scanExpr value 0
    return marks ++ valueMarks
  | none =>
    let eqs := places isEq head
    match (places (· == .punct .colon) head).head?.filter (fun c => eqs.head?.all (c < ·)) with
    | some colon => scanTyped stmt colon eqs.head?
    | none => scanChain stmt 0 eqs

/-- Reads the rest of the statement after its first word. -/
def scanLine (ts : List Token) (start stop : Nat) (scan : List Token → Checked (List Mark)) :
    Checked (List Mark × Nat) := do
  let line ← slice ts (start + 1) stop
  let marks ← scan line
  return (marks, stop)

/-- Reads the header of a compound statement after its first word, and goes on behind the colon. -/
def scanHeader (ts : List Token) (start stop : Nat) (scan : List Token → Checked (List Mark)) :
    Checked (List Mark × Nat) := do
  let colon ← headerColon ts (start + 1) stop
  let header ← slice ts (start + 1) colon
  let marks ← scan header
  return (marks, colon + 1)

/-- Goes on behind the colon of a header that holds nothing. -/
def skipHeader (ts : List Token) (start stop : Nat) : Checked (List Mark × Nat) := do
  let colon ← headerColon ts (start + 1) stop
  return ([], colon + 1)

/-- The marks of the statement at a place, and where reading goes on. -/
def scanStatement (ts : List Token) (start : Nat) : Checked (List Mark × Nat) :=
  if start < ts.length then do
    let stop := statementEnd ts start
    let t ← tokenAt ts start
    match t.kind with
    | .keyword .asyncKw =>
      if start + 1 < stop then scanStatement ts (start + 1) else return ([], stop)
    | .punct .atSign => scanLine ts start stop (scanExpr · 0)
    | .keyword .defKw => scanNested ts start stop
    | .keyword .classKw => scanNested ts start stop
    | .keyword .globalKw =>
      scanLine ts start stop fun line => return (identsOf line).map .declaresGlobal
    | .keyword .nonlocalKw =>
      scanLine ts start stop fun line => return (identsOf line).map .declaresNonlocal
    | .keyword .importKw =>
      scanLine ts start stop fun line => do
        let items ← split isComma line
        return items.flatMap (bindImport List.head?)
    | .keyword .fromKw =>
      let stmt ← slice ts start stop
      let marks ← bindFrom stmt
      return (marks, stop)
    | .keyword .forKw =>
      scanHeader ts start stop (scanSides (· == .keyword .inKw) bindTargets scanExpr)
    | .keyword .withKw =>
      scanHeader ts start stop fun header => do
        let items ← split isComma header
        scanAll (scanSides isAs scanExpr bindTargets) items
    | .keyword .exceptKw => scanHeader ts start stop (scanSides isAs scanExpr bindTargets)
    | .keyword .ifKw => scanHeader ts start stop (scanExpr · 0)
    | .keyword .elifKw => scanHeader ts start stop (scanExpr · 0)
    | .keyword .whileKw => scanHeader ts start stop (scanExpr · 0)
    | .keyword .elseKw => skipHeader ts start stop
    | .keyword .tryKw => skipHeader ts start stop
    | .keyword .finallyKw => skipHeader ts start stop
    | .keyword .delKw => scanLine ts start stop (bindTargets · 0)
    | .keyword .passKw => return ([], stop)
    | .keyword .breakKw => return ([], stop)
    | .keyword .continueKw => return ([], stop)
    | _ =>
      let stmt ← slice ts start stop
      let marks ← scanSimple stmt
      return (marks, stop)
  else .error .index
termination_by ts.length - start

def scanBody (ts : List Token) (i : Nat) : Checked (List Mark) :=
  if i < ts.length then do
    let t ← tokenAt ts i
    if separatesStatements t.kind then scanBody ts (i + 1)
    else
      let (marks, next) ← scanStatement ts i
      if i < next then do
        let rest ← scanBody ts next
        return marks ++ rest
      else .error .stall
  else return []
termination_by ts.length - i

/-! ## Functions -/

/-- A function definition by the places of its parameters and its body. -/
structure FunctionAt where
  name : String
  params : Range
  body : Range

/-- Reads the definition at a `def`: the function and where reading goes on, or the token at which
the header goes wrong. -/
def readFunction (ts : List Token) (start : Nat) :
    Checked (Except (Option Token) (FunctionAt × Nat)) :=
  match ts[start + 1]?.bind (·.kind.ident?) with
  | none => return .error ts[start + 1]?
  | some name =>
    if isAt ts (start + 2) (.opening .paren) then
      let paren := matchingClose ts (start + 2)
      if ts.length ≤ paren then return .error ts[start + 2]?
      else do
        let stop := statementEnd ts paren
        let colon ← headerColon ts (paren + 1) stop
        if stop ≤ colon then return .error ts[paren]?
        else
          let (body, next) ← suiteAfter ts colon stop
          return .ok ({ name, params := ⟨start + 3, paren⟩, body }, next)
    else return .error ts[start + 2]?

def shapeError (filename : String) (fault : ShapeFault) (culprit : Option Token) : ShapeError :=
  { fault, filename, span := culprit.map (·.span) }

/-- The one function among the top-level tokens from a place on, given one that was found already.
-/
def findFunction (filename : String) (ts : List Token) (found : Option FunctionAt) (i : Nat) :
    Checked (Except ShapeError FunctionAt) :=
  if i < ts.length then do
    let t ← tokenAt ts i
    match t.kind with
    | .newline => findFunction filename ts found (i + 1)
    | .eof => return answer
    | .punct .atSign =>
      let next := statementEnd ts i + 1
      if i < next then findFunction filename ts found next else .error .stall
    | .keyword .defKw =>
      let read ← readFunction ts i
      match read with
      | .error culprit => return .error (shapeError filename .malformed culprit)
      | .ok (function, next) =>
        match found with
        | some _ => return .error (shapeError filename .multiple (some t))
        | none => if i < next then findFunction filename ts (some function) next else .error .stall
    | .keyword .asyncKw =>
      if isAt ts (i + 1) (.keyword .defKw) then findFunction filename ts found (i + 1)
      else return .error (shapeError filename .otherStatement (some t))
    | _ => return .error (shapeError filename .otherStatement (some t))
  else return answer
termination_by ts.length - i
where
  answer : Except ShapeError FunctionAt :=
    match found with
    | some function => .ok function
    | none => .error (shapeError filename .noFunction none)

def paramNames (params : List Token) : Checked (List String) := do
  let parts ← split isComma params
  return parts.filterMap fun param => (param.find? (!isParamMark ·.kind)).bind (·.kind.ident?)

/-- Classifies the names of the one function that a source text defines. -/
def namesOf (source filename : String) : Checked (Except SourceError Names) :=
  match tokenize source with
  | .error e => return .error (.lexical e)
  | .ok tokens => do
    let found ← findFunction filename tokens none 0
    match found with
    | .error e => return .error (.shape e)
    | .ok function =>
      let params ← slice tokens function.params.start function.params.stop
      let names ← paramNames params
      let body ← slice tokens function.body.start function.body.stop
      let marks ← scanBody body 0
      return .ok (Names.classify names marks)

end FieldView.Scope.Cursor
