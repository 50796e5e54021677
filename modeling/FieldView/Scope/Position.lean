import FieldView.Token.Layout

/-!
# Positions in a run of tokens

The scope analysis reads tokens, not a tree, and finds its way by a few positions: where a statement
ends, where a bracket closes, where the next comma of the same depth stands. Each is counted from
the head of the run that is asked about, and each is at most the length of that run, which is also
the answer when there is no such place. So a run can always be cut there by `take` and `drop`, and
nothing depends on the run being well formed.

Depth counts open brackets of any kind. A closing bracket at depth zero leaves it at zero.
-/

set_option autoImplicit false

namespace FieldView.Scope

/-- The depth after a token. -/
def nest (depth : Nat) : Kind → Nat
  | .opening _ => depth + 1
  | .closing _ => depth - 1
  | _ => depth

/-- The first token at which `stop` holds of its depth and kind. -/
def positionFrom (stop : Nat → Kind → Bool) : Nat → List Token → Nat
  | _, [] => 0
  | depth, t :: ts =>
    if stop depth t.kind then 0 else positionFrom stop (nest depth t.kind) ts + 1

/-- A position lies in its run or at the end of it. -/
theorem positionFrom_le (stop : Nat → Kind → Bool) (depth : Nat) (ts : List Token) :
    positionFrom stop depth ts ≤ ts.length := by
  induction ts generalizing depth with
  | nil => simp [positionFrom]
  | cons t ts ih =>
    simp only [positionFrom, List.length_cons]
    split
    · omega
    · have := ih (nest depth t.kind)
      omega

/-! ## Statements -/

/-- What ends a statement: a line end at any depth, or a semicolon outside brackets. -/
def endsStatement (depth : Nat) (k : Kind) : Bool :=
  k == .newline || k == .eof || (depth == 0 && k == .punct .semicolon)

/-- The end of the statement at the head of the run. -/
def statementEnd (ts : List Token) : Nat := positionFrom endsStatement 0 ts

/-! ## Brackets -/

/-- The bracket that closes the one before the run. -/
def closingAt (ts : List Token) : Nat := positionFrom (fun d k => d == 0 && k.isClosing) 0 ts

/-- The first token outside brackets with the property. -/
def topAt (p : Kind → Bool) (ts : List Token) : Nat :=
  positionFrom (fun d k => d == 0 && p k) 0 ts

theorem topAt_le (p : Kind → Bool) (ts : List Token) : topAt p ts ≤ ts.length :=
  positionFrom_le ..

/-- Cuts a run at every token outside brackets that has the property, and drops those tokens. -/
def splitTop (p : Kind → Bool) (ts : List Token) : List (List Token) :=
  let n := topAt p ts
  if n < ts.length then ts.take n :: splitTop p (ts.drop (n + 1)) else [ts]
termination_by ts.length
decreasing_by simp only [List.length_drop]; omega

/-! ## Headers and suites -/

/-- The colon that ends a header, past the colons of `lambdas` open lambdas. -/
def colonFrom : Nat → Nat → List Token → Nat
  | _, _, [] => 0
  | depth, lambdas, t :: ts =>
    if depth = 0 ∧ t.kind = .keyword .lambdaKw then colonFrom depth (lambdas + 1) ts + 1
    else if depth = 0 ∧ t.kind = .punct .colon then
      match lambdas with
      | 0 => 0
      | outer + 1 => colonFrom depth outer ts + 1
    else colonFrom (nest depth t.kind) lambdas ts + 1

/-- The first colon outside brackets that does not belong to a lambda. -/
def colonAt (ts : List Token) : Nat := colonFrom 0 0 ts

theorem colonFrom_le (depth lambdas : Nat) (ts : List Token) :
    colonFrom depth lambdas ts ≤ ts.length := by
  fun_induction colonFrom depth lambdas ts with
  | case3 => simp
  | _ => simp only [List.length_cons, List.length_nil] at *; omega

/-- The dedent that closes the block whose body heads the run, or the end of the text. -/
def blockEnd : Nat → List Token → Nat
  | _, [] => 0
  | inner, t :: ts =>
    match t.kind with
    | .indent => blockEnd (inner + 1) ts + 1
    | .dedent =>
      match inner with
      | 0 => 0
      | outer + 1 => blockEnd outer ts + 1
    | .eof => 0
    | _ => blockEnd inner ts + 1

/-- The body of a compound statement, as a stretch of the run after its colon. -/
structure Suite where
  /-- Tokens before the body. -/
  start : Nat
  /-- Tokens of the body. -/
  size : Nat
  /-- Tokens up to where reading goes on. -/
  next : Nat

/-- Whether the run begins with a line end and an indented block. -/
def beginsBlock : List Token → Bool
  | t :: u :: _ => t.kind == .newline && u.kind == .indent
  | _ => false

/-- The suite after a colon: the indented block that follows, or else the rest of the line. -/
def suite (ts : List Token) : Suite :=
  if beginsBlock ts then
    let size := blockEnd 0 (ts.drop 2)
    let closed := (ts.drop (2 + size)).head?.any (·.kind == .dedent)
    { start := 2, size, next := if closed then 2 + size + 1 else 2 + size }
  else
    let size := (ts.takeWhile (·.kind != .newline)).length
    { start := 0, size, next := size + 1 }

/-- The tokens of the body. -/
def Suite.body (s : Suite) (ts : List Token) : List Token := (ts.drop s.start).take s.size

/-! ## Expressions -/

/-- What follows the lambda whose parameters head the run: a comma of its own depth or a bracket
that closes around it. -/
def lambdaEnd (ts : List Token) : Nat :=
  let c := colonAt ts
  c + 1 +
    positionFrom (fun d k => d == 0 && (k.isClosing || k == .punct .comma)) 0 (ts.drop (c + 1))

/-- Whether a token begins an attribute, a subscript or a call. -/
def beginsTrailer : Kind → Bool
  | .punct .dot => true
  | .opening .square => true
  | .opening .paren => true
  | _ => false

/-- The length of the chain of attributes, subscripts and calls at the head of the run. -/
def trailerEnd (ts : List Token) : Nat :=
  match ts with
  | [] => 0
  | t :: ts =>
    match t.kind with
    | .punct .dot => 2 + trailerEnd (ts.drop 1)
    | .opening .square => let n := closingAt ts; 2 + n + trailerEnd (ts.drop (n + 1))
    | .opening .paren => let n := closingAt ts; 2 + n + trailerEnd (ts.drop (n + 1))
    | _ => 0
termination_by ts.length
decreasing_by all_goals (simp only [List.length_drop, List.length_cons]; omega)

end FieldView.Scope
