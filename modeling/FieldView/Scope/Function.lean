import FieldView.Scope.Statement

/-!
# The function of a source text

A source text holds one function definition, with decorators before it and nothing else around it.
This file finds that definition among the tokens and says what is wrong with a text of another
shape.
-/

set_option autoImplicit false

namespace FieldView

/-- What is wrong with the shape of a source text. -/
inductive ShapeFault
  /-- A second function definition. -/
  | multiple
  /-- A statement that is no function definition. -/
  | otherStatement
  | noFunction
  | malformed
deriving DecidableEq, Repr

/-- A source text that is not one function definition. -/
structure ShapeError where
  fault : ShapeFault
  filename : String
  span : Option Span
deriving DecidableEq, Repr

/-- The text of the error. -/
def ShapeError.message (e : ShapeError) : String :=
  "unsupported source: " ++
    match e.fault with
    | .multiple =>
      "sources with multiple function definitions are not yet supported (" ++ e.filename ++ ")"
    | .otherStatement =>
      "only a single function definition is supported at the top level of " ++ e.filename
    | .noFunction => "no function definition found in " ++ e.filename
    | .malformed => "malformed function definition in " ++ e.filename

namespace Scope

/-- A function definition: its name, what stands between its parentheses, and its body. -/
structure FunctionBlock where
  name : String
  params : List Token
  body : List Token

/-- Reads the definition after a `def`: the function, and how many tokens it has. The error is the
token at which the header goes wrong. -/
def FunctionBlock.read (ts : List Token) : Except (Option Token) (FunctionBlock × Nat) :=
  match ts with
  | [] => .error none
  | t :: ts =>
    match t.kind.ident?, ts with
    | none, _ => .error (some t)
    | some _, [] => .error none
    | some name, p :: rest =>
      if p.kind = .opening .paren then
        let close := closingAt rest
        match rest.drop close with
        | [] => .error (some p)
        | paren :: after =>
          let line := after.take (statementEnd after)
          let colon := colonAt line
          if colon < line.length then
            let tail := after.drop (colon + 1)
            let s := suite tail
            .ok ({ name, params := rest.take close, body := s.body tail },
              2 + close + 1 + (colon + 1) + s.next)
          else .error (some paren)
      else .error (some p)

/-- The one function among the top-level tokens, given one that was found already. -/
def findFunction (filename : String) (found : Option FunctionBlock) (ts : List Token) :
    Except ShapeError FunctionBlock :=
  match ts with
  | [] => answer
  | t :: ts =>
    match t.kind with
    | .newline => findFunction filename found ts
    | .eof => answer
    | .punct .atSign => findFunction filename found (ts.drop (statementEnd ts + 1))
    | .keyword .defKw =>
      match FunctionBlock.read ts with
      | .error culprit => fail .malformed culprit
      | .ok (block, size) =>
        match found with
        | some _ => fail .multiple (some t)
        | none => findFunction filename (some block) (ts.drop size)
    | .keyword .asyncKw =>
      if ts.head?.any (·.kind == .keyword .defKw) then findFunction filename found ts
      else fail .otherStatement (some t)
    | _ => fail .otherStatement (some t)
termination_by ts.length
decreasing_by all_goals (simp only [List.length_drop, List.length_cons]; omega)
where
  fail (fault : ShapeFault) (culprit : Option Token) : Except ShapeError FunctionBlock :=
    .error { fault, filename, span := culprit.map (·.span) }
  answer : Except ShapeError FunctionBlock :=
    match found with
    | some block => .ok block
    | none => fail .noFunction none

/-- The stars and the slash that can stand before a parameter's name, or in place of it. -/
def isParamMark (k : Kind) : Bool :=
  k == .punct .star || k == .punct .starStar || k == .punct .slash

/-- The names in a parameter list. -/
def paramNames (params : List Token) : List String :=
  (splitTop isComma params).filterMap fun param =>
    (param.find? (!isParamMark ·.kind)).bind (·.kind.ident?)

end Scope

end FieldView
