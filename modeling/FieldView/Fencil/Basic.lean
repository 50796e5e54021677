import FieldView.Text.Comma

/-!
# Fencils

What programs are lowered to: expressions over iterators, function definitions, and the fencil,
which applies stencils to whole domains. A fencil is closed: every function that it uses is among
its own definitions.
-/

set_option autoImplicit false

namespace FieldView

namespace Fencil

/-- Expressions over iterators. -/
inductive Expr
  | ref (id : String)
  | literal (value ty : String)
  | offset (value : String)
  | axis (value : String)
  | call (callee : Expr) (args : List Expr)
  | lambda (params : List String) (body : Expr)
deriving Repr

/-- A named function. -/
structure Definition where
  id : String
  params : List String
  body : Expr
deriving Repr

/-- A stencil applied over a domain, with the place its result goes to. -/
structure Closure where
  domain : Expr
  stencil : Expr
  output : Expr
  inputs : List Expr
deriving Repr

/-! ## Printed form -/

namespace Expr

mutual

/-- The printed form of an expression. -/
def render : Expr → String
  | ref id => id
  | literal value ty => value ++ ":" ++ ty
  | offset value => value ++ "ₒ"
  | axis value => value ++ "ₐ"
  | call callee args => callee.render ++ "(" ++ Text.commaList (renderAll args) ++ ")"
  | lambda params body => "λ(" ++ Text.commaList params ++ ") → " ++ body.render

/-- The printed forms of several expressions. -/
def renderAll : List Expr → List String
  | [] => []
  | e :: es => e.render :: renderAll es

end

theorem renderAll_eq_map (es : List Expr) : renderAll es = es.map render := by
  induction es with
  | nil => rfl
  | cons e es ih => simp [renderAll, ih]

end Expr

/-- `id = λ(params) → body;` -/
def Definition.render (d : Definition) : String :=
  d.id ++ " = λ(" ++ Text.commaList d.params ++ ") → " ++ d.body.render ++ ";"

/-- `output ← (stencil)(inputs) @ domain;` -/
def Closure.render (c : Closure) : String :=
  c.output.render ++ " ← (" ++ c.stencil.render ++ ")("
    ++ Text.commaList (c.inputs.map Expr.render) ++ ") @ " ++ c.domain.render ++ ";"

end Fencil

/-- A lowered program. -/
structure Fencil where
  id : String
  definitions : List Fencil.Definition
  params : List String
  closures : List Fencil.Closure
deriving Repr

namespace Fencil

/-- The last definition with an id, which hides the ones before it. -/
def definition? (f : Fencil) (id : String) : Option Definition :=
  f.definitions.reverse.find? (·.id == id)

/-- The definitions, one a line, and then the closures in braces. -/
def render (f : Fencil) : String :=
  String.join (f.definitions.map fun d => d.render ++ "\n")
    ++ f.id ++ "(" ++ Text.commaList f.params ++ ") \x7b\n"
    ++ String.join (f.closures.map fun c => "  " ++ c.render ++ "\n") ++ "\x7d"

end Fencil

end FieldView
