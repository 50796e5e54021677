import FieldView.Typing.Symbol

/-!
# Programs

The syntax tree of a program: a sequence of calls to field operators, each with the place its result
goes to in the keyword argument `out`.
-/

set_option autoImplicit false

namespace FieldView

namespace Program

/-- Expressions of a program. -/
inductive Expr
  | name (site : Site) (id : String)
  | call (site : Site) (callee : Expr) (args : List Expr) (kwargs : List (String × Expr))
deriving Repr

namespace Expr

/-- The type and the place of an expression. -/
def site : Expr → Site
  | name s _ => s
  | call s _ _ _ => s

def ty (e : Expr) : Deduced := e.site.ty

def loc (e : Expr) : Location := e.site.loc

/-- The name that an expression consists of. -/
def name? : Expr → Option String
  | name _ id => some id
  | call .. => none

end Expr

end Program

/-- A program. -/
structure Program where
  id : String
  params : List Symbol
  body : List Program.Expr
  captured : List Symbol
  loc : Location
deriving Repr

end FieldView
