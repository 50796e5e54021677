import FieldView.Typing.Symbol

/-!
# Field operators

The syntax tree of a field operator: a function on fields whose body assigns to names and returns a
value. Every expression carries its place and the type deduced for it so far.
-/

set_option autoImplicit false

namespace FieldView

/-- Binary operators. -/
inductive BinaryOp
  | add | sub | mult | div | bitAnd | bitOr
deriving DecidableEq, Repr

namespace BinaryOp

def text : BinaryOp → String
  | add => "+"
  | sub => "-"
  | mult => "*"
  | div => "/"
  | bitAnd => "&"
  | bitOr => "|"

/-- The operators of arithmetic; the others are logical. -/
def isArithmetic : BinaryOp → Bool
  | bitAnd => false
  | bitOr => false
  | _ => true

end BinaryOp

/-- Comparisons. -/
inductive CompareOp
  | eq | notEq | lt | le | gt | ge
deriving DecidableEq, Repr

def CompareOp.text : CompareOp → String
  | eq => "=="
  | notEq => "!="
  | lt => "<"
  | le => "<="
  | gt => ">"
  | ge => ">="

/-- Unary operators. -/
inductive UnaryOp
  | plus | minus | not
deriving DecidableEq, Repr

def UnaryOp.text : UnaryOp → String
  | plus => "+"
  | minus => "-"
  | not => "not"

namespace Operator

/-- Expressions of a field operator. -/
inductive Expr
  | name (site : Site) (id : String)
  /-- A literal with its text. Whoever writes the literal knows its type. -/
  | const (site : Site) (value : String)
  /-- An element of a tuple, or an offset inside a shift. -/
  | subscript (site : Site) (value : Expr) (index : Int)
  | binary (site : Site) (op : BinaryOp) (left right : Expr)
  | compare (site : Site) (op : CompareOp) (left right : Expr)
  | unary (site : Site) (op : UnaryOp) (operand : Expr)
  | tuple (site : Site) (elements : List Expr)
  /-- A call of a function, or a shift of a field. -/
  | call (site : Site) (callee : Expr) (args : List Expr)
deriving Repr

namespace Expr

/-- The type and the place of an expression. -/
def site : Expr → Site
  | name s _ => s
  | const s _ => s
  | subscript s _ _ => s
  | binary s _ _ _ => s
  | compare s _ _ _ => s
  | unary s _ _ => s
  | tuple s _ => s
  | call s _ _ => s

def ty (e : Expr) : Deduced := e.site.ty

def loc (e : Expr) : Location := e.site.loc

/-- The name that an expression consists of. -/
def name? : Expr → Option String
  | name _ id => some id
  | _ => none

end Expr

/-- Statements of a field operator. -/
inductive Stmt
  | assign (target : Symbol) (value : Expr) (loc : Location)
  | ret (value : Expr) (loc : Location)
  /-- Names that come from elsewhere. -/
  | importSymbols (symbols : List Symbol) (loc : Location)
deriving Repr

namespace Stmt

/-- The symbols that a statement declares. -/
def declares : Stmt → List Symbol
  | assign target _ _ => [target]
  | ret _ _ => []
  | importSymbols symbols _ => symbols

/-- The type of a returned value. -/
def returnTy : Stmt → Deduced
  | ret value _ => value.ty
  | _ => none

end Stmt

end Operator

/-- A field operator. -/
structure Operator where
  id : String
  params : List Symbol
  body : List Operator.Stmt
  captured : List Symbol
  loc : Location
deriving Repr

namespace Operator

/-- Every symbol that the operator declares: parameters, captured symbols, then the body's in order.
-/
def declarations (op : Operator) : List Symbol :=
  op.params ++ op.captured ++ op.body.flatMap Stmt.declares

/-- The type of the last returned value that has one. -/
def returnTy (op : Operator) : Deduced := op.body.reverse.findSome? Stmt.returnTy

end Operator

end FieldView
