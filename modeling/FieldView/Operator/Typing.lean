import FieldView.Operator.Tree
import FieldView.Ty.Broadcast
import FieldView.Typing.Error

/-!
# Typing of field operators

Types are deduced bottom-up. One table serves the whole operator: it starts with all of its
declarations, and an assignment replaces the entry of its target by the type of the value. The first
thing without a type is the error.

Inside the arguments of a shift a subscript picks an offset, so there it has the type of what it is
taken of and needs no tuple.
-/

set_option autoImplicit false

namespace FieldView.Operator

/-! ## Rules for types -/

/-- The type of a binary operation: `none` when the operands do not fit, and unknown when one of
them is. -/
def binaryTy? (op : BinaryOp) (left right : Deduced) : Option Deduced :=
  if left.isNone || right.isNone then some none
  else
    let suits := if op.isArithmetic then Deduced.isArithmetic else Deduced.isLogical
    if suits left && suits right then Deduced.broadcast? left right else none

/-- The type of a comparison. Operands are compared as numbers, and what comes out has their form
and truth values for elements. -/
def compareTy? (left right : Deduced) : Option Deduced :=
  if !Deduced.isArithmetic left || !Deduced.isArithmetic right then none
  else if left.isNone || right.isNone then some none
  else if !Deduced.broadcastable left right then none
  else
    match Deduced.boolified? left, Deduced.boolified? right with
    | some l, some r => Deduced.broadcast? (some l) (some r)
    | _, _ => none

/-- Whether a unary operator suits an operand. -/
def unarySuits (op : UnaryOp) (operand : Deduced) : Bool :=
  match op with
  | .not => Deduced.isLogical operand
  | _ => Deduced.isArithmetic operand

/-- The element of a tuple. A negative index counts from the end. -/
def element? (types : List Ty) (index : Int) : Option Ty :=
  let place := if index < 0 then types.length + index else index
  if place < 0 then none else types[place.toNat]?

/-- The dimensions of a shifted field: each source is replaced in place by the targets. The error is
the first dimension of a field that has some but not the source. -/
def shiftDims (dims : Dims) (source : String) (target : List String) : Except String Dims :=
  match dims with
  | .any => .ok .any
  | .known [] => .ok (.known [])
  | .known (first :: rest) =>
    if (first :: rest).contains source then
      .ok (.known ((first :: rest).flatMap fun d => if d = source then target else [d]))
    else .error first

/-- The type of a tuple, unknown if one of its elements is. -/
def tupleTy (elements : List Expr) : Deduced := (elements.mapM Expr.ty).map .tuple

/-- The type of a field of the given form called with the arguments. -/
def shiftTy (callee : Expr) (dims : Dims) (dtype : ScalarTy) (args : List Expr) (loc : Location) :
    Typed Ty :=
  match args with
  | [arg] =>
    match arg.ty with
    | some (.offset source target) =>
      match shiftDims dims source target with
      | .ok shifted => .ok (.field shifted dtype)
      | .error first => Typed.fail (.noSourceDimension callee.name? source first) loc
    | ty => Typed.fail (.notAnOffset callee.name? ty) arg.loc
  | _ => Typed.fail (.offsetCount callee.name? args.length) loc

/-- The type of a subscript. -/
def subscriptTy (inShift : Bool) (value : Expr) (index : Int) : Typed Deduced :=
  if inShift then .ok value.ty
  else
    match value.ty with
    | some (.tuple types) =>
      match element? types index with
      | some t => .ok (some t)
      | none => Typed.fail (.tupleIndex index types.length) value.loc
    | _ => Typed.fail .notSubscriptable value.loc

/-! ## Expressions -/

namespace Expr

mutual

/-- The expression with its type and those of its parts. -/
def deduce (table : Table) (inShift : Bool) : Expr → Typed Expr
  | name site id =>
    match table.typeOf? id with
    | some t => .ok (name (site.withTy (some t)) id)
    | none => Typed.fail (.undeclared id) site.loc
  | const site value =>
    match site.ty with
    | some _ => .ok (const site value)
    | none => Typed.fail (.untypedLiteral value) site.loc
  | subscript site value index => do
    let value ← deduce table inShift value
    let ty ← subscriptTy inShift value index
    return subscript (site.withTy ty) value index
  | binary site op left right => do
    let left ← deduce table inShift left
    let right ← deduce table inShift right
    match binaryTy? op left.ty right.ty with
    | some ty => return binary (site.withTy ty) op left right
    | none => Typed.fail (.operands op.text left.ty right.ty) site.loc
  | compare site op left right => do
    let left ← deduce table inShift left
    let right ← deduce table inShift right
    match compareTy? left.ty right.ty with
    | some ty => return compare (site.withTy ty) op left right
    | none => Typed.fail (.operands op.text left.ty right.ty) site.loc
  | unary site op operand => do
    let operand ← deduce table inShift operand
    if unarySuits op operand.ty then return unary (site.withTy operand.ty) op operand
    else Typed.fail (.unaryOperand op.text operand.ty) site.loc
  | tuple site elements => do
    let elements ← deduceAll table inShift elements
    return tuple (site.withTy (tupleTy elements)) elements
  | call site callee args => do
    let callee ← deduce table inShift callee
    match callee.ty with
    | some (.field dims dtype) =>
      let args ← deduceAll table true args
      let ty ← shiftTy callee dims dtype args site.loc
      return call (site.withTy (some ty)) callee args
    | some (.function _ _ returns) =>
      let args ← deduceAll table inShift args
      return call (site.withTy (some returns)) callee args
    | ty => Typed.fail (.notCallable callee.name? ty) site.loc

/-- The expressions with their types, in order. -/
def deduceAll (table : Table) (inShift : Bool) : List Expr → Typed (List Expr)
  | [] => .ok []
  | e :: es => do
    let e ← deduce table inShift e
    let es ← deduceAll table inShift es
    return e :: es

end

end Expr

/-! ## Statements -/

/-- The target of an assignment with the type of its value, which must suit what the target was
declared as. -/
def refine (target : Symbol) (ty : Ty) : Typed Symbol :=
  if Deduced.canRefineTo target.ty (some ty) then .ok { target with ty := some ty }
  else Typed.fail (.inconsistent ty target.ty) target.loc

/-- The statement with its types, and the table after it. -/
def Stmt.deduce (table : Table) : Stmt → Typed (Stmt × Table)
  | assign target value loc => do
    let value ← if Deduced.isComplete value.ty then .ok value else value.deduce table false
    match value.ty with
    | none => return (assign target value loc, table)
    | some ty =>
      let target ← refine target ty
      return (assign target value loc, table.declare target.id target.ty)
  | ret value loc => do
    let value ← value.deduce table false
    return (ret value loc, table)
  | importSymbols symbols loc => .ok (importSymbols symbols loc, table)

/-- The statements with their types, each under the table that the ones before it leave. -/
def deduceBody (table : Table) : List Stmt → Typed (List Stmt)
  | [] => .ok []
  | s :: ss => do
    let (s, table) ← s.deduce table
    let ss ← deduceBody table ss
    return s :: ss

/-- The operator with a type for every expression of its body. -/
def deduce (op : Operator) : Typed Operator := do
  let body ← deduceBody (Table.ofSymbols op.declarations) op.body
  return { op with body }

end FieldView.Operator
