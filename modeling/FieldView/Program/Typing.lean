import FieldView.Program.Tree
import FieldView.Typing.Error

/-!
# Typing of programs

Every call must be of a function, with as many arguments as that takes, and must send its result to
`out` and use no other keyword. Arguments are not compared with parameters; the result is compared
with where it goes, unless one of the two types is not known yet. Parts are typed before the call is
looked at, so a fault inside an argument comes before a fault of the call.
-/

set_option autoImplicit false

namespace FieldView.Program

/-- What a call takes and gives back, checked against how it is called. -/
def callTy (callee : Deduced) (arity : Nat) (kwargs : List (String × Expr)) (loc : Location) :
    Typed Ty :=
  match callee with
  | some (.function args _ returns) =>
    if args.length ≠ arity then Typed.fail (.argumentCount args.length arity) loc
    else
      match kwargs.find? (·.1 != "out") with
      | some (name, _) => Typed.fail (.otherKeyword name) loc
      | none =>
        match kwargs.head? with
        | none => Typed.fail .missingOut loc
        | some (_, out) =>
          if Deduced.isComplete out.ty && !returns.isDeferred && out.ty != some returns then
            Typed.fail (.outMismatch out.name? returns out.ty) out.loc
          else .ok returns
  | ty => Typed.fail (.notAFunction ty) loc

namespace Expr

mutual

/-- The expression with its type and those of its parts. -/
def deduce (table : Table) : Expr → Typed Expr
  | name site id =>
    match table.typeOf? id with
    | some t => .ok (name (site.withTy (some t)) id)
    | none => Typed.fail (.undeclared id) site.loc
  | call site callee args kwargs => do
    let callee ← deduce table callee
    let args ← deduceAll table args
    let kwargs ← deduceNamed table kwargs
    let ty ← callTy callee.ty args.length kwargs site.loc
    return call (site.withTy (some ty)) callee args kwargs

/-- The expressions with their types, in order. -/
def deduceAll (table : Table) : List Expr → Typed (List Expr)
  | [] => .ok []
  | e :: es => do
    let e ← deduce table e
    let es ← deduceAll table es
    return e :: es

/-- The keyword arguments with their types, in order. -/
def deduceNamed (table : Table) : List (String × Expr) → Typed (List (String × Expr))
  | [] => .ok []
  | (key, e) :: es => do
    let e ← deduce table e
    let es ← deduceNamed table es
    return (key, e) :: es

end

end Expr

/-- The table of a program: its parameters, then its captured symbols. -/
def table (p : Program) : Table := Table.ofSymbols (p.params ++ p.captured)

/-- The program with a type for every expression of its body. -/
def deduce (p : Program) : Typed Program := do
  let body ← Expr.deduceAll p.table p.body
  return { p with body }

end FieldView.Program
