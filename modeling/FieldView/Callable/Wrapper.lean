import FieldView.Callable.Unit
import FieldView.Error
import FieldView.Program.Typing
import FieldView.Text.Fresh

/-!
# Programs around operators

An operator is called directly by way of a program with a single statement, `op(__sym_0, ..,
out=out)`. The generated parameters differ from every name in play.
-/

set_option autoImplicit false

namespace FieldView.OperatorUnit

/-- The name of the parameter that takes the result. -/
def resultName : String := "out"

/-- The names that generated parameters stay clear of. -/
def takenNames (u : OperatorUnit) : List String := u.name :: resultName :: u.captured.all.keys

/-- The names of the generated parameters, one for each parameter of the operator. -/
def wrapperNames (u : OperatorUnit) : List String :=
  (({ stem := "__sym" } : Text.NameSupply).freshMany u.takenNames u.signature.args.length).1

/-- The program around an operator, before types are deduced. -/
def untypedWrapper (u : OperatorUnit) : Program :=
  let loc := u.node.loc
  let ty := u.signature
  let names := u.wrapperNames
  let param (id : String) (ty : Ty) : Symbol := { id, ty := some ty, space := .local, loc }
  let ref (id : String) : Program.Expr := .name { loc } id
  { id := "__field_operator_" ++ u.name
    params := (names.zip ty.args).map (fun (id, t) => param id t) ++ [param resultName ty.returns]
    body := [.call { loc } (ref u.name) (names.map ref) [(resultName, ref resultName)]]
    captured := [{ id := u.name, ty := some ty.toTy, space := .closure, loc }]
    loc }

/-- The program around an operator. -/
def wrapper (u : OperatorUnit) : Except Error Program :=
  if u.node.params.any (·.id == resultName) then .error (.closure (.reservedParameter u.name))
  else
    match u.untypedWrapper.deduce with
    | .error e => .error (.typing e)
    | .ok p => .ok p

/-- What the program around an operator closes over: what the operator does, and the operator itself
under its own name. -/
def wrapperEnvironment (u : OperatorUnit) (id : Nat) : Environment :=
  u.captured.withGlobal u.name (.callable { id, signature := some u.signature })

end FieldView.OperatorUnit
