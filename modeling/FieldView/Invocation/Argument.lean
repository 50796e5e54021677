import FieldView.Error
import FieldView.Program.Tree

/-!
# Arguments

What programs are called with, and how the arguments of a call are matched with the parameters: one
by one and in order. A scalar for a scalar parameter becomes a constant field. Every parameter that
is a field adds its extents to the sizes that the execution gets.
-/

set_option autoImplicit false

namespace FieldView

/-- An argument of a call. -/
inductive Argument
  | scalar (value : ScalarValue)
  /-- A field; it has no shape as long as it has no storage. -/
  | field (dtype : ScalarKind) (shape : Option (List Nat))
  /-- The same value at every point. -/
  | constant (value : ScalarValue) (dtype : ScalarKind)
deriving DecidableEq, Repr

/-- What an offset leads to when a program is run. -/
inductive OffsetTarget
  /-- A step along an axis. -/
  | axis (dimension : String)
  /-- A table of neighbours. -/
  | connectivity (origin neighbor : String) (maxNeighbors : Nat)
deriving DecidableEq, Repr

/-- Offsets by name. -/
abbrev OffsetProvider := NameMap OffsetTarget

/-- The arguments and the sizes that an execution gets. -/
structure Invocation where
  args : List Argument
  sizes : List (Option Nat)
deriving DecidableEq, Repr

namespace Symbol

/-- The argument that a parameter hands on. -/
def adapt (param : Symbol) (arg : Argument) : Argument :=
  match param.ty, arg with
  | some (.scalar s), .scalar value => .constant value s.kind
  | _, arg => arg

/-- The sizes that a parameter adds. A field without storage and an argument that is no field have
an unknown size; of a field with known dimensions only these count. -/
def sizes (param : Symbol) (arg : Argument) : Except CallError (List (Option Nat)) :=
  match param.ty with
  | some (.field dims _) =>
    match arg, dims with
    | .field _ (some shape), .any => .ok (shape.map some)
    | .field _ (some shape), .known names =>
      if shape.length < names.length then .error (.shape param.id names.length shape.length)
      else .ok ((shape.take names.length).map some)
    | _, _ => .ok [none]
  | _ => .ok []

end Symbol

namespace Program

/-- The sizes that all parameters add, in order. -/
def sizesOf : List (Symbol × Argument) → Except CallError (List (Option Nat))
  | [] => .ok []
  | (param, arg) :: rest =>
    match param.sizes arg with
    | .error e => .error e
    | .ok sizes =>
      match sizesOf rest with
      | .error e => .error e
      | .ok more => .ok (sizes ++ more)

/-- Matches the arguments of a call with the parameters. Only positional arguments are taken. -/
def invocation (p : Program) (args : List Argument) (kwargs : NameMap Argument) :
    Except CallError Invocation :=
  if args.length ≠ p.params.length then
    .error (.argumentCount p.id p.params.length args.length)
  else if !kwargs.isEmpty then .error (.keywords kwargs.keys)
  else
    let pairs := p.params.zip args
    match sizesOf pairs with
    | .error e => .error e
    | .ok sizes => .ok { args := pairs.map fun (param, arg) => param.adapt arg, sizes }

end Program

end FieldView
