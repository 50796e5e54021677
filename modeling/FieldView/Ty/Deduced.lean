import FieldView.Ty.Basic

/-!
# Deduced types

Type deduction works with types that may be missing: `none` says that nothing has been deduced yet,
and behaves like a deferred type without a constraint. This file holds the questions that deduction
asks of one such type, and when a symbol that was declared with one may take another.
-/

set_option autoImplicit false

namespace FieldView

/-- A type, if one has been deduced. -/
abbrev Deduced := Option Ty

namespace Deduced

/-- The type is there and not deferred. -/
def isComplete (d : Deduced) : Bool := d.any (!·.isDeferred)

/-- The kind of the type, or what a deferred type is constrained to. -/
def constraint? (d : Deduced) : Option Constraint := d.bind Constraint.of?

/-- Nothing is known of the type. -/
def isAny (d : Deduced) : Bool := !isComplete d && (constraint? d).isNone

/-- A field, or deferred and constrained to be one. -/
def isField (d : Deduced) : Bool := constraint? d == some .field

/-- A scalar, or deferred and constrained to be one. -/
def isScalar (d : Deduced) : Bool := constraint? d == some .scalar

/-- The element type of a scalar or a field. -/
def dtype? : Deduced → Option ScalarTy
  | some (.scalar s) => some s
  | some (.field _ s) => some s
  | _ => none

/-- The dimensions of a field. -/
def dims? : Deduced → Option Dims
  | some (.field dims _) => some dims
  | _ => none

/-- Whether the type may be one whose elements are of a suitable kind. -/
def elementsMay (suits : ScalarKind → Bool) (d : Deduced) : Bool :=
  isAny d || ((isField d || isScalar d) && (dtype? d).all fun s => suits s.kind)

/-- Whether arithmetic may be done with the type. -/
def isArithmetic (d : Deduced) : Bool := elementsMay ScalarKind.isNumeric d

/-- Whether the logical operators may be used on the type. -/
def isLogical (d : Deduced) : Bool := elementsMay (· == .bool) d

/-- Whether a symbol declared with the first type may take the second. Anything may take the place
of an unknown type; a complete one stays as it is; and a constrained one takes what its constraint
admits. -/
def canRefineTo (d e : Deduced) : Bool :=
  if isAny d then true
  else if isComplete d then d == e
  else
    match constraint? d with
    | none => false
    | some c =>
      match e with
      | some t => if isComplete e then c.admits t else (constraint? e).any c.admitsConstraint
      | none => false

/-- The type with its elements replaced by truth values. Only scalars and fields have one; a
deferred field becomes a field over any dimensions. -/
def boolified? (d : Deduced) : Deduced :=
  let dtype : ScalarTy := { kind := .bool, shape := (dtype? d).bind (·.shape) }
  match constraint? d with
  | some .field => some (.field ((dims? d).getD .any) dtype)
  | some .scalar => some (.scalar dtype)
  | _ => none

/-- The printed form, `None` for a missing type. -/
def render : Deduced → String
  | none => "None"
  | some t => t.render

end Deduced

end FieldView
