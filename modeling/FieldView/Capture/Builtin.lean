import FieldView.Ty.Basic

/-!
# Builtin names

The names that the field language provides without an import: the names of types, which are also
functions that make a scalar of their kind, and a few functions on fields.
-/

set_option autoImplicit false

namespace FieldView

/-- The builtin functions. -/
inductive BuiltinFunction
  | neighborSum | maxOver | minOver | broadcast | select
deriving DecidableEq, Repr

namespace BuiltinFunction

/-- The builtin functions in the order in which they are listed. -/
def all : List BuiltinFunction := [neighborSum, maxOver, minOver, broadcast, select]

def name : BuiltinFunction → String
  | neighborSum => "neighbor_sum"
  | maxOver => "max_over"
  | minOver => "min_over"
  | broadcast => "broadcast"
  | select => "where"

/-- The builtin function with a name. -/
def ofName? (name : String) : Option BuiltinFunction := all.find? (·.name == name)

/-- What is known of the arguments and the result. -/
def signature : BuiltinFunction → Signature
  | broadcast => { args := [kind .data, kind .tuple], returns := kind .field }
  | select => { args := [kind .field, kind .data, kind .data], returns := kind .data }
  | _ => { args := [kind .field], kwargs := [("axis", kind .dimension)], returns := kind .field }
where
  kind (c : Constraint) : Ty := .deferred (some c)

end BuiltinFunction

namespace Builtin

/-- The names of types. -/
def typeNames : List String :=
  ["bool", "int", "int32", "int64", "float", "float32", "float64", "tuple"]

/-- The names of the declarations of the language. -/
def declarationNames : List String := ["Field", "Dimension", "FieldOffset"]

/-- Whether a name is provided. -/
def isName (name : String) : Bool :=
  typeNames.contains name || (BuiltinFunction.ofName? name).isSome || declarationNames.contains name

/-- The kind of scalar that a type name makes. -/
def scalarKind? : String → Option ScalarKind
  | "bool" => some .bool
  | "int32" => some .int32
  | "int" => some .int64
  | "int64" => some .int64
  | "float32" => some .float32
  | "float" => some .float64
  | "float64" => some .float64
  | _ => none

/-- A type name as a function: it makes a scalar of a scalar. -/
def constructorSignature (kind : ScalarKind) : Signature :=
  { args := [.deferred (some .scalar)], returns := .scalar { kind } }

end Builtin

end FieldView
