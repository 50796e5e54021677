import FieldView.Capture.Builtin
import FieldView.Decimal.Shortest
import FieldView.Ty.Deduced

/-!
# Captured values

What a name outside a function can be bound to. A callable is known here by its identity and its
signature only; what it lowers to and what it captures itself is kept where the callables are.
-/

set_option autoImplicit false

namespace FieldView

/-- A single number or truth value. -/
inductive ScalarValue
  | bool (value : Bool)
  | int32 (value : Int)
  | int64 (value : Int)
  | float32 (value : Binary)
  | float64 (value : Binary)
deriving DecidableEq, Repr

namespace ScalarValue

def kind : ScalarValue → ScalarKind
  | bool _ => .bool
  | int32 _ => .int32
  | int64 _ => .int64
  | float32 _ => .float32
  | float64 _ => .float64

/-- The printed form of the value. -/
def render : ScalarValue → String
  | bool value => if value then "true" else "false"
  | int32 value => toString value
  | int64 value => toString value
  | float32 value => Binary.render .binary32 value
  | float64 value => Binary.render .binary64 value

end ScalarValue

/-- A reference to a callable: which one it is, and its signature, if that is known. -/
structure Handle where
  id : Nat
  signature : Option Signature := none

/-- A captured value. -/
inductive Value
  | callable (handle : Handle)
  | offset (name source : String) (target : List String)
  | dimension (name : String)
  | builtin (function : BuiltinFunction)
  /-- The name of a scalar type, as a function. -/
  | typeName (kind : ScalarKind)
  | scalar (value : ScalarValue)
  /-- Any other value of the host, with a description. -/
  | foreign (description : String)

namespace Value

/-- The value matters to types only; nothing is lowered for it. -/
def isTypeOnly : Value → Bool
  | offset _ _ _ => true
  | dimension _ => true
  | builtin _ => true
  | typeName _ => true
  | _ => false

/-- How messages name the value. -/
def describe : Value → String
  | callable _ => "gt callable"
  | offset name _ _ => "offset `" ++ name ++ "`"
  | dimension name => "dimension `" ++ name ++ "`"
  | builtin function => "builtin `" ++ function.name ++ "`"
  | typeName kind => "type `" ++ kind.name ++ "`"
  | scalar value => value.kind.name ++ " `" ++ value.render ++ "`"
  | foreign description => description

/-- The type of the value, if the language can say one. -/
def ty : Value → Deduced
  | callable handle =>
    match handle.signature with
    | some s => some s.toTy
    | none => some (.deferred (some .function))
  | offset _ source target => some (.offset source target)
  | dimension name => some (.dimension name)
  | builtin function => some function.signature.toTy
  | typeName kind => some (Builtin.constructorSignature kind).toTy
  | scalar value => some (.scalar { kind := value.kind })
  | foreign _ => none

end Value

end FieldView
