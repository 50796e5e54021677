import FieldView.Capture.Environment
import FieldView.Typing.Error

/-!
# Errors

Everything that can go wrong between a host function and its execution. Each cause carries what its
message names; `Error.message` has the words.
-/

set_option autoImplicit false

namespace FieldView

/-- What is wrong with the values that a function closes over. -/
inductive ClosureError
  /-- A value that is neither a function nor of use to types. -/
  | unsupportedValue (name description : String)
  /-- A captured symbol whose type is not a function type. -/
  | unsupportedType (name : String) (ty : Deduced)
  | undefinedNames (names : List String)
  /-- Names with the type of a function and a value that cannot be called. -/
  | notCallable (names : List String)
  /-- A function that is captured under a name other than its own. -/
  | nameMismatch (captured definition : String)
  /-- An operator with a parameter of the name that its result would need. -/
  | reservedParameter (operator : String)
  /-- The names along a closed walk; the first and the last stand for the same function. -/
  | cyclic (names : List String)
deriving DecidableEq, Repr

/-- The text of the error. -/
def ClosureError.message : ClosureError → String
  | unsupportedValue name description =>
    "unsupported closure kind: only function closure vars are allowed, `" ++ name ++ "` is "
      ++ description
  | unsupportedType name ty =>
    "unsupported closure kind: only function closure vars are allowed, `" ++ name ++ "` has type "
      ++ Deduced.render ty
  | undefinedNames names => "reference to undefined symbol(s) `" ++ Text.commaList names ++ "`"
  | notCallable names =>
    "the following function(s) are not valid gt callables `" ++ Text.commaList names ++ "`"
  | nameMismatch captured definition =>
    "name of the closure reference `" ++ captured ++ "` and the function it holds (`" ++ definition
      ++ "`) do not match"
  | reservedParameter operator =>
    "direct call to field operator `" ++ operator
      ++ "` whose signature contains an argument `out` is not permitted"
  | cyclic names => "cyclic closure: " ++ " -> ".intercalate names

/-- Advice that comes with the error. -/
def ClosureError.help : ClosureError → Option String
  | reservedParameter _ => some "wrap the operator in a program and pass `out` explicitly"
  | _ => none

/-- What is wrong with the arguments of a call. -/
inductive CallError
  | argumentCount (function : String) (expected given : Nat)
  | keywords (names : List String)
  /-- A field with fewer extents than its type has dimensions. -/
  | shape (param : String) (expected given : Nat)
deriving DecidableEq, Repr

/-- The text of the error. -/
def CallError.message : CallError → String
  | argumentCount function expected given =>
    "function `" ++ function ++ "` takes " ++ toString expected ++ " arguments, but "
      ++ toString given ++ " were given"
  | keywords names =>
    "keyword arguments are not supported yet (got `" ++ Text.commaList names ++ "`)"
  | shape param expected given =>
    "argument `" ++ param ++ "` has " ++ toString given ++ " extents, but its type declares "
      ++ toString expected ++ " dimensions"

/-- Why there is no result. -/
inductive Error
  | capture (e : CaptureError)
  | typing (e : TypingError)
  | closure (e : ClosureError)
  | call (e : CallError)
  /-- The unit has external definitions. -/
  | externals
  /-- A stage of the toolchain failed. -/
  | stage (name message : String)
  /-- A reference to a callable that does not exist. -/
  | noCallable (name : String)
deriving DecidableEq, Repr

/-- The text of the error. -/
def Error.message : Error → String
  | capture (.unavailable fault) => fault.message
  | capture (.source e) => e.message
  | typing e => e.message
  | closure e => e.message
  | call e => e.message
  | externals => "not supported: externals are not supported yet"
  | stage name message => name ++ " failed: " ++ message
  | noCallable name => "`" ++ name ++ "` refers to no callable"

end FieldView
