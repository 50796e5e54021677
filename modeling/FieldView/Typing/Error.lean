import FieldView.Typing.Symbol

/-!
# Typing errors

Why a type cannot be deduced, and where. Each cause carries what its message names.
-/

set_option autoImplicit false

namespace FieldView

/-- An expression as messages name it: a name in back quotes, anything else as `<expr>`. -/
def calleeText : Option String → String
  | some id => "`" ++ id ++ "`"
  | none => "<expr>"

/-- Why a type cannot be deduced. -/
inductive TypingFault
  /-- A name that no declaration gives a type. -/
  | undeclared (id : String)
  | untypedLiteral (value : String)
  /-- A subscript of something that is no tuple. -/
  | notSubscriptable
  | tupleIndex (index : Int) (size : Nat)
  | unaryOperand (op : String) (ty : Deduced)
  | operands (op : String) (left right : Deduced)
  /-- A field is called with something that is no offset. -/
  | notAnOffset (callee : Option String) (ty : Deduced)
  | offsetCount (callee : Option String) (count : Nat)
  /-- A field has no dimension that the offset could replace. -/
  | noSourceDimension (callee : Option String) (source first : String)
  | notCallable (callee : Option String) (ty : Deduced)
  /-- A value does not fit the declared type of its target. -/
  | inconsistent (deduced : Ty) (declared : Deduced)
  /-- A program calls something that is no function. -/
  | notAFunction (ty : Deduced)
  | argumentCount (expected given : Nat)
  | otherKeyword (name : String)
  | missingOut
  /-- The result of a call does not fit where it is to go; `target` is its name, if it has one. -/
  | outMismatch (target : Option String) (returns : Ty) (ty : Deduced)
deriving DecidableEq, Repr

/-- What is said about the cause. -/
def TypingFault.describe : TypingFault → String
  | undeclared id => "undeclared symbol `" ++ id ++ "`"
  | untypedLiteral value => "unrecognized literal type of constant `" ++ value ++ "`"
  | notSubscriptable => "could not deduce type of subscript expression"
  | tupleIndex index size =>
    "tuple index " ++ toString index ++ " out of range for a tuple of " ++ toString size
      ++ " elements"
  | unaryOperand op ty =>
    "incompatible type for unary operator '" ++ op ++ "': " ++ Deduced.render ty
  | operands op left right =>
    "incompatible type(s) for operator '" ++ op ++ "': " ++ Deduced.render left ++ ", "
      ++ Deduced.render right
  | notAnOffset callee ty =>
    "shift of " ++ calleeText callee ++ " expects an offset, got " ++ Deduced.render ty
  | offsetCount callee count =>
    "shift of " ++ calleeText callee ++ " takes exactly one offset argument, got " ++ toString count
  | noSourceDimension callee source first =>
    "incompatible offset at " ++ calleeText callee ++ ": can not shift from " ++ source ++ " to "
      ++ first
  | notCallable callee ty =>
    "expression " ++ calleeText callee ++ " of type " ++ Deduced.render ty ++ " is not callable"
  | inconsistent deduced declared =>
    "type inconsistency: expression was deduced to be of type " ++ deduced.render
      ++ ", instead of the expected type " ++ Deduced.render declared
  | notAFunction ty => "expression of type " ++ Deduced.render ty ++ " is not callable"
  | argumentCount expected given =>
    "function takes " ++ toString expected ++ " arguments, but " ++ toString given ++ " were given"
  | otherKeyword name => "only the `out` keyword argument is supported, got `" ++ name ++ "`"
  | missingOut => "missing required keyword argument `out`"
  | outMismatch target returns ty =>
    let what := match target with
      | some id => "`" ++ id ++ "`"
      | none => "the `out` argument"
    "expected " ++ what ++ " to have type " ++ returns.render ++ ", but got " ++ Deduced.render ty

/-- A cause and the place it was found at. -/
structure TypingError where
  fault : TypingFault
  loc : Location
deriving DecidableEq, Repr

namespace TypingError

/-- The text of the error. -/
def message (e : TypingError) : String :=
  "could not deduce type: " ++ e.fault.describe ++ " (at " ++ e.loc.render ++ ")"

/-- The bytes of the place, where they are known. -/
def span (e : TypingError) : Option Span := e.loc.span

end TypingError

/-- Results that may fail to have a type. -/
abbrev Typed := Except TypingError

/-- Fails for a cause at a place. -/
def Typed.fail {α : Type} (fault : TypingFault) (loc : Location) : Typed α :=
  .error { fault, loc }

end FieldView
