import FieldView.Capture.Environment
import FieldView.Operator.Tree

/-!
# Callables

What programs call: typed field operators with the environment they were captured in, and functions
that are declared first and learn their environment later. A callable never changes what it lowers
to or its signature.
-/

set_option autoImplicit false

namespace FieldView

/-- A typed field operator with what it closes over. -/
structure OperatorUnit where
  node : Operator
  captured : Environment
  /-- Definitions from outside the scope of the function. -/
  externals : NameMap Value := {}
  /-- The backend for direct calls. -/
  backend : Option String := none
  definition : Option SourceDefinition := none

namespace OperatorUnit

def name (u : OperatorUnit) : String := u.node.id

/-- The signature of the operator: what the annotations say, or else the types that are known, or
else a deferred type. -/
def signature (u : OperatorUnit) : Signature :=
  let annotations := u.captured.annotations
  { args := u.node.params.map fun p => (annotations[p.id]?.or p.ty).getD (.deferred none)
    returns := (annotations["return"]?.or u.node.returnTy).getD (.deferred none) }

end OperatorUnit

/-- A function that programs and operators can close over. -/
inductive Callable
  | operator (unit : OperatorUnit)
  /-- A function that is declared before its environment is known. -/
  | late (id : String) (signature : Option Signature) (captured : Option Environment)

namespace Callable

/-- What the function closes over, once that is known. -/
def captured : Callable → Option Environment
  | operator u => some u.captured
  | late _ _ captured => captured

/-- The signature, if there is one. -/
def signature : Callable → Option Signature
  | operator u => some u.signature
  | late _ signature _ => signature

/-- Gives a late function its environment; only the first one counts. The answer says whether it is
the first. -/
def bind (c : Callable) (e : Environment) : Callable × Bool :=
  match c with
  | late id signature none => (late id signature (some e), true)
  | c => (c, false)

end Callable

end FieldView
