import FieldView.Callable.Wrapper
import FieldView.Operator.Typing
import FieldView.Toolchain.Basic

/-!
# Units

How operators and programs come to be: from host functions, from syntax trees, and from each other.
A unit is a value that does not change; a program refers to the place on the bench that its fencil
is kept at, so that copies of it share the fencil.
-/

set_option autoImplicit false

namespace FieldView

variable {σ : Type}

/-- A program with what it closes over. -/
structure ProgramUnit where
  node : Program
  captured : Environment
  /-- Definitions from outside the scope of the function. -/
  externals : NameMap Value := {}
  backend : Option String := none
  definition : Option SourceDefinition := none
  /-- The number of its fencil on the bench. -/
  fencil : Nat

def ProgramUnit.name (u : ProgramUnit) : String := u.node.id

/-! ## From host functions -/

/-- The source text of a host function and what it closes over. -/
def HostFunction.captured (f : HostFunction) : Stage σ (SourceDefinition × Environment) :=
  match f.capture with
  | .error e => throw (.capture e)
  | .ok found => return found

/-- The result of typing, for a stage. -/
def Typed.settle {α : Type} (t : Typed α) : Stage σ α :=
  match t with
  | .error e => throw (.typing e)
  | .ok a => return a

/-- The operator that a host function defines. -/
def OperatorUnit.ofHost (read : SourceReader σ Operator) (f : HostFunction)
    (externals : NameMap Value) (backend : Option String) : Stage σ OperatorUnit := do
  let (definition, captured) ← f.captured
  let parsed ← read definition captured externals
  let node ← Typed.settle parsed.deduce
  return { node, captured, externals, backend, definition := some definition }

/-- The program that a host function defines. -/
def ProgramUnit.ofHost (read : SourceReader σ Program) (f : HostFunction)
    (externals : NameMap Value) (backend : Option String) : Task σ ProgramUnit := do
  let (definition, captured) ← Task.consult f.captured
  let parsed ← Task.consult (read definition captured externals)
  let node ← Task.consult (Typed.settle parsed.deduce)
  return { node, captured, externals, backend, definition := some definition,
           fencil := ← Task.addFencil }

/-! ## From each other -/

/-- The same operator with another backend. -/
def OperatorUnit.withBackend (u : OperatorUnit) (backend : String) : OperatorUnit :=
  { u with backend := some backend }

/-- The same program with another backend. It is lowered anew. -/
def ProgramUnit.withBackend (u : ProgramUnit) (backend : String) : Task σ ProgramUnit := do
  return { u with backend := some backend, fencil := ← Task.addFencil }

/-- The program around an operator. It closes over a copy of the operator, which is a callable of
its own. -/
def OperatorUnit.asProgram (u : OperatorUnit) : Task σ ProgramUnit := do
  let node ← Task.ofExcept u.wrapper
  let id ← Task.addCallable (.operator u)
  return { node, captured := u.wrapperEnvironment id, externals := u.externals,
           backend := u.backend, fencil := ← Task.addFencil }

end FieldView
