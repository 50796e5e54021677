import FieldView.Callable.Unit
import FieldView.Config.Basic
import FieldView.Error
import FieldView.Fencil.Basic
import FieldView.Invocation.Argument

/-!
# Toolchains

The library does not parse, lower or execute by itself; a toolchain does. Its stages may fail, and
they may keep a state of their own, of which nothing is known here. All units of one toolchain share
a bench, which holds the callables by identity and the fencils that have been computed.
-/

set_option autoImplicit false

namespace FieldView

/-- The answer of a stage, which may fail and may change the state of the toolchain. -/
abbrev Stage (σ : Type) := ExceptT Error (StateM σ)

/-- The stages of a toolchain whose state is a `σ`. -/
structure Toolchain (σ : Type) where
  config : Config := {}
  lowerOperator : Operator → Stage σ Fencil.Definition
  /-- Lowers a program, given the definitions of the functions it uses. -/
  lowerProgram : Program → List Fencil.Definition → Stage σ Fencil
  /-- Runs a fencil on a backend. -/
  execute : Fencil → Invocation → OffsetProvider → String → Stage σ Unit

/-- Reads the syntax tree of a function from its source text, with what it closes over and what is
defined for it from outside. -/
abbrev SourceReader (σ α : Type) := SourceDefinition → Environment → NameMap Value → Stage σ α

/-- The callables and the computed fencils, each by number, and the state of the toolchain. -/
structure Bench (σ : Type) where
  callables : List Callable := []
  fencils : List (Option Fencil) := []
  tools : σ

/-- Work on a bench, which may fail. What was done before a failure stays done. -/
abbrev Task (σ : Type) := ExceptT Error (StateM (Bench σ))

namespace Task

variable {σ α : Type}

/-- Has a stage do its work. Only the state of the toolchain can change. -/
def consult (stage : Stage σ α) : Task σ α := fun b =>
  let (answer, tools) := stage b.tools
  (answer, { b with tools })

/-- A result that needs no bench. -/
def ofExcept (result : Except Error α) : Task σ α := fun b => (result, b)

/-- The callables on the bench. -/
def callables : Task σ (List Callable) := fun b => (.ok b.callables, b)

/-- Puts a callable on the bench and gives its identity. -/
def addCallable (c : Callable) : Task σ Nat := fun b =>
  (.ok b.callables.length, { b with callables := b.callables ++ [c] })

/-- Gives a late function its environment, and says whether it is the first one. -/
def bindLate (id : Nat) (e : Environment) : Task σ Bool := fun b =>
  match b.callables[id]? with
  | none => (.ok false, b)
  | some c =>
    let (c, first) := c.bind e
    (.ok first, { b with callables := b.callables.set id c })

/-- Makes room for one more fencil. -/
def addFencil : Task σ Nat := fun b =>
  (.ok b.fencils.length, { b with fencils := b.fencils ++ [none] })

/-- The fencil that has been computed under a number. -/
def fencil? (n : Nat) : Task σ (Option Fencil) := fun b => (.ok b.fencils[n]?.join, b)

/-- Keeps a fencil under a number. -/
def keepFencil (n : Nat) (f : Fencil) : Task σ Unit := fun b =>
  (.ok (), { b with fencils := b.fencils.set n (some f) })

end Task

end FieldView
