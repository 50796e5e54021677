import FieldView.Toolchain.Lowering

/-!
# Calling

A call of a program checks its arguments, lowers the program and runs its fencil. Nothing is lowered
or run when the arguments are wrong. An operator is called by way of the program around it.
-/

set_option autoImplicit false

namespace FieldView

variable {σ : Type}

/-- What a call that succeeded says. -/
structure CallReport where
  backend : String
  warnings : List String
deriving DecidableEq, Repr

/-- The backend for a program, and the warning that comes with the default one. -/
def Config.report (c : Config) (backend : Option String) (program : String) : CallReport :=
  match backend with
  | some backend => { backend, warnings := [] }
  | none =>
    { backend := c.defaultBackend
      warnings :=
        if c.warnOnDefaultBackend then
          ["field view program `" ++ program ++ "`: using default (" ++ c.defaultBackend
            ++ ") backend"]
        else [] }

/-- Matches arguments with parameters, as part of a task. -/
def ProgramUnit.invocation (u : ProgramUnit) (args : List Argument) (kwargs : NameMap Argument) :
    Except Error Invocation :=
  match u.node.invocation args kwargs with
  | .error e => .error (.call e)
  | .ok i => .ok i

/-- Calls a program. -/
def ProgramUnit.call (t : Toolchain σ) (u : ProgramUnit) (args : List Argument)
    (kwargs : NameMap Argument) (offsets : OffsetProvider) : Task σ CallReport := do
  let invocation ← Task.ofExcept (u.invocation args kwargs)
  let fencil ← u.lower t
  let report := t.config.report u.backend fencil.id
  Task.consult (t.execute fencil invocation offsets report.backend)
  return report

/-- Calls an operator, with the place for its result. -/
def OperatorUnit.call (t : Toolchain σ) (u : OperatorUnit) (args : List Argument) (out : Argument)
    (offsets : OffsetProvider) : Task σ CallReport := do
  let program ← u.asProgram
  program.call t (args ++ [out]) {} offsets

end FieldView
