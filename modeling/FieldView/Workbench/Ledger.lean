import FieldView.Toolchain.Calling

/-!
# A toolchain that keeps a ledger

A small toolchain for trying units out. It reads no text: the syntax tree is given beforehand. An
operator lowers to its first parameter's value, a program to one closure for each plain call, and an
execution is only written down. The ledger counts the lowerings and can be told what to refuse.
-/

set_option autoImplicit false

namespace FieldView

/-- An execution that was written down. -/
structure Execution where
  fencil : Fencil
  invocation : Invocation
  offsets : OffsetProvider
  backend : String

/-- What was asked of the toolchain, and what it refuses. -/
structure Ledger where
  /-- How many operators were to be lowered, refused ones included. -/
  operators : Nat := 0
  /-- How many programs were to be lowered, refused ones included. -/
  programs : Nat := 0
  /-- Operators and programs that are not lowered. -/
  refusedIds : List String := []
  /-- Backends that run nothing. -/
  refusedBackends : List String := []
  executions : List Execution := []

namespace Ledger

/-- The refusal of a stage. -/
def refusal (stage what : String) : Error := .stage stage ("refused `" ++ what ++ "`")

/-- Says what is to be refused from now on. -/
def refuse (ids backends : List String) : Stage Ledger Unit :=
  modify fun l => { l with refusedIds := ids, refusedBackends := backends }

/-! ## Reading -/

/-- Gives the syntax tree of an operator, with its environment declared. -/
def readOperator (node : Option Operator) : SourceReader Ledger Operator :=
  fun definition captured _ =>
    match node with
    | none => throw (refusal "parsing" definition.filename)
    | some op => return { op with captured := op.captured ++ captured.symbols op.loc }

/-- Gives the syntax tree of a program, with all values of its environment declared. -/
def readProgram (node : Option Program) : SourceReader Ledger Program :=
  fun definition captured _ =>
    match node with
    | none => throw (refusal "parsing" definition.filename)
    | some p =>
      let declared := captured.all.toList.map fun (id, value) =>
        ({ id, ty := value.ty, space := .closure, loc := p.loc } : Symbol)
      return { p with captured := p.captured ++ declared }

/-! ## Lowering -/

/-- What an operator lowers to: the value at its first argument, or zero. -/
def operatorDefinition (op : Operator) : Fencil.Definition :=
  let params := op.params.map (·.id)
  { id := op.id
    params
    body :=
      match params with
      | [] => .literal "0" "int64"
      | first :: _ => .call (.ref "deref") [.ref first] }

/-- The closure of a statement: of a call of a name whose first `out` is a name. -/
def closure? : Program.Expr → Option Fencil.Closure
  | .call _ (.name _ callee) args kwargs =>
    match (kwargs.lookup "out").bind Program.Expr.name? with
    | none => none
    | some out =>
      some { domain := .call (.ref "domain") []
             stencil := .ref callee
             output := .ref out
             inputs := (args.filterMap Program.Expr.name?).map .ref }
  | _ => none

/-- What a program lowers to, with the definitions it is given. -/
def programFencil (p : Program) (definitions : List Fencil.Definition) : Fencil :=
  { id := p.id
    definitions
    params := p.params.map (·.id)
    closures := p.body.filterMap closure? }

/-- The toolchain with a configuration. -/
def toolchain (config : Config) : Toolchain Ledger where
  config
  lowerOperator op := do
    modify fun l => { l with operators := l.operators + 1 }
    if (← get).refusedIds.contains op.id then throw (refusal "lowering" op.id)
    return operatorDefinition op
  lowerProgram p definitions := do
    modify fun l => { l with programs := l.programs + 1 }
    if (← get).refusedIds.contains p.id then throw (refusal "lowering" p.id)
    return programFencil p definitions
  execute fencil invocation offsets backend := do
    if (← get).refusedBackends.contains backend then throw (refusal "execution" backend)
    let run : Execution := { fencil, invocation, offsets, backend }
    modify fun l => { l with executions := l.executions ++ [run] }

end Ledger

end FieldView
