import FieldView.Workbench.Ledger

/-!
# Sessions

A session holds units under names and carries out commands on them, one after another, with a
toolchain that keeps a ledger. A command that fails names no unit; what it did to the bench stays. A
name can be given again: callables that were captured before are not affected.
-/

set_option autoImplicit false

namespace FieldView

/-- A unit with a name in a session. Operators and late functions are known by their identity too.
-/
inductive NamedUnit
  | operator (id : Nat) (unit : OperatorUnit)
  | program (unit : ProgramUnit)
  | late (id : Nat)

/-- The units of a session and the bench they share. -/
structure Session where
  config : Config := {}
  bench : Bench Ledger := { tools := {} }
  units : NameMap NamedUnit := {}

/-- What a session can be told to do. -/
inductive Command
  /-- Defines an operator by a host function. -/
  | captureOperator (name : String) (host : HostFunction) (node : Option Operator)
      (externals : NameMap Value) (backend : Option String)
  /-- Defines a program by a host function. -/
  | captureProgram (name : String) (host : HostFunction) (node : Option Program)
      (externals : NameMap Value) (backend : Option String)
  /-- Defines an operator by its syntax tree, whose types are deduced first or taken as they are. -/
  | makeOperator (name : String) (node : Operator) (captured : Environment) (deduce : Bool)
  /-- Defines a program by its syntax tree. -/
  | makeProgram (name : String) (node : Program) (captured : Environment)
      (externals : NameMap Value) (backend : Option String) (deduce : Bool)
  /-- Declares a late function. -/
  | declare (name id : String) (signature : Option Signature)
  /-- Gives a late function its environment. -/
  | bind (unit : String) (captured : Environment)
  | withBackend (unit name backend : String)
  | clone (unit name : String)
  /-- Defines the program around an operator. -/
  | wrap (unit name : String)
  /-- Lowers a unit; of a program, the definitions of some names are asked for. -/
  | lower (unit : String) (names : List String)
  | callProgram (unit : String) (args : List Argument) (kwargs : NameMap Argument)
      (offsets : OffsetProvider)
  | callOperator (unit : String) (args : List Argument) (out : Argument) (offsets : OffsetProvider)
  /-- Shows a unit. -/
  | inspect (unit : String)
  /-- Says what is to be refused from now on. -/
  | refuse (ids backends : List String)

/-- What a unit looks like. -/
inductive Portrait
  | operator (unit : OperatorUnit)
  | program (unit : ProgramUnit)
  | late (signature : Option Signature) (captured : Option Environment)

/-- What a command gives back. -/
inductive Reply
  | portrait (p : Portrait)
  /-- Whether the environment was set. -/
  | bound (first : Bool)
  | definition (d : Fencil.Definition)
  /-- A fencil, and the definitions that were asked for. -/
  | fencil (f : Fencil) (found : List (String × Option Fencil.Definition))
  | report (r : CallReport)
  | done

/-- Why a command has no reply. -/
inductive CommandError
  | failed (e : Error)
  /-- There is no unit of that name, or not one that the command is for. -/
  | misdirected (unit : String)

/-- The outcome of a command, with what the ledger shows after it. -/
structure Outcome where
  reply : Except CommandError Reply
  /-- How many operators have been lowered so far. -/
  operators : Nat
  /-- How many programs have been lowered so far. -/
  programs : Nat
  /-- What this command has executed. -/
  executions : List Execution

/-- Part of a command. -/
abbrev Act := ExceptT CommandError (StateM Session)

namespace Session

/-- The callable that a name stands for. -/
def handle? (s : Session) (name : String) : Option Handle :=
  match s.units[name]? with
  | some (.operator id u) => some { id, signature := some u.signature }
  | some (.late id) => some { id, signature := s.bench.callables[id]?.bind Callable.signature }
  | _ => none

/-- Does work on the bench. -/
def perform {α : Type} (task : Task Ledger α) : Act α := fun s =>
  match task s.bench with
  | (.ok a, bench) => (.ok a, { s with bench })
  | (.error e, bench) => (.error (.failed e), { s with bench })

/-- The toolchain of the session. -/
def tools : Act (Toolchain Ledger) := fun s => (.ok (Ledger.toolchain s.config), s)

/-- What a unit looks like at present. -/
def portrait (u : NamedUnit) : Act Portrait := do
  match u with
  | .operator _ u => return .operator u
  | .program u => return .program u
  | .late id =>
    let c := (← get).bench.callables[id]?
    return .late (c.bind Callable.signature) (c.bind Callable.captured)

/-- Gives a unit a name, and shows it. -/
def define (name : String) (u : NamedUnit) : Act Reply := do
  modify fun s => { s with units := s.units.insert name u }
  return .portrait (← portrait u)

/-- Puts an operator on the bench. -/
def placed (u : OperatorUnit) : Act NamedUnit := do
  return .operator (← perform (Task.addCallable (.operator u))) u

/-- The unit of a name. -/
def find (name : String) : Act NamedUnit := do
  match (← get).units[name]? with
  | some u => return u
  | none => throw (.misdirected name)

/-- Carries out a command. -/
def execute : Command → Act Reply
  | .captureOperator name host node externals backend => do
    let stage := OperatorUnit.ofHost (Ledger.readOperator node) host externals backend
    define name (← placed (← perform (Task.consult stage)))
  | .captureProgram name host node externals backend => do
    let task := ProgramUnit.ofHost (Ledger.readProgram node) host externals backend
    define name (.program (← perform task))
  | .makeOperator name node captured deduce => do
    let node ← if deduce then perform (Task.consult (Typed.settle node.deduce)) else pure node
    define name (← placed { node, captured })
  | .makeProgram name node captured externals backend deduce => do
    let node ← if deduce then perform (Task.consult (Typed.settle node.deduce)) else pure node
    let fencil ← perform Task.addFencil
    define name (.program { node, captured, externals, backend, fencil })
  | .declare name id signature => do
    define name (.late (← perform (Task.addCallable (.late id signature none))))
  | .bind unit captured => do
    match ← find unit with
    | .late id => return .bound (← perform (Task.bindLate id captured))
    | _ => throw (.misdirected unit)
  | .withBackend unit name backend => do
    match ← find unit with
    | .operator _ u => define name (← placed (u.withBackend backend))
    | .program u => define name (.program (← perform (u.withBackend backend)))
    | .late _ => throw (.misdirected unit)
  | .clone unit name => do
    match ← find unit with
    | .operator _ u => define name (← placed u)
    | u => define name u
  | .wrap unit name => do
    match ← find unit with
    | .operator _ u => define name (.program (← perform u.asProgram))
    | _ => throw (.misdirected unit)
  | .lower unit names => do
    let t ← tools
    match ← find unit with
    | .operator _ u =>
      return .definition (← perform (Task.consult ((Callable.operator u).lower t)))
    | .late id =>
      match (← get).bench.callables[id]? with
      | none => throw (.misdirected unit)
      | some c => return .definition (← perform (Task.consult (c.lower t)))
    | .program u =>
      let f ← perform (u.lower t)
      return .fencil f (names.map fun name => (name, f.definition? name))
  | .callProgram unit args kwargs offsets => do
    match ← find unit with
    | .program u => return .report (← perform (u.call (← tools) args kwargs offsets))
    | _ => throw (.misdirected unit)
  | .callOperator unit args out offsets => do
    match ← find unit with
    | .operator _ u => return .report (← perform (u.call (← tools) args out offsets))
    | _ => throw (.misdirected unit)
  | .inspect unit => do return .portrait (← portrait (← find unit))
  | .refuse ids backends => do
    perform (Task.consult (Ledger.refuse ids backends))
    return .done

/-- Carries out a command, and tells what the ledger shows of it. -/
def step (s : Session) (c : Command) : Outcome × Session :=
  let before := s.bench.tools.executions.length
  let (reply, s) := execute c s
  let ledger := s.bench.tools
  ({ reply
     operators := ledger.operators
     programs := ledger.programs
     executions := ledger.executions.drop before }, s)

end Session

end FieldView
