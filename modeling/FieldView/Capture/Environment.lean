import FieldView.Capture.Host
import FieldView.Typing.Symbol

/-!
# Captured environments

The values of the free names of a function, as they were when the function was captured. Every free
name is accounted for: it has a value in a closure cell or in the global namespace, or it is a
builtin, or it is unbound. Unbound names are no error as long as nothing uses them.
-/

set_option autoImplicit false

namespace FieldView

/-- What the free names of a function stand for. -/
structure Environment where
  nonlocals : NameMap Value := {}
  globals : NameMap Value := {}
  annotations : NameMap Ty := {}
  /-- Names without a value that the language provides. -/
  builtins : NameSet := {}
  /-- Names without a value. -/
  unbound : NameSet := {}

namespace Environment

/-- Where a free name was found. -/
inductive Origin
  | cell (value : Value)
  | global (value : Value)
  | builtin
  | unbound

/-- Looks a free name up: in the closure cells, then in the global namespace, then among the
builtins. -/
def originOf (f : HostFunction) (name : String) : Origin :=
  match f.cells[name]? with
  | some value => .cell value
  | none =>
    match f.globals[name]? with
    | some value => .global value
    | none => if Builtin.isName name then .builtin else .unbound

/-- The environment of a function with the given free names. -/
def resolve (f : HostFunction) (free : NameSet) : Environment :=
  let found := free.toList.map fun name => (name, originOf f name)
  { nonlocals := Std.TreeMap.ofList (found.filterMap fun
      | (name, .cell value) => some (name, value)
      | _ => none)
    globals := Std.TreeMap.ofList (found.filterMap fun
      | (name, .global value) => some (name, value)
      | _ => none)
    annotations := f.annotations
    builtins := Std.TreeSet.ofList (found.filterMap fun
      | (name, .builtin) => some name
      | _ => none)
    unbound := Std.TreeSet.ofList (found.filterMap fun
      | (name, .unbound) => some name
      | _ => none) }

/-- The value of a name. A global hides a nonlocal of the same name. -/
def get? (e : Environment) (name : String) : Option Value := e.globals[name]?.or e.nonlocals[name]?

/-- All values by name. A global hides a nonlocal of the same name. -/
def all (e : Environment) : NameMap Value := e.nonlocals.insertMany e.globals.toList

/-- No name has a value. -/
def isEmpty (e : Environment) : Bool := e.nonlocals.isEmpty && e.globals.isEmpty

/-- The environment with a name bound in its globals. -/
def withGlobal (e : Environment) (name : String) (value : Value) : Environment :=
  { e with globals := e.globals.insert name value }

/-! ## Declared symbols -/

/-- The type names that every host namespace has. -/
def hostTypeNames : List String := ["bool", "int", "float"]

/-- The names that are declared as type names: those of the host, and those that are captured under
their own name. -/
def typeNames (e : Environment) : NameSet :=
  Std.TreeSet.ofList (hostTypeNames ++ e.all.toList.filterMap fun (name, value) =>
    match value with
    | .typeName kind => if Builtin.scalarKind? name = some kind then some name else none
    | _ => none)

/-- The environment as symbols: the type names, then the captured values, then the builtin functions
that are used and not bound, each part by ascending name. -/
def symbols (e : Environment) (loc : Location) : List Symbol :=
  let declare (id : String) (ty : Deduced) : Symbol := { id, ty, space := .closure, loc }
  let all := e.all
  let typeNames := e.typeNames
  typeNames.toList.filterMap (fun name =>
      (Builtin.scalarKind? name).map fun kind =>
        declare name (some (Builtin.constructorSignature kind).toTy)) ++
    (all.toList.filter (!typeNames.contains ·.1)).map
      (fun (name, value) => declare name value.ty) ++
    (e.builtins.toList.filter (!all.contains ·)).filterMap fun name =>
      (BuiltinFunction.ofName? name).map fun f => declare f.name (some f.signature.toTy)

end Environment

/-- Why a function cannot be captured. -/
inductive CaptureError
  | unavailable (fault : UnavailableFault)
  | source (e : Scope.SourceError)
deriving DecidableEq, Repr

/-- The source text of a function and the environment of its free names. -/
def HostFunction.capture (f : HostFunction) :
    Except CaptureError (SourceDefinition × Environment) :=
  match f.definition with
  | .error fault => .error (.unavailable fault)
  | .ok definition =>
    match Scope.namesOf definition.source definition.filename with
    | .error e => .error (.source e)
    | .ok names => .ok (definition, Environment.resolve f names.free)

end FieldView
