import FieldView.Toolchain.Flattening
import FieldView.Toolchain.Unit

/-!
# Lowering

A program is lowered together with every function that it reaches. First its names are checked, then
the functions are lowered in the order of the walk over its environment, and then the program
itself. The result is kept; a failure is not.
-/

set_option autoImplicit false

namespace FieldView

variable {σ : Type}

namespace Program

mutual

/-- Every name in an expression. -/
def Expr.names : Expr → List String
  | .name _ id => [id]
  | .call _ callee args kwargs => callee.names ++ namesOfAll args ++ namesOfNamed kwargs

/-- Every name in some expressions. -/
def namesOfAll : List Expr → List String
  | [] => []
  | e :: es => e.names ++ namesOfAll es

/-- Every name in the values of some keyword arguments. -/
def namesOfNamed : List (String × Expr) → List String
  | [] => []
  | (_, e) :: es => e.names ++ namesOfNamed es

end

/-- Every name in the body of a program. -/
def referenced (p : Program) : NameSet := Std.TreeSet.ofList (namesOfAll p.body)

/-- The names of the captured symbols, all of which must be functions. -/
def functionNames (p : Program) : Except ClosureError NameSet :=
  match p.captured.find? fun s => Deduced.constraint? s.ty != some .function with
  | some s => .error (.unsupportedType s.id s.ty)
  | none => .ok (Std.TreeSet.ofList (p.captured.map (·.id)))

end Program

namespace ProgramUnit

/-- The names that are used and not declared, and then the functions that are declared and not
bound. -/
def undefinedNames (u : ProgramUnit) (functions : NameSet) : List String :=
  let params : NameSet := Std.TreeSet.ofList (u.node.params.map (·.id))
  let all := u.captured.all
  u.node.referenced.toList.filter (fun name => !params.contains name && !functions.contains name) ++
    functions.toList.filter (!all.contains ·)

/-- The functions that are bound to something else than a callable. -/
def uncallableNames (u : ProgramUnit) (functions : NameSet) : List String :=
  let all := u.captured.all
  functions.toList.filter fun name =>
    match all[name]? with
    | some (.callable _) => false
    | _ => true

/-- Checks everything about a program that can be checked before anything is lowered. -/
def check (u : ProgramUnit) : Except Error Unit :=
  if !u.externals.isEmpty then .error .externals
  else
    match u.node.functionNames with
    | .error e => .error (.closure e)
    | .ok functions =>
      match u.undefinedNames functions, u.uncallableNames functions with
      | [], [] => .ok ()
      | [], names => .error (.closure (.notCallable names))
      | names, _ => .error (.closure (.undefinedNames names))

/-- Lowers a program, whether or not its fencil is known. -/
def lowerAnew (t : Toolchain σ) (u : ProgramUnit) : Task σ Fencil := do
  Task.ofExcept u.check
  let callables ← Task.callables
  Task.consult do
    let definitions ← flatten t callables u.captured
    t.lowerProgram u.node definitions

/-- The fencil of a program. It is computed once and kept. -/
def lower (t : Toolchain σ) (u : ProgramUnit) : Task σ Fencil := do
  match ← Task.fencil? u.fencil with
  | some f => return f
  | none =>
    let f ← u.lowerAnew t
    Task.keepFencil u.fencil f
    return f

end ProgramUnit

end FieldView
