import Std.Data.TreeSet
import FieldView.Scope.Function

/-!
# Classified names

The names of a function scope, sorted into five kinds: parameters, locals, imported names, and the
free ones, which are nonlocal where the function says so and global otherwise. Names used only
inside nested functions, lambdas and comprehensions belong to those scopes and do not appear.
-/

set_option autoImplicit false

namespace FieldView

/-- A set of names, listed in the order of their code points. -/
abbrev NameSet := Std.TreeSet String

namespace Scope

/-- What a name is to a function. -/
inductive NameKind
  | param | local | imported | nonlocal | global
deriving DecidableEq, Repr

/-- The names of a function by kind. -/
structure Names where
  params : NameSet := {}
  locals : NameSet := {}
  imported : NameSet := {}
  nonlocals : NameSet := {}
  globals : NameSet := {}

namespace Names

/-- The names bound inside: parameters, locals and imports. -/
def allLocals (n : Names) : NameSet :=
  (n.params.insertMany n.locals.toList).insertMany n.imported.toList

/-- The names that come from outside. -/
def free (n : Names) : NameSet := n.nonlocals.insertMany n.globals.toList

/-- The kind of a name, if the function knows it. -/
def kindOf? (n : Names) (name : String) : Option NameKind :=
  if n.params.contains name then some .param
  else if n.locals.contains name then some .local
  else if n.imported.contains name then some .imported
  else if n.nonlocals.contains name then some .nonlocal
  else if n.globals.contains name then some .global
  else none

/-- The names that a function's body marks in one way. -/
def marked (select : Mark → Option String) (marks : List Mark) : NameSet :=
  Std.TreeSet.ofList (marks.filterMap select)

/-- Sorts the parameters and the marked names of a body into kinds. An import wins over a local
binding and a parameter over an import; a declaration makes a bound name free; and a name that is
read and not accounted for is global. -/
def classify (params : List String) (marks : List Mark) : Names :=
  let params := Std.TreeSet.ofList params
  let bound := marked (fun | .binds n => some n | _ => none) marks
  let imports := marked (fun | .imports n => some n | _ => none) marks
  let globals := marked (fun | .declaresGlobal n => some n | _ => none) marks
  let nonlocals := marked (fun | .declaresNonlocal n => some n | _ => none) marks
  let reads := marked (fun | .reads n => some n | _ => none) marks
  let imported := imports.filter (!params.contains ·)
  let locals := bound.filter fun n =>
    !params.contains n && !imported.contains n && !globals.contains n && !nonlocals.contains n
  let free := reads.filter fun n =>
    !params.contains n && !locals.contains n && !imported.contains n && !nonlocals.contains n
  { params, locals, imported, nonlocals, globals := globals.insertMany free.toList }

end Names

/-- Why the names of a source text cannot be classified. -/
inductive SourceError
  | lexical (e : LexError)
  | shape (e : ShapeError)
deriving DecidableEq, Repr

/-- The text of the error. -/
def SourceError.message : SourceError → String
  | lexical e => e.message
  | shape e => e.message

/-- Classifies the names of the one function that a source text defines. -/
def namesOf (source filename : String) : Except SourceError Names :=
  match tokenize source with
  | .error e => .error (.lexical e)
  | .ok tokens =>
    match findFunction filename none tokens with
    | .error e => .error (.shape e)
    | .ok block => .ok (Names.classify (paramNames block.params) (bodyMarks block.body))

end Scope

end FieldView
