import Std.Data.TreeMap
import FieldView.Capture.Value
import FieldView.Scope.Names
import FieldView.Text.Margin

/-!
# Host functions

What is known of a function of the host language: its source text and where that stands, the values
of its closure cells, the namespace in which its global names are looked up, and its type
annotations.
-/

set_option autoImplicit false

namespace FieldView

/-- A finite map from names, listed in the order of their code points. -/
abbrev NameMap (α : Type) := Std.TreeMap String α

/-- The text of a function, without its margin, and where it stands. -/
structure SourceDefinition where
  source : String
  filename : String
  /-- The line of the file that it begins at, from one on. -/
  line : Nat
deriving DecidableEq, Repr

/-- Why a function has no source text. -/
inductive UnavailableFault
  | notInFile
  | noText (function : String)
deriving DecidableEq, Repr

/-- The text of the error. -/
def UnavailableFault.message (f : UnavailableFault) : String :=
  "source unavailable: " ++
    match f with
    | notInFile => "can not create field operator from a function that is not in a source file"
    | noText function => "can not get source code of passed function (" ++ function ++ ")"

/-- A function of the host language. -/
structure HostFunction where
  name : String
  source : Option String
  filename : String
  line : Nat
  cells : NameMap Value := {}
  globals : NameMap Value := {}
  /-- Types of parameters by name, and the type of the result under `return`. -/
  annotations : NameMap Ty := {}

namespace HostFunction

/-- How the file name of a function ends that was made from a string. -/
def stringFilename : String := "<string>"

/-- The source text of the function. -/
def definition (f : HostFunction) : Except UnavailableFault SourceDefinition :=
  if f.filename.isEmpty || f.filename.endsWith stringFilename then .error .notInFile
  else
    match f.source with
    | none => .error (.noText f.name)
    | some text =>
      .ok { source := Text.dedent text, filename := f.filename, line := max f.line 1 }

end HostFunction

end FieldView
