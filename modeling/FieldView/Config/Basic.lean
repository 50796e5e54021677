import FieldView.Toml.Document

/-!
# Configuration

Two settings, each with a default, read from the top of a TOML document. Other keys are left to
other readers; a setting of another type than its own is refused.
-/

set_option autoImplicit false

namespace FieldView

/-- How programs without a backend of their own are run. -/
structure Config where
  /-- The backend that runs them. -/
  defaultBackend : String := "roundtrip"
  /-- Whether to warn when it does. -/
  warnOnDefaultBackend : Bool := true
deriving DecidableEq, Repr

/-- Why there is no configuration. -/
inductive ConfigError
  /-- The file cannot be read. -/
  | unreadable
  /-- The text is no document, or a setting has another type than its own. -/
  | malformed
deriving DecidableEq, Repr

namespace Config

/-- The backend that the entries name; the default, if they name none. -/
def backend? (es : Toml.Entries) : Option String :=
  match es.get? "default_backend" with
  | none => some ({} : Config).defaultBackend
  | some (.leaf (.text s)) => some s
  | some _ => none

/-- Whether the entries ask for warnings. -/
def warn? (es : Toml.Entries) : Option Bool :=
  match es.get? "warn_on_default_backend" with
  | none => some ({} : Config).warnOnDefaultBackend
  | some (.leaf (.truth b)) => some b
  | some _ => none

/-- The settings of a document. -/
def ofEntries? (es : Toml.Entries) : Option Config := do
  return { defaultBackend := ← backend? es, warnOnDefaultBackend := ← warn? es }

/-- The settings that a text holds. -/
def ofText (text : String) : Except ConfigError Config :=
  match Toml.document? text with
  | none => .error .malformed
  | some es =>
    match ofEntries? es with
    | none => .error .malformed
    | some config => .ok config

/-- Whether all settings have their defaults. -/
def isDefault (c : Config) : Bool := decide (c = {})

end Config

end FieldView
