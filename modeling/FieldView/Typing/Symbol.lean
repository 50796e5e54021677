import FieldView.Source.Span
import FieldView.Ty.Deduced

/-!
# Symbols and tables

A symbol declares a name with the type known for it. A table holds the declarations in force, the
latest first, so that declaring a name again hides what it was declared as before.
-/

set_option autoImplicit false

namespace FieldView

/-- Where a symbol lives. -/
inductive SymbolSpace
  | local | closure | external
deriving DecidableEq, Repr

/-- A declared name. -/
structure Symbol where
  id : String
  ty : Deduced
  space : SymbolSpace
  loc : Location
deriving DecidableEq, Repr

/-- The type and the place of an expression. -/
structure Site where
  loc : Location
  ty : Deduced := none
deriving DecidableEq, Repr

/-- The same place with another type. -/
def Site.withTy (s : Site) (ty : Deduced) : Site := { s with ty }

/-- The declarations in force, latest first. -/
abbrev Table := List (String × Deduced)

namespace Table

/-- The table of a list of declarations, of which a later one wins. -/
def ofSymbols (symbols : List Symbol) : Table := (symbols.map fun s => (s.id, s.ty)).reverse

/-- Declares a name anew. -/
def declare (t : Table) (id : String) (ty : Deduced) : Table := (id, ty) :: t

/-- The type of a declared name, if one is known. -/
def typeOf? (t : Table) (id : String) : Deduced := (t.lookup id).join

end Table

end FieldView
