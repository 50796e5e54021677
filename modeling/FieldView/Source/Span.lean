/-!
# Places in a source text

A span is a stretch of bytes of the UTF-8 form of a text. A location names a line and a column of a
source, with the span and the end position where they are known. Locations are carried by every node
of a syntax tree and come back in errors; nothing else reads them.
-/

set_option autoImplicit false

namespace FieldView

/-- A stretch of bytes: where it begins and how many it has. -/
structure Span where
  offset : Nat
  length : Nat
deriving DecidableEq, Repr

/-- The byte after the last one of the span. -/
def Span.stop (s : Span) : Nat := s.offset + s.length

/-- The number of bytes of a text in UTF-8. -/
def byteLength (cs : List Char) : Nat := cs.foldr (fun c n => c.utf8Size + n) 0

@[simp]
theorem byteLength_nil : byteLength [] = 0 := rfl

@[simp]
theorem byteLength_cons (c : Char) (cs : List Char) :
    byteLength (c :: cs) = c.utf8Size + byteLength cs := rfl

@[simp]
theorem byteLength_append (cs ds : List Char) :
    byteLength (cs ++ ds) = byteLength cs + byteLength ds := by
  induction cs with
  | nil => simp
  | cons c cs ih => simp [ih, Nat.add_assoc]

/-- Where a node came from. Lines and columns count from one. -/
structure Location where
  source : String
  line : Nat
  column : Nat
  endLine : Option Nat := none
  endColumn : Option Nat := none
  span : Option Span := none
deriving DecidableEq, Repr

/-- `source:line:column`. -/
def Location.render (l : Location) : String :=
  l.source ++ ":" ++ toString l.line ++ ":" ++ toString l.column

end FieldView
