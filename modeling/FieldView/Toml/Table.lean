/-!
# Tables of a TOML document

A table is filled by headers, by keys with dots and by the keys of its own lines. Each of these may
open a table only once, so a table remembers how it came to be. Of the values only texts and truth
values are kept; the others are known to be well formed.
-/

set_option autoImplicit false

namespace FieldView.Toml

/-- Values that no header and no key goes into. -/
inductive Leaf
  | text (s : String)
  | truth (b : Bool)
  | other
deriving DecidableEq, Repr

/-- How a table came to be. -/
inductive Origin
  /-- It has a header, or it is the document. -/
  | header
  /-- A longer header goes through it. -/
  | passed
  /-- A key with dots goes through it. -/
  | dotted
deriving DecidableEq, Repr

/-- What a key of a table stands for. -/
inductive Item
  | leaf (v : Leaf)
  | table (origin : Origin) (entries : List (String × Item))
  /-- Tables under one header in double brackets, the last one first. -/
  | tables (newest : List (String × Item)) (older : List (List (String × Item)))
deriving Repr

/-- The entries of a table, in the order of their first mention. -/
abbrev Entries := List (String × Item)

namespace Entries

/-- The item of a key. -/
def get? (es : Entries) (key : String) : Option Item := List.lookup key es

/-- Gives a key another item; a new key comes last. -/
def set (es : Entries) (key : String) (item : Item) : Entries :=
  match es with
  | [] => [(key, item)]
  | (k, i) :: rest => if k = key then (k, item) :: rest else (k, i) :: set rest key item

/-- Changes the table at the end of a path. Tables on the way are opened as `passed`; of the tables
of a double bracket the last one is meant. -/
def under (path : List String) (f : Entries → Option Entries) (es : Entries) : Option Entries :=
  match path with
  | [] => f es
  | key :: path =>
    match es.get? key with
    | none => (under path f []).map fun es' => es.set key (.table .passed es')
    | some (.leaf _) => none
    | some (.table origin inner) =>
      (under path f inner).map fun es' => es.set key (.table origin es')
    | some (.tables newest older) =>
      (under path f newest).map fun es' => es.set key (.tables es' older)

/-- Opens the table of a header. It must be new, or known only from longer headers. -/
def openTable (key : String) (es : Entries) : Option Entries :=
  match es.get? key with
  | none => some (es.set key (.table .header []))
  | some (.table .passed inner) => some (es.set key (.table .header inner))
  | some _ => none

/-- Opens one more table under a header in double brackets. -/
def openNext (key : String) (es : Entries) : Option Entries :=
  match es.get? key with
  | none => some (es.set key (.tables [] []))
  | some (.tables newest older) => some (es.set key (.tables [] (newest :: older)))
  | some _ => none

/-- Gives a key its value, below the tables that a key with dots names. The key must be new. None of
the tables may have a header of its own, and the last of them must be new or known from keys with
dots. -/
def assign (path : List String) (key : String) (v : Leaf) (es : Entries) : Option Entries :=
  match path with
  | [] =>
    match es.get? key with
    | none => some (es.set key (.leaf v))
    | some _ => none
  | part :: path =>
    match es.get? part with
    | none => (assign path key v []).map fun es' => es.set part (.table .dotted es')
    | some (.table .dotted inner) =>
      (assign path key v inner).map fun es' => es.set part (.table .dotted es')
    | some (.table .passed inner) =>
      if path.isEmpty then none
      else (assign path key v inner).map fun es' => es.set part (.table .passed es')
    | some (.tables newest older) =>
      if path.isEmpty then none
      else (assign path key v newest).map fun es' => es.set part (.tables es' older)
    | some (.table .header _) => none
    | some (.leaf _) => none

end Entries

end FieldView.Toml
