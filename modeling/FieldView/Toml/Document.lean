import FieldView.Toml.Number
import FieldView.Toml.Table
import FieldView.Toml.Text

/-!
# TOML documents

A document is a sequence of lines: blank lines and comments, headers of tables, and keys with their
values. Values in brackets may go over several lines, values in braces may not. How deep values are
nested is limited, and `value?` recurses on what is left of that limit.
-/

set_option autoImplicit false

namespace FieldView.Toml

/-- Values are nested less deep than this, and a key has fewer parts. -/
def nestingLimit : Nat := 80

/-- The rest of a bracketed list, after its opening bracket or a comma. Its items are read by
`item`. -/
def listRest? (item : List Char → Option (Leaf × List Char)) (cs : List Char) :
    Option (List Char) :=
  match skipSpace false cs with
  | ']' :: rest => some rest
  | start =>
    match item start with
    | none => none
    | some (_, rest) =>
      match skipSpace false rest with
      | ']' :: rest => some rest
      | ',' :: rest => if rest.length < cs.length then listRest? item rest else none
      | _ => none
termination_by cs.length

/-- A key with its value, as it stands on a line or in braces: the parts of the key up to its last,
its last part, the value, and what follows. -/
def binding? (value : List Char → Option (Leaf × List Char)) (cs : List Char) :
    Option (List String × String × Leaf × List Char) :=
  match key? cs with
  | none => none
  | some (parts, rest) =>
    if nestingLimit ≤ parts.length then none
    else
      match rest, parts.getLast? with
      | '=' :: rest, some last =>
        (value (skipBlanks rest)).map fun (v, rest) => (parts.dropLast, last, v, rest)
      | _, _ => none

/-- The rest of a table in braces, from one of its keys on, with the entries before it. -/
def bracesRest? (value : List Char → Option (Leaf × List Char)) (es : Entries) (cs : List Char) :
    Option (List Char) :=
  match binding? value cs with
  | none => none
  | some (path, key, v, rest) =>
    match es.assign path key v, skipBlanks rest with
    | some _, '}' :: rest => some rest
    | some es, ',' :: rest => if rest.length < cs.length then bracesRest? value es rest else none
    | _, _ => none
termination_by cs.length

/-- A table in braces, after its opening brace. -/
def braces? (value : List Char → Option (Leaf × List Char)) (cs : List Char) : Option (List Char) :=
  match skipBlanks cs with
  | '}' :: rest => some rest
  | rest => bracesRest? value [] rest

/-- A word with its value. -/
def word? (word : String) (v : Leaf) (cs : List Char) : Option (Leaf × List Char) :=
  if word.toList.isPrefixOf cs then some (v, cs.drop word.length) else none

/-- A number, a date or a time. What can be read as a date is one. -/
def figure? (cs : List Char) : Option (Leaf × List Char) :=
  let length? := (momentLength? cs).or ((floatLength? cs).or (integerLength? cs))
  length?.map fun n => (.other, cs.drop n)

/-- The value at the head of a text, when brackets and braces may be nested `depth` deep. -/
def value? (depth : Nat) (cs : List Char) : Option (Leaf × List Char) :=
  match cs with
  | [] => none
  | c :: rest =>
    if c = '"' ∨ c = '\'' then
      (string? cs).map fun (body, rest) => (.text (String.ofList body), rest)
    else if c = '[' then
      match depth with
      | 0 => none
      | depth + 1 => (listRest? (value? depth) rest).map fun rest => (.other, rest)
    else if c = '\x7b' then
      match depth with
      | 0 => none
      | depth + 1 => (braces? (value? depth) rest).map fun rest => (.other, rest)
    else if c = 't' then word? "true" (.truth true) cs
    else if c = 'f' then word? "false" (.truth false) cs
    else figure? cs

/-! ## Lines -/

/-- The document so far, and the table that the next keys go to. -/
structure Draft where
  root : Entries := []
  current : List String := []

/-- The rest of a header, after its opening brackets. -/
def header? (close : List Char) (cs : List Char) : Option (List String × List Char) :=
  match key? cs with
  | none => none
  | some (path, rest) =>
    if path.length < nestingLimit ∧ close.isPrefixOf rest then
      some (path, rest.drop close.length)
    else none

/-- Opens a table with one of the two kinds of headers. -/
def Draft.opened (d : Draft) (path : List String) (f : String → Entries → Option Entries) :
    Option Draft :=
  match path.getLast? with
  | none => none
  | some key => (d.root.under path.dropLast (f key)).map fun root => { root, current := path }

/-- Gives a key of the current table its value. -/
def Draft.assigned (d : Draft) (path : List String) (key : String) (v : Leaf) : Option Draft :=
  (d.root.under d.current (·.assign path key v)).map fun root => { d with root }

/-- One line that has more than blanks. -/
def line? (d : Draft) (cs : List Char) : Option (Draft × List Char) :=
  match cs with
  | '#' :: _ => (lineEnd? cs).map fun rest => (d, rest)
  | '\n' :: _ => (lineEnd? cs).map fun rest => (d, rest)
  | '\r' :: _ => (lineEnd? cs).map fun rest => (d, rest)
  | '[' :: '[' :: rest => do
    let (path, rest) ← header? [']', ']'] rest
    return (← d.opened path Entries.openNext, ← lineEnd? rest)
  | '[' :: rest => do
    let (path, rest) ← header? [']'] rest
    return (← d.opened path Entries.openTable, ← lineEnd? rest)
  | _ => do
    let (path, key, v, rest) ← binding? (value? (nestingLimit - 1)) cs
    return (← d.assigned path key v, ← lineEnd? rest)

/-- The lines of a document. -/
def lines? (d : Draft) (cs : List Char) : Option Entries :=
  match skipBlanks cs with
  | [] => some d.root
  | start =>
    match line? d start with
    | none => none
    | some (d, rest) => if rest.length < cs.length then lines? d rest else none
termination_by cs.length

/-- The table that a text stands for. A byte order mark may come first. -/
def document? (text : String) : Option Entries :=
  match text.toList with
  | '\ufeff' :: cs => lines? {} cs
  | cs => lines? {} cs

end FieldView.Toml
