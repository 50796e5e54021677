import FieldView.Text.Blank

/-!
# Margins

The margin of a text is the longest run of blanks and tabs that all of its lines begin with, lines
of white space apart. Taking it off shifts the text to the left as far as it goes. Lines of white
space become empty.
-/

set_option autoImplicit false

namespace FieldView.Text

/-- The lines of a text. A line break at the end is followed by an empty line. -/
def lines : List Char → List (List Char)
  | [] => [[]]
  | c :: cs =>
    if c = '\n' then [] :: lines cs
    else
      match lines cs with
      | [] => [[c]]
      | l :: ls => (c :: l) :: ls

/-- The text of some lines. -/
def unlines : List (List Char) → List Char
  | [] => []
  | [l] => l
  | l :: m :: ls => l ++ '\n' :: unlines (m :: ls)

/-- The blanks and tabs that a line begins with. -/
def indentOf (line : List Char) : List Char := line.takeWhile fun c => c == ' ' || c == '\t'

/-- What two texts begin with in common. -/
def commonLead : List Char → List Char → List Char
  | a :: as, b :: bs => if a = b then a :: commonLead as bs else []
  | _, _ => []

/-- What all texts of a list begin with in common; nothing, if there are none. -/
def commonLeadAll : List (List Char) → List Char
  | [] => []
  | [l] => l
  | l :: m :: ls => commonLead l (commonLeadAll (m :: ls))

/-- The margin of some lines. -/
def marginOf (ls : List (List Char)) : List Char :=
  commonLeadAll ((ls.filter (!isBlank ·)).map indentOf)

/-- A line without the margin; empty, if it is white space. -/
def dedentLine (margin line : List Char) : List Char :=
  if isBlank line then [] else line.drop margin.length

/-- Takes the margin off the lines of a text. -/
def dedentChars (cs : List Char) : List Char :=
  let ls := lines cs
  unlines (ls.map (dedentLine (marginOf ls)))

/-- Takes the margin off a text. -/
def dedent (text : String) : String := String.ofList (dedentChars text.toList)

end FieldView.Text
