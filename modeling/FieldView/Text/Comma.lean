/-!
# Lists in running text

Items separated by a comma and a blank: the one way in which this library prints a list.
-/

set_option autoImplicit false

namespace FieldView.Text

/-- The items, with `, ` between two of them. -/
def commaList : List String → String
  | [] => ""
  | [item] => item
  | item :: next :: rest => item ++ ", " ++ commaList (next :: rest)

end FieldView.Text
