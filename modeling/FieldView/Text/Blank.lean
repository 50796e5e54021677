/-!
# White space

The characters of the Unicode property `White_Space`. A line that holds no other character is blank.
-/

set_option autoImplicit false

namespace FieldView.Text

/-- The property `White_Space`. -/
def isSpace (c : Char) : Bool :=
  let n := c.toNat
  (0x09 ≤ n && n ≤ 0x0d) || n == 0x20 || n == 0x85 || n == 0xa0 || n == 0x1680
    || (0x2000 ≤ n && n ≤ 0x200a) || n == 0x2028 || n == 0x2029 || n == 0x202f || n == 0x205f
    || n == 0x3000

/-- A line is blank when it holds white space only. -/
def isBlank (line : List Char) : Bool := line.all isSpace

end FieldView.Text
