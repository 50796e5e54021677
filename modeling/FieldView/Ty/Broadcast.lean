import FieldView.Ty.Deduced

/-!
# Broadcasting

When two operands can be combined, and what type the result has. Elements must be of the same type.
If both operands are fields with dimensions, the shorter list of dimensions must stand in the longer
one as an unbroken run, found by the first places of its ends.
-/

set_option autoImplicit false

namespace FieldView.Deduced

/-- The place of the first element equal to `x`. -/
def placeOf? (x : Option String) (names : List String) : Option Nat :=
  names.findIdx? fun n => some n == x

/-- Whether the short list is the stretch of the long one between the first places of its ends. -/
def isRunOf (short long : List String) : Bool :=
  match placeOf? short.head? long, placeOf? short.getLast? long with
  | some first, some last => first ≤ last && (long.drop first).take (last + 1 - first) == short
  | _, _ => false

/-- Whether two lists of dimensions fit each other. A list without dimensions fits every other. -/
def dimsFit (l r : List String) : Bool :=
  l.isEmpty || r.isEmpty || if l.length ≤ r.length then isRunOf l r else isRunOf r l

/-- Whether two operands can be combined. -/
def broadcastable (l r : Deduced) : Bool :=
  (match dims? l, dims? r with
    | some (.known ls), some (.known rs) => dimsFit ls rs
    | _, _ => true) &&
  dtype? l == dtype? r

/-- Whether the right operand gives the result its type: it is a field and the left one a scalar, or
it has more dimensions than the left one, which has some. -/
def rightWins (l r : Deduced) : Bool :=
  (isScalar l && isField r) ||
  match dims? l, dims? r with
  | some (.known ls), some (.known rs) => !ls.isEmpty && ls.length < rs.length
  | _, _ => false

/-- The type of two combined operands; `none` when they cannot be combined. -/
def broadcast? (l r : Deduced) : Option Deduced :=
  if broadcastable l r then some (if rightWins l r then r else l) else none

end FieldView.Deduced
