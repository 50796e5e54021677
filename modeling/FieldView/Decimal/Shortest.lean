import FieldView.Decimal.Binary

/-!
# The fewest digits that read back

A binary number is written with as few decimal digits as tell it apart from its neighbours, and
among those by the decimal nearest to it. The decimals that round to a number form an interval,
whose ends belong to it when the mantissa is even. For one digit, two digits and so on, the two
decimals around the number are tried; the first that lies in the interval is written, of two the
nearer, and the upper one from halfway. No exponent is written, and a whole number has no point.
-/

set_option autoImplicit false

namespace FieldView.Binary

/-- A decimal number `digits * 10 ^ exp`. -/
structure Decimal where
  digits : Nat
  exp : Int
deriving DecidableEq, Repr

/-- A finite positive number and the ends of its rounding interval, all in units of `2 ^ exp`. -/
structure Rounding where
  value : Nat
  low : Nat
  high : Nat
  exp : Int
  /-- The ends belong to the interval. -/
  closed : Bool

/-- The rounding interval of `mantissa * 2 ^ exponent`. Below a power of two the neighbours are
twice as near as above it. -/
def rounding (f : BinaryFormat) (mantissa : Nat) (exponent : Int) : Rounding :=
  let below := if mantissa = Nat.pow 2 (f.precision - 1) ∧ f.minExp < exponent then 1 else 2
  { value := 4 * mantissa, low := 4 * mantissa - below, high := 4 * mantissa + 2,
    exp := exponent - 2, closed := mantissa % 2 = 0 }

/-- `n * 2 ^ two * 10 ^ ten`, for exponents that are not negative. -/
def scaled (n : Nat) (two ten : Int) : Nat := n * Nat.pow 2 two.toNat * Nat.pow 10 ten.toNat

/-- Compares `m * 2 ^ two` with `n * 10 ^ ten`: both sides, as natural numbers of one unit. -/
def sides (m : Nat) (two : Int) (n : Nat) (ten : Int) : Nat × Nat :=
  (scaled m two (-ten), scaled n (-two) ten)

/-- Whether a decimal rounds to the number. -/
def Rounding.admits (r : Rounding) (d : Decimal) : Bool :=
  let (low, x) := sides r.low r.exp d.digits d.exp
  let (high, x') := sides r.high r.exp d.digits d.exp
  if r.closed then low ≤ x && x' ≤ high else low < x && x' < high

/-- The largest whole multiple of `10 ^ exp` that is not above the number. -/
def Rounding.floorAt (r : Rounding) (exp : Int) : Nat :=
  let (value, unit) := sides r.value r.exp 1 exp
  value / unit

/-- The decimal with this last place that stands for the number, if there is one. -/
def Rounding.decimalAt? (r : Rounding) (exp : Int) : Option Decimal :=
  let n := r.floorAt exp
  let lower : Decimal := { digits := n, exp }
  let upper : Decimal := { digits := n + 1, exp }
  if r.admits lower && 0 < n then
    if r.admits upper then
      let (twice, around) := sides (2 * r.value) r.exp (2 * n + 1) exp
      some (if twice < around then lower else upper)
    else some lower
  else if r.admits upper then some upper
  else none

/-- The exponent of the leading digit of the number. -/
def Rounding.leading (r : Rounding) : Int :=
  -- `bits` is the binary logarithm, rounded down, and 1233 / 4096 a little below log 2.
  let bits : Int := r.value.log2 + r.exp
  let guess := Int.fdiv (bits * 1233) 4096
  -- The guess is off by at most one place below and one above.
  if 0 < r.floorAt (guess + 1) then guess + 1
  else if 0 < r.floorAt guess then guess
  else guess - 1

/-- The shortest decimal that stands for the number. Seventeen digits are always enough. -/
def Rounding.shortest (r : Rounding) : Decimal :=
  let top := r.leading
  ((List.range 17).findSome? fun (n : Nat) => r.decimalAt? (top - n)).getD
    { digits := r.floorAt (top - 16), exp := top - 16 }

/-! ## Layout -/

/-- Moves the zeros at the end of the digits into the exponent. -/
def Decimal.strip (d : Decimal) : Decimal :=
  if 0 < d.digits ∧ d.digits % 10 = 0 then
    Decimal.strip { digits := d.digits / 10, exp := d.exp + 1 }
  else d
termination_by d.digits
decreasing_by omega

/-- The decimal written without an exponent. -/
def Decimal.render (d : Decimal) : String :=
  let digits := Nat.toDigits 10 d.digits
  let places := d.exp.natAbs
  String.ofList <|
    if 0 ≤ d.exp then digits ++ List.replicate places '0'
    else if places < digits.length then
      digits.take (digits.length - places) ++ '.' :: digits.drop (digits.length - places)
    else '0' :: '.' :: (List.replicate (places - digits.length) '0' ++ digits)

/-- The printed form of a number of the format. -/
def render (f : BinaryFormat) : Binary → String
  | nan => "NaN"
  | infinite negative => if negative then "-inf" else "inf"
  | finite negative mantissa exponent =>
    let text :=
      if mantissa = 0 then "0" else (rounding f mantissa exponent).shortest.strip.render
    if negative then "-" ++ text else text

end FieldView.Binary
