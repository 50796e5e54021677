/-!
# Binary numbers of fixed precision

A binary number is a mantissa of limited size times a power of two, or infinite, or not a number.
Two formats are used, of 32 and of 64 bits. A decimal text is read exactly and rounded once, to the
nearest number of the format, and to the one with an even mantissa from halfway.
-/

set_option autoImplicit false

namespace FieldView

/-- The limits of a binary format. -/
structure BinaryFormat where
  /-- Bits of a mantissa. -/
  precision : Nat
  /-- Least exponent. -/
  minExp : Int
  /-- Greatest exponent. -/
  maxExp : Int

namespace BinaryFormat

def binary32 : BinaryFormat := { precision := 24, minExp := -149, maxExp := 104 }

def binary64 : BinaryFormat := { precision := 53, minExp := -1074, maxExp := 971 }

end BinaryFormat

/-- A number of a binary format. A finite one is `mantissa * 2 ^ exponent`; its mantissa has all the
bits of the format unless its exponent is the least one. -/
inductive Binary
  | nan
  | infinite (negative : Bool)
  | finite (negative : Bool) (mantissa : Nat) (exponent : Int)
deriving DecidableEq, Repr

namespace Binary

/-- The quotient, rounded to the nearest number, and to the even one from halfway. -/
def roundDiv (num den : Nat) : Nat :=
  let q := num / den
  let twice := 2 * (num % den)
  if twice < den then q
  else if den < twice then q + 1
  else q + q % 2

/-- `num / den * 2 ^ (-exp)`, as a fraction of natural numbers. -/
def scaleDown (num den : Nat) (exp : Int) : Nat × Nat :=
  if exp < 0 then (num * Nat.pow 2 exp.natAbs, den) else (num, den * Nat.pow 2 exp.natAbs)

/-- The exponent at which a positive fraction has all the bits of the format, or the least one. -/
def exponentOf (f : BinaryFormat) (num den : Nat) : Int :=
  -- The fraction lies between 2 ^ (size - 1) and 2 ^ (size + 1).
  let size : Int := (num.log2 : Int) - (den.log2 : Int)
  let low := max f.minExp (size - f.precision)
  let (n, d) := scaleDown num den low
  if d * Nat.pow 2 f.precision ≤ n then low + 1 else low

/-- The number of the format that is nearest to a fraction. -/
def ofFraction (f : BinaryFormat) (negative : Bool) (num den : Nat) : Binary :=
  if num = 0 then .finite negative 0 f.minExp
  else
    let exp := exponentOf f num den
    let (n, d) := scaleDown num den exp
    let m := roundDiv n d
    let (m, exp) := if m = Nat.pow 2 f.precision then (m / 2, exp + 1) else (m, exp)
    if f.maxExp < exp then .infinite negative else .finite negative m exp

/-- The number of the format that is nearest to `digits * 10 ^ exp`, where `digits` is written with
`count` digits. Past four hundred places before or behind the point no format has a number. -/
def ofDecimal (f : BinaryFormat) (negative : Bool) (digits count : Nat) (exp : Int) : Binary :=
  if digits = 0 then ofFraction f negative 0 1
  else if exp + count < -400 then ofFraction f negative 0 1
  else if 400 + count < exp then .infinite negative
  else if exp < 0 then ofFraction f negative digits (Nat.pow 10 exp.natAbs)
  else ofFraction f negative (digits * Nat.pow 10 exp.natAbs) 1

/-! ## Reading -/

/-- The value of a run of decimal digits. -/
def digitsValue (ds : List Char) : Nat :=
  ds.foldl (fun n c => 10 * n + (c.toNat - '0'.toNat)) 0

/-- Takes a sign off a text: whether it is a minus, and the rest. -/
def splitSign : List Char → Bool × List Char
  | '-' :: cs => (true, cs)
  | '+' :: cs => (false, cs)
  | cs => (false, cs)

/-- The exponent written behind the digits: none, or a letter, a sign and a run of digits. -/
def exponent? : List Char → Option Int
  | [] => some 0
  | c :: cs =>
    if c = 'e' ∨ c = 'E' then
      let (negative, ds) := splitSign cs
      if ds.isEmpty || !ds.all Char.isDigit then none
      else some (if negative then -(digitsValue ds : Int) else digitsValue ds)
    else none

/-- Takes the digits behind a point off a text. -/
def splitFraction : List Char → List Char × List Char
  | '.' :: cs => (cs.takeWhile Char.isDigit, cs.dropWhile Char.isDigit)
  | cs => ([], cs)

/-- Reads an unsigned number. -/
def ofUnsigned? (f : BinaryFormat) (negative : Bool) (cs : List Char) : Option Binary :=
  let word := String.ofList (cs.map Char.toLower)
  if word = "nan" then some .nan
  else if word = "inf" ∨ word = "infinity" then some (.infinite negative)
  else
    let whole := cs.takeWhile Char.isDigit
    let (fraction, rest) := splitFraction (cs.dropWhile Char.isDigit)
    let digits := whole ++ fraction
    if digits.isEmpty then none
    else (exponent? rest).map fun exp =>
      ofDecimal f negative (digitsValue digits) digits.length (exp - fraction.length)

/-- Reads a decimal text into the format. -/
def ofText? (f : BinaryFormat) (text : String) : Option Binary :=
  let (negative, cs) := splitSign text.toList
  ofUnsigned? f negative cs

end Binary

end FieldView
