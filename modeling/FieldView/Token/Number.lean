import FieldView.Token.Integer

/-!
# Where a number ends

The length of the longest number at the head of a text. A number that breaks off (`1e+`, `0x`
without a digit) ends at its longest complete part, so `1e+` is the number `1` and what follows it.
Runs may hold underscores anywhere here; whether an integer's underscores are in order is
`IntLiteral`'s business, and a float is never refused for them.
-/

set_option autoImplicit false

namespace FieldView.Number

/-- How many of the first characters are decimal digits or underscores. -/
def runLength (cs : List Char) : Nat := (cs.takeWhile Radix.decimal.isRunChar).length

/-- The length of an optional sign. -/
def signLength : List Char → Nat
  | '+' :: _ => 1
  | '-' :: _ => 1
  | _ => 0

/-- The length of the exponent at the head of a text: a letter, an optional sign and a run. It is
zero when there is none. -/
def exponentLength : List Char → Nat
  | [] => 0
  | c :: cs =>
    if c = 'e' ∨ c = 'E' then
      let sign := signLength cs
      match runLength (cs.drop sign) with
      | 0 => 0
      | run => 1 + sign + run
    else 0

/-- The length of a literal announced by a letter after a zero, or zero. -/
def letteredLength : List Char → Nat
  | '0' :: letter :: cs =>
    match Radix.ofLetter? letter with
    | some radix =>
      match (cs.takeWhile radix.isRunChar).length with
      | 0 => 0
      | run => 2 + run
    | none => 0
  | _ => 0

/-- The two kinds of numbers. -/
inductive Form
  | integer | float
deriving DecidableEq, Repr

/-- The kind and the length of the number whose first digit heads the text. -/
def atDigit (cs : List Char) : Form × Nat :=
  match letteredLength cs with
  | 0 =>
    let run := runLength cs
    match cs.drop run with
    | '.' :: rest =>
      let fraction := runLength rest
      (.float, run + 1 + fraction + exponentLength (rest.drop fraction))
    | rest =>
      match exponentLength rest with
      | 0 => (.integer, run)
      | exponent => (.float, run + exponent)
  | lettered => (.integer, lettered)

/-- The length of the number that a point begins, the point included. A digit must follow the point.
-/
def atPoint? : List Char → Option Nat
  | '.' :: d :: cs =>
    if d.isDigit then
      let fraction := 1 + runLength cs
      some (1 + fraction + exponentLength ((d :: cs).drop fraction))
    else none
  | _ => none

/-- The kind and the length of the number at the head of the text. -/
def longest? (cs : List Char) : Option (Form × Nat) :=
  match cs with
  | [] => none
  | c :: _ => if c.isDigit then some (atDigit cs) else (atPoint? cs).map (Form.float, ·)

end FieldView.Number
