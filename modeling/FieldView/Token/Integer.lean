import FieldView.Token.Kind

/-!
# Integer literals

A literal is a run of digits of its base, in which underscores may stand singly between two digits.
A base other than ten is announced by a zero and a letter, after which one more underscore may
stand. The digits are kept as text, so no literal is too large to be read; its value is asked for
separately and is absent from 2^64 on.
-/

set_option autoImplicit false

namespace FieldView

namespace Radix

/-- The number of digits of the base. -/
def base : Radix → Nat
  | binary => 2
  | octal => 8
  | decimal => 10
  | hex => 16

/-- The base announced by a letter after a leading zero. -/
def ofLetter? : Char → Option Radix
  | 'b' => some binary
  | 'B' => some binary
  | 'o' => some octal
  | 'O' => some octal
  | 'x' => some hex
  | 'X' => some hex
  | _ => none

/-- The value of a digit, in either case. -/
def digitValue? (r : Radix) (c : Char) : Option Nat :=
  let v? :=
    if '0' ≤ c ∧ c ≤ '9' then some (c.toNat - '0'.toNat)
    else if 'a' ≤ c ∧ c ≤ 'f' then some (c.toNat - 'a'.toNat + 10)
    else if 'A' ≤ c ∧ c ≤ 'F' then some (c.toNat - 'A'.toNat + 10)
    else none
  v?.filter (· < r.base)

/-- Whether a character is a digit of the base. -/
def isDigit (r : Radix) (c : Char) : Bool := (r.digitValue? c).isSome

/-- What a run of the base is made of: its digits and underscores. -/
def isRunChar (r : Radix) (c : Char) : Bool := r.isDigit c || c == '_'

end Radix

namespace IntLiteral

/-- The characters of a run without its underscores, if they stand singly and between two others. -/
def ungroup : List Char → Option (List Char)
  | [] => none
  | [c] => if c = '_' then none else some [c]
  | c :: d :: cs =>
    if c = '_' then none
    else if d = '_' then (ungroup cs).map (c :: ·)
    else (ungroup (d :: cs)).map (c :: ·)

/-- Reads a run of digits and underscores of a base. -/
def ofRun? (radix : Radix) (run : List Char) : Option IntLiteral :=
  (ungroup run).map fun digits => { radix, digits }

/-- The run of a literal in a base that was announced by a letter: one underscore may precede it. -/
def afterLetter : List Char → List Char
  | '_' :: run => run
  | run => run

/-- Reads the text of an integer literal. -/
def ofText? : List Char → Option IntLiteral
  | '0' :: letter :: run =>
    match Radix.ofLetter? letter with
    | some radix => ofRun? radix (afterLetter run)
    | none => ofRun? .decimal ('0' :: letter :: run)
  | run => ofRun? .decimal run

/-- The number written by the digits, most significant first. -/
def magnitude (l : IntLiteral) : Nat :=
  l.digits.foldl (fun n c => n * l.radix.base + (l.radix.digitValue? c).getD 0) 0

/-- The value, if it fits in 64 bits. -/
def value? (l : IntLiteral) : Option Nat :=
  if l.magnitude < UInt64.size then some l.magnitude else none

end IntLiteral

end FieldView
