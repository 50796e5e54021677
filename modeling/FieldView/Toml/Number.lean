import FieldView.Decimal.Binary

/-!
# Numbers, dates and times of a TOML text

Each is described by how many characters of a text it takes; zero means that the text does not begin
with one. Underscores stand only between two digits.
-/

set_option autoImplicit false

namespace FieldView.Toml

/-- How many characters of digits go on after a digit. -/
def moreDigits (isDigit : Char → Bool) : List Char → Nat
  | [] => 0
  | [c] => if isDigit c then 1 else 0
  | c :: d :: cs =>
    if isDigit c then moreDigits isDigit (d :: cs) + 1
    else if c == '_' && isDigit d then moreDigits isDigit cs + 2
    else 0

/-- The length of a run of digits. -/
def digitsLength (isDigit : Char → Bool) : List Char → Nat
  | [] => 0
  | c :: cs => if isDigit c then moreDigits isDigit cs + 1 else 0

/-- The length of an optional sign. -/
def signLength : List Char → Nat
  | '+' :: _ => 1
  | '-' :: _ => 1
  | _ => 0

/-! ## Integers -/

/-- The length of an integer in decimal: a sign or none, then zero alone or digits that begin with
another one. -/
def decimalLength (cs : List Char) : Nat :=
  let sign := signLength cs
  match cs.drop sign with
  | [] => 0
  | c :: rest =>
    if c = '0' then sign + 1
    else if c.isDigit then sign + 1 + moreDigits Char.isDigit rest
    else 0

/-- The digits that a base letter after a zero announces, with the base. -/
def baseOf? : Char → Option (Nat × (Char → Bool))
  | 'x' => some (16, fun c => c.isDigit || ('a' ≤ c && c ≤ 'f') || ('A' ≤ c && c ≤ 'F'))
  | 'o' => some (8, fun c => '0' ≤ c && c ≤ '7')
  | 'b' => some (2, fun c => c == '0' || c == '1')
  | _ => none

/-- The value of a digit in any base up to sixteen. -/
def digitValue (c : Char) : Nat :=
  if c.isDigit then c.toNat - '0'.toNat
  else if c.toNat < 'a'.toNat then c.toNat - 'A'.toNat + 10
  else c.toNat - 'a'.toNat + 10

/-- The number that digits write in a base. Underscores do not count. -/
def valueIn (base : Nat) (ds : List Char) : Nat :=
  (ds.filter (· != '_')).foldl (fun n d => n * base + digitValue d) 0

/-- Integers have 64 bits with a sign. -/
def inRange (n : Int) : Bool := Int64.minValue.toInt ≤ n && n ≤ Int64.maxValue.toInt

/-- The length of an integer that is in range. -/
def integerLength? (cs : List Char) : Option Nat :=
  let based :=
    match cs with
    | '0' :: letter :: _ => baseOf? letter
    | _ => none
  match based with
  | some (base, isDigit) =>
    match digitsLength isDigit (cs.drop 2) with
    | 0 => none
    | n => if inRange (valueIn base ((cs.drop 2).take n)) then some (2 + n) else none
  | none =>
    match decimalLength cs with
    | 0 => none
    | n =>
      let magnitude : Int := valueIn 10 ((cs.take n).drop (signLength cs))
      let value := if cs.head? = some '-' then -magnitude else magnitude
      if inRange value then some n else none

/-! ## Floating-point numbers -/

/-- The length of an exponent. -/
def exponentLength : List Char → Nat
  | [] => 0
  | c :: cs =>
    if c = 'e' ∨ c = 'E' then
      let sign := signLength cs
      match digitsLength Char.isDigit (cs.drop sign) with
      | 0 => 0
      | n => 1 + sign + n
    else 0

/-- The length of a point with digits after it. -/
def fractionLength : List Char → Nat
  | '.' :: cs =>
    match digitsLength Char.isDigit cs with
    | 0 => 0
    | n => n + 1
  | _ => 0

/-- The length of a number with a fraction, an exponent or both. -/
def pointedLength (cs : List Char) : Nat :=
  match decimalLength cs with
  | 0 => 0
  | n =>
    let fraction := fractionLength (cs.drop n)
    let exponent := exponentLength (cs.drop (n + fraction))
    match fraction + exponent with
    | 0 => 0
    | more => n + more

/-- The length of a floating-point number. A positive one that is too large is refused, a negative
one goes to infinity. -/
def floatLength? (cs : List Char) : Option Nat :=
  match pointedLength cs with
  | 0 =>
    let sign := signLength cs
    let word := (cs.drop sign).take 3
    if word == ['i', 'n', 'f'] || word == ['n', 'a', 'n'] then some (sign + 3) else none
  | n =>
    let text := String.ofList ((cs.take n).filter (· != '_'))
    match Binary.ofText? .binary64 text with
    | some (.infinite false) => none
    | some _ => some n
    | none => none

/-! ## Dates and times -/

/-- The number that exactly `count` decimal digits write at the head of a text. -/
def fixed? (count : Nat) (cs : List Char) : Option Nat :=
  let ds := cs.take count
  if ds.length = count ∧ ds.all Char.isDigit then some (valueIn 10 ds) else none

/-- The number of days of a month. -/
def daysIn (year month : Nat) : Nat :=
  if month = 2 then
    if year % 4 = 0 ∧ (year % 100 ≠ 0 ∨ year % 400 = 0) then 29 else 28
  else if month = 4 ∨ month = 6 ∨ month = 9 ∨ month = 11 then 30
  else 31

/-- Whether a text begins with a date, written with ten characters. -/
def isDate (cs : List Char) : Bool :=
  match fixed? 4 cs, fixed? 2 (cs.drop 5), fixed? 2 (cs.drop 8) with
  | some year, some month, some day =>
    (cs.drop 4).head? == some '-' && (cs.drop 7).head? == some '-' &&
      1 ≤ month && month ≤ 12 && 1 ≤ day && day ≤ daysIn year month
  | _, _, _ => false

/-- Whether a text begins with an hour and a minute, written with five characters. -/
def isClock (cs : List Char) : Bool :=
  match fixed? 2 cs, fixed? 2 (cs.drop 3) with
  | some hour, some minute => (cs.drop 2).head? == some ':' && hour ≤ 23 && minute ≤ 59
  | _, _ => false

/-- The length of a time of day. There may be a leap second and any fraction of one. -/
def timeLength (cs : List Char) : Nat :=
  if isClock cs && (cs.drop 5).head? == some ':' then
    match fixed? 2 (cs.drop 6) with
    | none => 0
    | some second =>
      if 60 < second then 0
      else
        match cs.drop 8 with
        | '.' :: rest =>
          match (rest.takeWhile Char.isDigit).length with
          | 0 => 8
          | n => 9 + n
        | _ => 8
  else 0

/-- The length of a distance from universal time. -/
def zoneLength : List Char → Nat
  | [] => 0
  | c :: cs =>
    if c = 'Z' ∨ c = 'z' then 1
    else if (c = '+' ∨ c = '-') ∧ isClock cs then 6
    else 0

/-- The length of a date, a time, or a date with a time. -/
def momentLength? (cs : List Char) : Option Nat :=
  if isDate cs then
    match cs.drop 10 with
    | [] => some 10
    | c :: rest =>
      if c = 'T' ∨ c = 't' ∨ c = ' ' then
        match timeLength rest with
        | 0 => some 10
        | n => some (11 + n + zoneLength (rest.drop n))
      else some 10
  else
    match timeLength cs with
    | 0 => none
    | n => some n

end FieldView.Toml
