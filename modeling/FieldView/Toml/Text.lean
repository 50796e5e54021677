/-!
# Characters, line ends and strings of a TOML text

Readers take the rest of the text and give back what they read with what follows it, or `none`.
Blanks are the space and the tab; a line ends with a line feed, which a carriage return may precede.
Control characters other than the tab stand nowhere, escapes excepted.
-/

set_option autoImplicit false

namespace FieldView.Toml

/-- Blanks within a line. -/
def isBlank (c : Char) : Bool := c == ' ' || c == '\t'

/-- Characters that stand for themselves in comments and in strings: the tab, and all that is not a
control character. -/
def isPlain (c : Char) : Bool :=
  c == '\t' || (0x20 ≤ c.toNat && c.toNat != 0x7f)

/-- The text from its first character that is no blank. -/
def skipBlanks (cs : List Char) : List Char := cs.dropWhile isBlank

/-- How many characters the line break at the head of a text has; zero, if there is none. -/
def breakLength : List Char → Nat
  | '\n' :: _ => 1
  | '\r' :: '\n' :: _ => 2
  | _ => 0

/-- The text after the line break at its head. -/
def lineBreak? (cs : List Char) : Option (List Char) :=
  match breakLength cs with
  | 0 => none
  | n => some (cs.drop n)

/-- The text from the end of the comment at its head. -/
def skipComment : List Char → List Char
  | '#' :: cs => cs.dropWhile isPlain
  | cs => cs

/-- What follows a line of which only blanks and a comment are left. The end of the text ends a line
too. -/
def lineEnd? (cs : List Char) : Option (List Char) :=
  match skipComment (skipBlanks cs) with
  | [] => some []
  | rest => lineBreak? rest

/-- How many blanks and line breaks head a text. -/
def spaceLength : List Char → Nat
  | [] => 0
  | c :: cs =>
    if isBlank c || c == '\n' then spaceLength cs + 1
    else if c = '\r' ∧ cs.head? = some '\n' then spaceLength cs + 1
    else 0

/-- Skips blanks, line breaks and comments that a line break ends. -/
def skipSpace (inComment : Bool) : List Char → List Char
  | [] => []
  | c :: cs =>
    if c = '\n' then skipSpace false cs
    else if c = '\r' ∧ cs.head? = some '\n' then skipSpace false cs
    else if inComment && isPlain c then skipSpace true cs
    else if !inComment && isBlank c then skipSpace false cs
    else if !inComment && c == '#' then skipSpace true cs
    else c :: cs

/-! ## Escapes -/

/-- The value of a hexadecimal digit. -/
def hexDigit? (c : Char) : Option Nat :=
  if '0' ≤ c ∧ c ≤ '9' then some (c.toNat - '0'.toNat)
  else if 'a' ≤ c ∧ c ≤ 'f' then some (c.toNat - 'a'.toNat + 10)
  else if 'A' ≤ c ∧ c ≤ 'F' then some (c.toNat - 'A'.toNat + 10)
  else none

/-- The number that hexadecimal digits write. -/
def hexValue? (ds : List Char) : Option Nat :=
  ds.foldl (fun acc d => do return 16 * (← acc) + (← hexDigit? d)) (some 0)

/-- The character whose number the first `count` characters write in hexadecimal. Numbers of
surrogates and numbers that are too large write none. -/
def numbered? (count : Nat) (cs : List Char) : Option Char :=
  if cs.length < count then none
  else
    match hexValue? (cs.take count) with
    | none => none
    | some n => if n.isValidChar then some (Char.ofNat n) else none

/-- The character that an escape writes, and how many characters follow the backslash. -/
def escape? : List Char → Option (Char × Nat)
  | [] => none
  | c :: cs =>
    match c with
    | 'b' => some ('\x08', 1)
    | 't' => some ('\t', 1)
    | 'n' => some ('\n', 1)
    | 'f' => some ('\x0c', 1)
    | 'r' => some ('\r', 1)
    | '"' => some ('"', 1)
    | '\\' => some ('\\', 1)
    | 'u' => (numbered? 4 cs).map fun x => (x, 5)
    | 'U' => (numbered? 8 cs).map fun x => (x, 9)
    | _ => none

/-! ## Strings -/

/-- The rest of a string on one line, after its opening quote. -/
def basicBody? : List Char → Option (List Char × List Char)
  | [] => none
  | c :: cs =>
    if c = '"' then some ([], cs)
    else if c = '\\' then
      match escape? cs with
      | none => none
      | some (x, n) => (basicBody? (cs.drop n)).map fun (body, rest) => (x :: body, rest)
    else if isPlain c then (basicBody? cs).map fun (body, rest) => (c :: body, rest)
    else none
termination_by cs => cs.length
decreasing_by all_goals simp only [List.length_drop, List.length_cons]; omega

/-- The rest of a string without escapes, after its opening quote. -/
def literalBody? (cs : List Char) : Option (List Char × List Char) :=
  let inside := fun c => isPlain c && c != '\''
  match cs.dropWhile inside with
  | '\'' :: rest => some (cs.takeWhile inside, rest)
  | _ => none

/-- How many characters a backslash at a line's end takes with it: the blanks up to the line break,
and all blanks and line breaks after it. It is zero when something else follows the backslash. -/
def joinLength (cs : List Char) : Nat :=
  let blanks := (cs.takeWhile isBlank).length
  match breakLength (cs.drop blanks) with
  | 0 => 0
  | _ => spaceLength cs

/-- The rest of a string over several lines, after its opening quotes. One or two quotes stand for
themselves; three close the string, and up to two more right before them belong to it. A line break
is a line feed in the string, however it is written. -/
def blockBody? (quote : Char) (escapes : Bool) : List Char → Option (List Char × List Char)
  | [] => none
  | c :: cs =>
    if c = quote then
      let more := (cs.takeWhile (· == quote)).length
      if more < 2 then
        (blockBody? quote escapes (cs.drop more)).map fun (body, rest) =>
          (List.replicate (more + 1) quote ++ body, rest)
      else if more < 5 then some (List.replicate (more - 2) quote, cs.drop more)
      else none
    else if escapes && c == '\\' then
      match joinLength cs with
      | 0 =>
        match escape? cs with
        | none => none
        | some (x, n) =>
          (blockBody? quote escapes (cs.drop n)).map fun (body, rest) => (x :: body, rest)
      | n => blockBody? quote escapes (cs.drop n)
    else if c = '\n' then
      (blockBody? quote escapes cs).map fun (body, rest) => ('\n' :: body, rest)
    else if c = '\r' ∧ cs.head? = some '\n' then blockBody? quote escapes cs
    else if isPlain c then
      (blockBody? quote escapes cs).map fun (body, rest) => (c :: body, rest)
    else none
termination_by cs => cs.length
decreasing_by all_goals simp only [List.length_drop, List.length_cons]; omega

/-- The rest of a string over several lines, without a line break right after its opening quotes. -/
def block? (quote : Char) (escapes : Bool) (cs : List Char) : Option (List Char × List Char) :=
  blockBody? quote escapes (cs.drop (breakLength cs))

/-- The string at the head of a text, of any of the four kinds. -/
def string? : List Char → Option (List Char × List Char)
  | '"' :: '"' :: '"' :: cs => block? '"' true cs
  | '"' :: cs => basicBody? cs
  | '\'' :: '\'' :: '\'' :: cs => block? '\'' false cs
  | '\'' :: cs => literalBody? cs
  | _ => none

/-! ## Keys -/

/-- Characters of a key that is written without quotes. -/
def isBareKey (c : Char) : Bool := c.isAlphanum || c == '_' || c == '-'

/-- One part of a key: a string on one line, or a bare word. -/
def keyPart? : List Char → Option (String × List Char)
  | '"' :: cs => (basicBody? cs).map fun (body, rest) => (String.ofList body, rest)
  | '\'' :: cs => (literalBody? cs).map fun (body, rest) => (String.ofList body, rest)
  | cs =>
    match cs.takeWhile isBareKey with
    | [] => none
    | word => some (String.ofList word, cs.dropWhile isBareKey)

/-- A key: parts with dots between them, and blanks around each. -/
def key? (cs : List Char) : Option (List String × List Char) :=
  match keyPart? (skipBlanks cs) with
  | none => none
  | some (part, rest) =>
    match skipBlanks rest with
    | '.' :: more =>
      if more.length < cs.length then (key? more).map fun (parts, rest) => (part :: parts, rest)
      else none
    | rest => some ([part], rest)
termination_by cs.length

end FieldView.Toml
