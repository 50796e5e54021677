/-!
# Where a string literal ends

A literal is opened by at most two letters and a quote. A quote that is tripled opens a literal that
may run over lines and is closed by the next three quotes in a row; any other is closed by the next
quote of its line. A backslash takes the character after it into the literal, except that it cannot
take a line break into a one-line literal.

The letters belong to a literal only if something of it follows the quote. Where the line or the
text ends there at once, also after one backslash, they are a word and the quote stands alone.

Inside a tripled literal one or two quotes may stand, but only before a character that is neither a
quote nor a backslash.
-/

set_option autoImplicit false

namespace FieldView.Quoted

/-- The letters that can stand before the opening quote. -/
def isMark (c : Char) : Bool := "rRbBuUfF".toList.contains c

/-- The two quotes. -/
def isQuote (c : Char) : Bool := c == '"' || c == '\''

/-- The number of letters before the opening quote, and the quote. -/
def opening? : List Char → Option (Nat × Char)
  | [] => none
  | a :: as =>
    if isQuote a then some (0, a)
    else if isMark a then
      match as with
      | [] => none
      | b :: bs =>
        if isQuote b then some (1, b)
        else if isMark b then
          match bs with
          | [] => none
          | q :: _ => if isQuote q then some (2, q) else none
        else none
    else none

/-- The length of the rest of a one-line literal, its closing quote included. -/
def lineLength? (quote : Char) : List Char → Option Nat
  | [] => none
  | c :: cs =>
    if c = quote then some 1
    else if c = '\n' then none
    else if c = '\\' then
      match cs with
      | [] => none
      | d :: ds => if d = '\n' then none else (lineLength? quote ds).map (· + 2)
    else (lineLength? quote cs).map (· + 1)

/-- The length of the rest of a tripled literal, its closing quotes included. -/
def blockLength? (quote : Char) : List Char → Option Nat
  | [] => none
  | c :: cs =>
    if c = '\\' then
      match cs with
      | [] => none
      | _ :: ds => (blockLength? quote ds).map (· + 2)
    else if c = quote then
      match cs with
      | [] => none
      | d :: ds =>
        if d = quote then
          match ds with
          | [] => none
          | e :: es =>
            if e = quote then some 3
            else if e = '\\' then none
            else (blockLength? quote es).map (· + 3)
        else if d = '\\' then none
        else (blockLength? quote ds).map (· + 2)
    else (blockLength? quote cs).map (· + 1)

/-- Whether a text begins with a quote twice. -/
def startsDoubled (quote : Char) : List Char → Bool
  | a :: b :: _ => a == quote && b == quote
  | _ => false

/-- The length of the literal after its opening quote, whose third quote decides its form. -/
def bodyLength? (quote : Char) (cs : List Char) : Option Nat :=
  if startsDoubled quote cs then (blockLength? quote (cs.drop 2)).map (· + 2)
  else lineLength? quote cs

/-- Whether no character of a literal can follow the opening quote: the line or the text ends, or a
backslash finds nothing to take. -/
def isBarren : List Char → Bool
  | [] => true
  | c :: cs => c == '\n' || c == '\\' && cs.headD '\n' == '\n'

/-- A barren literal never closes. -/
theorem bodyLength?_of_isBarren {quote : Char} {cs : List Char} (h : isQuote quote = true)
    (barren : isBarren cs = true) : bodyLength? quote cs = none := by
  have hq : quote ≠ '\n' ∧ quote ≠ '\\' := by
    constructor <;> rintro rfl <;> revert h <;> decide
  cases cs with
  | nil => rfl
  | cons c cs =>
    simp only [isBarren, Bool.or_eq_true, Bool.and_eq_true, beq_iff_eq] at barren
    rcases barren with rfl | ⟨rfl, hd⟩
    · cases cs <;> simp [bodyLength?, startsDoubled, lineLength?, hq.1.symm]
    · cases cs with
      | nil => simp [bodyLength?, startsDoubled, lineLength?, hq.2.symm]
      | cons d ds =>
        obtain rfl : d = '\n' := hd
        simp [bodyLength?, startsDoubled, lineLength?, hq.2.symm]

/-- The length of the literal at the head of a text that opens one; `some none` when it does not
close. -/
def longest? (cs : List Char) : Option (Option Nat) :=
  match opening? cs with
  | none => none
  | some (letters, quote) =>
    let body := cs.drop (letters + 1)
    if letters ≠ 0 ∧ isBarren body then none
    else some ((bodyLength? quote body).map (letters + 1 + ·))

end FieldView.Quoted
