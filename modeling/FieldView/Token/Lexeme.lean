import FieldView.Text.Word
import FieldView.Token.Number
import FieldView.Token.Quoted

/-!
# Lexemes

A source text falls into lexemes without a gap: blanks, comments, joined line ends and line breaks
on one side, and on the other what becomes a token or an error. `measure` names the lexeme at the
head of a text and says how many characters it has after its first; the text is cut there and the
rest is split again. So the lexemes of a text concatenate to the text, whatever it holds
(`texts_split`).

At each place the longest lexeme is taken. A word that spells a keyword is that keyword. Where a
string literal opens nothing shorter is tried: it closes, or it is broken.
-/

set_option autoImplicit false

namespace FieldView

/-- What a lexeme is before its text has been looked at. -/
inductive Lexeme.Form
  | blank
  | comment
  /-- A backslash at the end of a line, with the line break. -/
  | continuation
  | newline
  | word
  | number (form : Number.Form)
  | string
  | operator (kind : Kind)
  /-- The opening of a string literal that never closes. -/
  | broken
  /-- A character that begins nothing. -/
  | stray
deriving DecidableEq, Repr

namespace Lexeme

/-- Blanks inside a line. -/
def isGap (c : Char) : Bool := c == ' ' || c == '\t' || c == '\x0c' || c == '\r'

/-- Augmented assignments by their operator. -/
def augmented : List String :=
  ["**", "//", ">>", "<<", "-", "+", "*", "/", "%", "@", "&", "|", "^"]

/-- The spellings of operators, separators and brackets. A spelling stands before those that it
extends. -/
def operators : List (List Char × Kind) :=
  augmented.map (fun op => (op.toList ++ ['='], Kind.augAssign op)) ++
  ([("...", .punct .ellipsis),
    ("->", .punct .arrow), (":=", .punct .walrus), ("==", .punct .eqEq), ("!=", .punct .notEq),
    ("<=", .punct .le), (">=", .punct .ge), ("<<", .punct .shl), (">>", .punct .shr),
    ("**", .punct .starStar), ("//", .punct .slashSlash),
    ("<", .punct .lt), (">", .punct .gt), ("+", .punct .plus), ("-", .punct .minus),
    ("*", .punct .star), ("/", .punct .slash), ("%", .punct .percent), ("@", .punct .atSign),
    ("&", .punct .amp), ("|", .punct .pipe), ("^", .punct .caret), ("~", .punct .tilde),
    (".", .punct .dot), (":", .punct .colon), (";", .punct .semicolon), ("=", .punct .eq),
    (",", .punct .comma),
    ("(", .opening .paren), (")", .closing .paren), ("[", .opening .square),
    ("]", .closing .square), ("\x7b", .opening .brace), ("\x7d", .closing .brace)] :
    List (String × Kind)).map fun (text, kind) => (text.toList, kind)

/-- The longest operator at the head of a text. -/
def operator? (cs : List Char) : Option (List Char × Kind) :=
  operators.find? fun entry => entry.1.isPrefixOf cs

/-- The number of characters of the line break after a backslash, or zero. -/
def breakLength : List Char → Nat
  | '\n' :: _ => 1
  | '\r' :: '\n' :: _ => 2
  | _ => 0

/-- Whether a character begins a word. -/
def beginsWord (c : Char) : Bool := Text.isWordStart c || c == '_'

/-- The form of the lexeme that begins with `c`, and how many characters of `cs` belong to it. -/
def measure (c : Char) (cs : List Char) : Form × Nat :=
  if isGap c then (.blank, (cs.takeWhile isGap).length)
  else if c = '#' then (.comment, (cs.takeWhile (· != '\n')).length)
  else if c = '\n' then (.newline, 0)
  else if c = '\\' then
    match breakLength cs with
    | 0 => (.stray, 0)
    | n => (.continuation, n)
  else
    match Quoted.longest? (c :: cs) with
    | some (some n) => (.string, n - 1)
    | some none => (.broken, 0)
    | none =>
      if beginsWord c then (.word, (cs.takeWhile Text.isWordPart).length)
      else
        match Number.longest? (c :: cs) with
        | some (form, n) => (.number form, n - 1)
        | none =>
          match operator? (c :: cs) with
          | some (text, kind) => (.operator kind, text.length - 1)
          | none => (.stray, 0)

end Lexeme

/-- A stretch of text and its form. -/
structure Lexeme where
  form : Lexeme.Form
  text : List Char
deriving DecidableEq, Repr

namespace Lexeme

/-- Cuts a text into its lexemes. -/
def split : List Char → List Lexeme
  | [] => []
  | c :: cs =>
    let m := measure c cs
    { form := m.1, text := c :: cs.take m.2 } :: split (cs.drop m.2)
termination_by cs => cs.length
decreasing_by simp only [List.length_drop, List.length_cons]; omega

/-- Nothing of the text is lost or changed. -/
theorem texts_split (cs : List Char) : (split cs).flatMap text = cs := by
  fun_induction split cs with
  | case1 => rfl
  | case2 c cs m ih => simp only [List.flatMap_cons, ih, List.cons_append, List.take_append_drop]

/-- What a lexeme is worth to the layout. -/
inductive Role
  /-- Text between tokens that stays on its line. -/
  | gap
  /-- A joined line end: the next physical line begins, the logical one goes on. -/
  | join
  | lineBreak
  | token (kind : Kind)
  | badInteger
  | broken
  | stray
deriving DecidableEq, Repr

/-- The token or the fault that a lexeme stands for. -/
def role (l : Lexeme) : Role :=
  match l.form with
  | .blank => .gap
  | .comment => .gap
  | .continuation => .join
  | .newline => .lineBreak
  | .word =>
    let name := String.ofList l.text
    match Keyword.ofText? name with
    | some k => .token (.keyword k)
    | none => .token (.ident name)
  | .number .integer =>
    match IntLiteral.ofText? l.text with
    | some literal => .token (.int literal)
    | none => .badInteger
  | .number .float => .token (.float (String.ofList l.text))
  | .string => .token (.string (String.ofList l.text))
  | .operator kind => .token kind
  | .broken => .broken
  | .stray => .stray

end Lexeme

end FieldView
