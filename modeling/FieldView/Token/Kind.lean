import FieldView.Source.Span

/-!
# Tokens

The vocabulary of the host language as the scope analysis sees it: keywords, punctuation, brackets,
literals with their text, words, and the four layout tokens (`newline`, `indent`, `dedent`, `eof`)
that no character of the text spells. Keywords and punctuation are enumerations of their own, so a
case split on a token meets a dozen forms and not ninety.
-/

set_option autoImplicit false

namespace FieldView

/-- The reserved words. -/
inductive Keyword
  | defKw | returnKw | lambdaKw | classKw | importKw | fromKw | asKw | globalKw | nonlocalKw
  | ifKw | elifKw | elseKw | forKw | inKw | whileKw | withKw | tryKw | exceptKw | finallyKw
  | passKw | breakKw | continueKw | delKw | raiseKw | assertKw | yieldKw | asyncKw | awaitKw
  | notKw | andKw | orKw | isKw | trueKw | falseKw | noneKw
deriving DecidableEq, Repr

namespace Keyword

/-- Every reserved word with its spelling. -/
def spellings : List (String × Keyword) :=
  [("def", defKw), ("return", returnKw), ("lambda", lambdaKw), ("class", classKw),
   ("import", importKw), ("from", fromKw), ("as", asKw), ("global", globalKw),
   ("nonlocal", nonlocalKw), ("if", ifKw), ("elif", elifKw), ("else", elseKw), ("for", forKw),
   ("in", inKw), ("while", whileKw), ("with", withKw), ("try", tryKw), ("except", exceptKw),
   ("finally", finallyKw), ("pass", passKw), ("break", breakKw), ("continue", continueKw),
   ("del", delKw), ("raise", raiseKw), ("assert", assertKw), ("yield", yieldKw),
   ("async", asyncKw), ("await", awaitKw), ("not", notKw), ("and", andKw), ("or", orKw),
   ("is", isKw), ("True", trueKw), ("False", falseKw), ("None", noneKw)]

/-- The reserved word with this spelling. -/
def ofText? (word : String) : Option Keyword := spellings.lookup word

/-- The spelling of a reserved word. -/
def text (k : Keyword) : String :=
  ((spellings.find? fun entry => entry.2 == k).map (·.1)).getD ""

end Keyword

/-- Operators and separators. Brackets are not among them. -/
inductive Punct
  | arrow | walrus | colon | semicolon | eq | eqEq | notEq | lt | gt | le | ge
  | plus | minus | star | starStar | slash | slashSlash | percent | atSign | amp | pipe | caret
  | tilde | shl | shr | dot | ellipsis | comma
deriving DecidableEq, Repr

/-- The three kinds of brackets. -/
inductive Bracket
  | paren | square | brace
deriving DecidableEq, Repr

/-- The base of an integer literal. -/
inductive Radix
  | binary | octal | decimal | hex
deriving DecidableEq, Repr

/-- An integer literal of any size: its base and its digits without underscores. -/
structure IntLiteral where
  radix : Radix
  digits : List Char
deriving DecidableEq, Repr

/-- What a token is. -/
inductive Kind
  | keyword (k : Keyword)
  | punct (p : Punct)
  | opening (b : Bracket)
  | closing (b : Bracket)
  /-- Augmented assignment, with the operator that stands before the `=`. -/
  | augAssign (op : String)
  | ident (name : String)
  | int (literal : IntLiteral)
  | float (text : String)
  /-- A string literal with its quotes and prefix letters. -/
  | string (text : String)
  | newline
  | indent
  | dedent
  | eof
deriving DecidableEq, Repr

namespace Kind

/-- Whether the token opens a bracket. -/
def isOpening : Kind → Bool
  | opening _ => true
  | _ => false

/-- Whether the token closes a bracket. -/
def isClosing : Kind → Bool
  | closing _ => true
  | _ => false

/-- The name a word stands for. -/
def ident? : Kind → Option String
  | ident name => some name
  | _ => none

end Kind

/-- A token with the bytes it was read from. -/
structure Token where
  kind : Kind
  span : Span
deriving DecidableEq, Repr

end FieldView
