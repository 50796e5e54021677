import FieldView.Token.Lexeme

/-!
# Layout

Turns the lexemes of a text into its tokens. A line break ends a logical line unless a bracket is
open or the line holds nothing yet. The first token of a logical line settles its indentation:
deeper than the line before it opens a block, shallower closes blocks until one of the same width is
met. Brackets must close in the order they were opened. At the end of the text the last line and all
blocks are closed.

Faults are reported in text order. At one token a fault of the token itself comes first, then its
indentation, then its bracket.
-/

set_option autoImplicit false

namespace FieldView

/-- Why a text has no tokens. -/
inductive LexFault
  /-- A character that begins no lexeme. -/
  | stray
  /-- A string literal that does not close. -/
  | brokenString
  | invalidInteger
  | unmatchedClosing
  | mismatchedClosing
  | unclosed
  | tabbedIndent
  | unevenIndent
deriving DecidableEq, Repr

namespace LexFault

/-- What is said about the fault. -/
def describe : LexFault → String
  | stray => "unexpected token"
  | brokenString => "unexpected token"
  | invalidInteger => "invalid integer literal"
  | unmatchedClosing => "unmatched closing bracket"
  | mismatchedClosing => "mismatched closing bracket"
  | unclosed => "unclosed bracket"
  | tabbedIndent => "tabs are not allowed in indentation; use spaces"
  | unevenIndent => "inconsistent indentation"

end LexFault

/-- A fault and where it is. -/
structure LexError where
  fault : LexFault
  span : Span
deriving DecidableEq, Repr

/-- The text of the error. -/
def LexError.message (e : LexError) : String := "lex error: " ++ e.fault.describe

/-- What the layout remembers between two lexemes. -/
structure Layout where
  /-- Bytes before the next lexeme. -/
  offset : Nat := 0
  /-- What stands on the current physical line, as long as that is blank. -/
  margin : List Char := []
  /-- The logical line holds no token yet. -/
  fresh : Bool := true
  /-- Widths of the open blocks, innermost first. The outermost width is zero and is not listed. -/
  blocks : List Nat := []
  /-- Open brackets with their spans, innermost first. -/
  brackets : List (Bracket × Span) := []

namespace Layout

/-- The bytes of the margin before the next lexeme. -/
def marginSpan (st : Layout) : Span :=
  let width := byteLength st.margin
  { offset := st.offset - width, length := width }

/-- Closes the blocks that are wider than `width`: how many they are, and those that stay open. -/
def closeBlocks (width : Nat) : List Nat → Nat × List Nat
  | [] => (0, [])
  | w :: ws =>
    if width < w then
      let (n, open') := closeBlocks width ws
      (n + 1, open')
    else (0, w :: ws)

/-- The layout tokens before the first token of a line, and the blocks open after them. -/
def indentLine (st : Layout) : Except LexError (List Token × List Nat) :=
  let span := st.marginSpan
  let width := span.length
  let current := st.blocks.headD 0
  if st.margin.contains '\t' then .error { fault := .tabbedIndent, span }
  else if current < width then .ok ([{ kind := .indent, span }], width :: st.blocks)
  else
    let (closed, blocks) := closeBlocks width st.blocks
    if blocks.headD 0 = width then .ok (List.replicate closed { kind := .dedent, span }, blocks)
    else .error { fault := .unevenIndent, span }

/-- The brackets open after a token. -/
def nestBrackets (brackets : List (Bracket × Span)) (t : Token) :
    Except LexError (List (Bracket × Span)) :=
  match t.kind with
  | .opening b => .ok ((b, t.span) :: brackets)
  | .closing b =>
    match brackets with
    | [] => .error { fault := .unmatchedClosing, span := t.span }
    | (b', _) :: rest =>
      if b' = b then .ok rest else .error { fault := .mismatchedClosing, span := t.span }
  | _ => .ok brackets

/-- What one lexeme contributes: its tokens and the state after it. -/
def step (st : Layout) (l : Lexeme) : Except LexError (List Token × Layout) :=
  let size := byteLength l.text
  let span : Span := { offset := st.offset, length := size }
  let next := { st with offset := st.offset + size }
  match l.role with
  | .gap => .ok ([], { next with margin := st.margin ++ l.text })
  | .join => .ok ([], { next with margin := [] })
  | .lineBreak =>
    if st.brackets.isEmpty && !st.fresh then
      .ok ([{ kind := .newline, span }], { next with margin := [], fresh := true })
    else .ok ([], { next with margin := [] })
  | .badInteger => .error { fault := .invalidInteger, span }
  | .broken => .error { fault := .brokenString, span }
  | .stray => .error { fault := .stray, span }
  | .token kind => do
    let t : Token := { kind, span }
    let (lead, blocks) ← if st.fresh then st.indentLine else .ok ([], st.blocks)
    let brackets ← nestBrackets st.brackets t
    return (lead ++ [t], { next with margin := [], fresh := false, blocks, brackets })

/-- The tokens after the last lexeme. -/
def finish (st : Layout) : Except LexError (List Token) :=
  let span : Span := { offset := st.offset, length := 0 }
  match st.brackets with
  | (_, opened) :: _ => .error { fault := .unclosed, span := opened }
  | [] =>
    .ok ((if st.fresh then [] else [{ kind := .newline, span }])
      ++ List.replicate st.blocks.length { kind := .dedent, span }
      ++ [{ kind := .eof, span }])

/-- The tokens of the remaining lexemes. -/
def run (st : Layout) : List Lexeme → Except LexError (List Token)
  | [] => st.finish
  | l :: ls => do
    let (tokens, st') ← st.step l
    let rest ← run st' ls
    return tokens ++ rest

end Layout

/-- The tokens of a source text. -/
def tokenize (source : String) : Except LexError (List Token) :=
  Layout.run {} (Lexeme.split source.toList)

end FieldView
