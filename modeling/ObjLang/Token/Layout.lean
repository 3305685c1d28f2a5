import ObjLang.Token.Scan

/-!
# ObjLang.Token.Layout — from source text to the token stream

Leading blanks of a line are measured against the open indentation levels: a larger width opens a
level, a smaller one closes levels, and it must then equal the width of the innermost level left.
Lines without text, and lines inside brackets, take no part in this.  Every line outside brackets
ends with `newline`, and the stream ends with one `dedent` for each level still open and `eof`.

All faults of a text are found in one pass; `tokenize` gives the tokens only if there are none.
-/

namespace ObjLang

/-- Why a place in the source has no token. -/
inductive LexError.Cause where
  | unexpectedCharacter (c : Char)
  | invalidNumber (text : String)
  | inconsistentDedent
  | unclosedParen
deriving DecidableEq

/-- A fault of the source text, at its place. -/
structure LexError where
  cause : LexError.Cause
  span : Span
deriving DecidableEq

namespace LexError

/-- What is wrong, without the place. -/
def description (e : LexError) : String :=
  match e.cause with
  | .unexpectedCharacter c => "Unexpected character '" ++ c.toString ++ "'"
  | .invalidNumber text => "Invalid number '" ++ text ++ "'"
  | .inconsistentDedent => "Unindent does not match any outer indentation level"
  | .unclosedParen => "Unclosed '(' at end of file"

/-- What is wrong, and the line and column of it. -/
def message (e : LexError) : String :=
  e.description ++ " at " ++ toString e.span.line ++ ":" ++ toString e.span.column

/-- A number set to the right in three columns. -/
def padLeft3 (n : Nat) : String :=
  let digits := toString n
  "".pushn ' ' (3 - digits.length) ++ digits

/-- The message with the source line under it and a caret under the column. -/
def excerpt (source : String) (e : LexError) : String :=
  let head := "Error at " ++ toString e.span.line ++ ":" ++ toString e.span.column ++ ": "
    ++ e.description ++ "\n"
  match Source.lineText? source.toList e.span.line with
  | some line =>
    head ++ "  |\n" ++ padLeft3 e.span.line ++ " | " ++ String.ofList line ++ "\n"
      ++ "  | " ++ "".pushn ' ' (e.span.column - 1) ++ "^\n"
  | none => head

/-- The excerpts of all faults, with an empty line between two of them. -/
def report (errors : List LexError) (source : String) : String :=
  "\n".intercalate (errors.map (excerpt source))

end LexError

namespace Token

/-! ### Lines -/

/-- A source line: its number from one, the byte offset of its start, and its text without the
line end. -/
structure Line where
  number : Nat
  start : Nat
  text : List Char

/-- Numbers the lines `ls`, of which the first has the given number and offset. -/
def numberLines (number start : Nat) : List (List Char) → List Line
  | [] => []
  | l :: ls =>
    ⟨number, start, Source.dropLineEnd l⟩
      :: numberLines (number + 1) (start + Source.byteSize l) ls

/-- The lines of a text. -/
def sourceLines (text : List Char) : List Line := numberLines 1 0 (Source.lines text)

/-- Characters that indent a line. -/
def isIndent (c : Char) : Bool := c == ' ' || c == '\t'

/-- Distance between two tab stops. -/
def tabWidth : Nat := 8

/-- Width of leading blanks; a tab leads to the next tab stop. -/
def indentWidth (blanks : List Char) : Nat :=
  blanks.foldl (fun width c => if c = '\t' then (width / tabWidth + 1) * tabWidth else width + 1) 0

namespace Line

/-- The leading spaces and tabs. -/
def indentation (l : Line) : List Char := l.text.takeWhile isIndent

/-- The text after the leading spaces and tabs. -/
def content (l : Line) : List Char := l.text.dropWhile isIndent

/-- The width of the leading spaces and tabs. -/
def width (l : Line) : Nat := indentWidth l.indentation

/-- A line that has no tokens to give: nothing but a comment after the indentation. -/
def isSkipped (l : Line) : Bool :=
  match l.content with
  | [] => true
  | c :: _ => c == '#'

/-- The span of the indentation, at which levels open and close. -/
def indentSpan (l : Line) : Span :=
  ⟨l.start, l.start + l.indentation.length, l.number, 1⟩

/-- The empty span at the end of the text of the line. -/
def endSpan (l : Line) : Span :=
  let size := Source.byteSize l.text
  ⟨l.start + size, l.start + size, l.number, size + 1⟩

/-- The span of `text` at `column` bytes after the start of the line. -/
def spanAt (l : Line) (column : Nat) (text : List Char) : Span :=
  ⟨l.start + column, l.start + column + Source.byteSize text, l.number, column + 1⟩

end Line

/-! ### Items: tokens and faults in source order -/

/-- A token or a fault. -/
abbrev Item := Except LexError Lexeme

/-- What a piece at `span` contributes to the stream. -/
def Piece.item? (span : Span) (p : Piece) : Option Item :=
  match p.kind with
  | .blank => none
  | .token t => some (.ok ⟨t, span⟩)
  | .hugeInt => some (.error ⟨.invalidNumber (String.ofList p.text), span⟩)
  | .unknown c => some (.error ⟨.unexpectedCharacter c, span⟩)

/-- The items of consecutive pieces, the first of them `column` bytes after the start of the
line. -/
def pieceItems (line : Line) (column : Nat) : List Piece → List Item
  | [] => []
  | p :: ps =>
    (p.item? (line.spanAt column p.text)).toList
      ++ pieceItems line (column + Source.byteSize p.text) ps

/-- Open brackets after the items, from `depth` open before them. -/
def itemsDepth (depth : Nat) (items : List Item) : Nat :=
  items.foldl (fun d i => match i with | .ok l => l.token.depthAfter d | .error _ => d) depth

/-- Open indentation levels (widths, innermost first, without the outermost width zero) and open
brackets. -/
structure Layout where
  levels : List Nat
  depth : Nat

namespace Layout

/-- No open level and no open bracket. -/
def start : Layout := ⟨[], 0⟩

/-- The levels after a line of the given width, and the layout tokens for the change. -/
def indent (levels : List Nat) (width : Nat) (span : Span) : List Nat × List Item :=
  if levels.headD 0 < width then (width :: levels, [.ok ⟨.indent, span⟩])
  else
    let kept := levels.dropWhile (width < ·)
    let closed := List.replicate (levels.length - kept.length) (.ok ⟨.dedent, span⟩)
    (kept, if width = kept.headD 0 then closed else closed ++ [.error ⟨.inconsistentDedent, span⟩])

/-- Reads one line. -/
def line (s : Layout) (l : Line) : Layout × List Item :=
  if l.isSkipped then (s, [])
  else
    let (levels, change) :=
      if s.depth = 0 then indent s.levels l.width l.indentSpan else (s.levels, [])
    let body := pieceItems l l.indentation.length (pieces l.content)
    let depth := itemsDepth s.depth body
    let close : List Item := if depth = 0 then [.ok ⟨.newline, l.endSpan⟩] else []
    (⟨levels, depth⟩, change ++ body ++ close)

/-- Reads lines one after the other. -/
def lines (s : Layout) : List Line → Layout × List Item
  | [] => (s, [])
  | l :: ls =>
    let (s₁, items) := s.line l
    let (s₂, rest) := lines s₁ ls
    (s₂, items ++ rest)

/-- The items that end the stream at `span`. -/
def close (s : Layout) (span : Span) : List Item :=
  (if 0 < s.depth then [.error ⟨.unclosedParen, span⟩] else [])
    ++ List.replicate s.levels.length (.ok ⟨.dedent, span⟩)
    ++ [.ok ⟨.eof, span⟩]

end Layout

/-- The empty span at the end of a text. -/
def eofSpan (text : List Char) : Span :=
  ⟨Source.byteSize text, Source.byteSize text, max (Source.lines text).length 1, 1⟩

/-- All tokens and faults of a text. -/
def items (text : List Char) : List Item :=
  let (s, found) := Layout.start.lines (sourceLines text)
  found ++ s.close (eofSpan text)

/-- The tokens among the items. -/
def lexemesOf (items : List Item) : List Lexeme := items.filterMap Except.toOption

/-- The faults among the items. -/
def errorsOf (items : List Item) : List LexError :=
  items.filterMap fun i => match i with | .ok _ => none | .error e => some e

/-- The token stream of a source text, or all its faults. -/
def tokenize (source : String) : Except (List LexError) (List Lexeme) :=
  let found := items source.toList
  match errorsOf found with
  | [] => .ok (lexemesOf found)
  | errors => .error errors

end Token

end ObjLang
