import ObjLang.Span

/-!
# ObjLang.Source — source text as lines of characters at byte offsets

Offsets count UTF-8 bytes.  A line runs up to and including its line feed; the text of a line is
what is left when all carriage returns and line feeds at its end are dropped.  `Source.location`
goes the other way, from an offset to a line and a column.
-/

namespace ObjLang.Source

/-- Number of bytes that encode `cs`. -/
def byteSize : List Char → Nat
  | [] => 0
  | c :: cs => c.utf8Size + byteSize cs

@[simp] theorem byteSize_nil : byteSize [] = 0 := rfl

@[simp] theorem byteSize_cons (c : Char) (cs : List Char) :
    byteSize (c :: cs) = c.utf8Size + byteSize cs := rfl

@[simp] theorem byteSize_append (as bs : List Char) :
    byteSize (as ++ bs) = byteSize as + byteSize bs := by
  induction as with
  | nil => simp
  | cons c as ih => simp [ih, Nat.add_assoc]

/-- All lines of `cs`, line feeds included, put in front of the characters `line` that are already
read (latest first). -/
def linesFrom (line : List Char) : List Char → List (List Char)
  | [] => if line.isEmpty then [] else [line.reverse]
  | c :: cs => if c = '\n' then (c :: line).reverse :: linesFrom [] cs else linesFrom (c :: line) cs

/-- The lines of a text, each with the line feed that ends it; no line follows the last line
feed. -/
def lines (cs : List Char) : List (List Char) := linesFrom [] cs

theorem flatten_linesFrom (line cs : List Char) :
    (linesFrom line cs).flatten = line.reverse ++ cs := by
  induction cs generalizing line with
  | nil => cases line <;> simp [linesFrom]
  | cons c cs ih => by_cases h : c = '\n' <;> simp [linesFrom, h, ih]

/-- Nothing of the text is lost. -/
theorem flatten_lines (cs : List Char) : (lines cs).flatten = cs := flatten_linesFrom [] cs

/-- Characters that can end a line. -/
def isLineEnd (c : Char) : Bool := c == '\n' || c == '\r'

/-- A line without its line feeds and carriage returns at the end. -/
def dropLineEnd (line : List Char) : List Char := (line.reverse.dropWhile isLineEnd).reverse

/-- A line without one line feed at its end and one carriage return before that. -/
def dropTerminator (line : List Char) : List Char :=
  match line.reverse with
  | '\n' :: '\r' :: rest => rest.reverse
  | '\n' :: rest => rest.reverse
  | _ => line

/-- The text of line `number` (from one), if there is such a line. -/
def lineText? (cs : List Char) (number : Nat) : Option (List Char) :=
  ((lines cs)[number - 1]?).map dropTerminator

/-- Line and column, both from one: walks `offset` bytes through `cs`, starting at the given
position.  A character counts only when the offset lies at or beyond its end. -/
def locate (offset line column : Nat) : List Char → Nat × Nat
  | [] => (line, column)
  | c :: cs =>
    if offset < c.utf8Size then (line, column)
    else if c = '\n' then locate (offset - c.utf8Size) (line + 1) 1 cs
    else locate (offset - c.utf8Size) line (column + 1) cs

/-- Line and column of a byte offset.  Offsets beyond the text are taken as its end. -/
def location (cs : List Char) (offset : Nat) : Nat × Nat := locate offset 1 1 cs

/-- The characters between two byte offsets. -/
def sliceFrom (start stop : Nat) : List Char → List Char
  | [] => []
  | c :: cs =>
    let rest := sliceFrom (start - c.utf8Size) (stop - c.utf8Size) cs
    if start = 0 ∧ 0 < stop then c :: rest else rest

/-- The text that a span covers. -/
def slice (span : Span) (text : String) : String :=
  String.ofList (sliceFrom span.start span.stop text.toList)

end ObjLang.Source
