import ObjLang.Diagnostic

/-!
# ObjLang.Diagnostic.Render — diagnostics as plain text

Under a head line stand the place, the source line of the label, and a line with carets under the
labelled characters and the text of the label.  Tabs are widened to the next multiple of four
columns, and control characters take no column.  Notes follow, and an empty line ends the text.
A label is shown on the line in which it starts.
-/

namespace ObjLang.Diagnostic

/-- Distance between two tab stops. -/
def tabStop : Nat := 4

/-- Columns that a character takes when it starts at a column. -/
def columns (column : Nat) (c : Char) : Nat :=
  if c = '\t' then tabStop - column % tabStop
  else if c.toNat < 32 ∨ c.toNat = 127 then 0
  else 1

/-- The characters of a line with their byte offsets in it and the columns that they take. -/
def metrics (offset column : Nat) : List Char → List (Nat × Nat × Char)
  | [] => []
  | c :: cs =>
    (offset, columns column c, c) :: metrics (offset + c.utf8Size) (column + columns column c) cs

/-- Characters dropped at the end of a shown line. -/
def isHiddenEnd (c : Char) : Bool := c == '\n' || c == '\r' || c == '\x00'

/-- The line that starts at the given line number, as it is shown. -/
def shownLine (text : List Char) (line : Nat) : List Char :=
  (((Source.lines text)[line - 1]?.getD []).reverse.dropWhile isHiddenEnd).reverse

/-- Byte offset of the start of a line. -/
def lineStart (text : List Char) (line : Nat) : Nat :=
  Source.byteSize ((Source.lines text).take (line - 1)).flatten

/-- A line with its tabs widened. -/
def widened (line : List Char) : List Char :=
  (metrics 0 0 line).flatMap fun (_, width, c) => if c = '\t' then List.replicate width ' ' else [c]

/-- Carets under the bytes from `start` to `stop` of a line, which has one column more for its
end. -/
def carets (start stop : Nat) (line : List Char) : List Char :=
  let cells := metrics 0 0 line ++ [(Source.byteSize line, 1, '\x00')]
  cells.flatMap fun ((offset, width, c) : Nat × Nat × Char) =>
    if max start offset < min stop (offset + c.utf8Size) then List.replicate width '^'
    else if offset < stop then List.replicate width ' '
    else []

/-- The lines of a note, of which the first has a bullet. -/
def noteLines (margin : String) (note : String) : List String :=
  ((Source.lines note.toList).map Source.dropTerminator).zipIdx.map fun (line, i) =>
    margin ++ (if i = 0 then " = " else "   ") ++ String.ofList line

/-- The excerpt for a label in a file, after the given margin. -/
def excerpt (margin : String) (file : SourceFile) (l : Label) : List String :=
  let text := file.text.toList
  let (line, column) := Source.location text l.start
  let start := l.start - lineStart text line
  let stop := max (l.stop - lineStart text line) (start + 1)
  let shown := shownLine text line
  let number := toString line
  [ margin ++ " ┌─ " ++ file.name ++ ":" ++ number ++ ":" ++ toString column,
    margin ++ " │",
    "".pushn ' ' (margin.length - number.length) ++ number ++ " │ "
      ++ String.ofList (widened shown),
    margin ++ " │ " ++ String.ofList (carets start stop shown)
      ++ (if l.message.isEmpty then "" else " " ++ l.message) ]

/-- The head line. -/
def headLine (d : Diagnostic) : String :=
  let code := match d.code with
    | some c => if c.isEmpty then "" else "[" ++ c ++ "]"
    | none => ""
  d.severity.text ++ code ++ ": " ++ d.message

/-- The space for line numbers: as wide as the longest one. -/
def margin (files : List SourceFile) (d : Diagnostic) : String :=
  let width := ((located files d).map fun l => (toString (max l.startLine l.stopLine)).length).foldl
    max 0
  "".pushn ' ' width

/-- A diagnostic as plain text. -/
def render (files : List SourceFile) (d : Diagnostic) : String :=
  let m := margin files d
  let excerpts := d.labels.flatMap fun l =>
    match files[l.file]? with
    | some f => excerpt m f l
    | none => []
  let border := if d.notes.isEmpty ∨ excerpts.isEmpty then [] else [m ++ " │"]
  let all := headLine d :: excerpts ++ border ++ d.notes.flatMap (noteLines m)
  String.join (all.map (· ++ "\n")) ++ "\n"

end ObjLang.Diagnostic
