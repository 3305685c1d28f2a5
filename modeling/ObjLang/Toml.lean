import ObjLang.Toml.Value

/-!
# ObjLang.Toml — settings documents

A document is a list of lines, each a key with a value or a header, which together define a table.
A document is refused as a whole if a line has no meaning or gives a key a second meaning.
-/

namespace ObjLang.Toml

/-- A line of a document. -/
inductive Line where
  | pair (path : List String) (key : String) (v : Value)
  | header (path : List String) (key : String)
  | itemHeader (path : List String) (key : String)
  | blank

namespace Reader

/-- What may follow on a line: space, a comment, and the end of the line or of the text. -/
def lineEnd : Reader Unit := do
  space
  let _ ← accepts comment
  if !(← get).isEmpty then newline

/-- A line. -/
def line : Reader Line := do
  space
  if ← accepts (text "[[") then
    let (path, k) ← key
    text "]]"
    lineEnd
    return .itemHeader path k
  else if ← accepts (char '[') then
    let (path, k) ← key
    char ']'
    lineEnd
    return .header path k
  else if ← accepts (do check !(← get).isEmpty; lineEnd) then
    return .blank
  else
    let (path, k, v) ← pair (value (maxLevels - 1))
    lineEnd
    return .pair path k v

/-- The lines of a text. -/
def lines : Reader (List Line) := do
  let _ ← accepts (char '\ufeff')
  let all ← many line
  space
  check (← get).isEmpty
  return all

end Reader

/-- A table with the header under which further lines stand. -/
structure Document where
  table : Table
  header : List String

namespace Document

/-- Adds a line. -/
def add (d : Document) : Line → Option Document
  | .pair path k v => do
    let table ← Table.changeAt .implicit (·.insert path k v) d.header d.table
    return { d with table }
  | .header path k => do return ⟨← d.table.openTable path k, path ++ [k]⟩
  | .itemHeader path k => do return ⟨← d.table.openItem path k, path ++ [k]⟩
  | .blank => some d

end Document

/-- The table that a text defines. -/
def parse? (s : String) : Option Table := do
  let (all, _) ← Reader.lines.run s.toList
  let d ← all.foldlM Document.add ⟨⟨.header, []⟩, []⟩
  return d.table

/-! ### Settings -/

/-- The text under a key; a missing key gives the default. -/
def Table.string? (t : Table) (key : String) (default : String) : Option String :=
  match t.get? key with
  | none => some default
  | some (.value (.string s)) => some s
  | some _ => none

/-- The number under a key, which must not be negative and be below a limit; a missing key gives
the default. -/
def Table.nat? (t : Table) (key : String) (limit : Nat) (default : Nat) : Option Nat :=
  match t.get? key with
  | none => some default
  | some (.value (.integer i)) => if 0 ≤ i ∧ i < limit then some i.toNat else none
  | some _ => none

/-- Why settings cannot be had from a document. -/
inductive ReadError (Fault : Type) where
  /-- It is no document, or a value does not fit the setting. -/
  | unreadable
  /-- The settings are not allowed. -/
  | fault (f : Fault)

/-- Reads settings from a document and accepts them unless they have a fault. -/
def readSettings {α Fault : Type} (ofTable? : Table → Option α) (fault? : α → Option Fault)
    (s : String) : Except (ReadError Fault) α :=
  match (parse? s).bind ofTable? with
  | none => .error .unreadable
  | some a =>
    match fault? a with
    | some f => .error (.fault f)
    | none => .ok a

end ObjLang.Toml
