import ObjLang.Code.Module

/-!
# ObjLang.Code.Text — modules as text

One item a line; instructions are indented by the depth of open regions.  An `else` or `end` stands
one level further out than the instructions before it, but never outside the function body.
-/

namespace ObjLang.Code

/-- The space before a line at a level. -/
def indentation (level : Nat) : String := "".pushn ' ' (2 * level)

/-- A number of words in a parameter list. -/
def words (n : Nat) : String := String.join (List.replicate n " i32")

/-- A parameter list without names, left out if it is empty. -/
def paramsText (n : Nat) : String := if n = 0 then "" else " (param" ++ words n ++ ")"

/-- The lines of a function body, of which the next stands at `level` and none further out than
`base`. -/
def bodyLines (base level : Nat) : List Instr → List String
  | [] => []
  | i :: rest =>
    let closes := i = .orElse ∨ i = .endRegion
    let here := if closes then max (level - 1) base else level
    let next := if i.opensRegion ∨ i = .orElse then here + 1 else here
    (indentation here ++ i.text) :: bodyLines base next rest

/-- The lines of a function at a level. -/
def Func.lines (f : Func) (level : Nat) : List String :=
  let params := String.join (f.params.map fun p => " (param " ++ Instr.dollar p ++ " i32)")
  let locals := String.join (f.locals.map fun x => " (local " ++ Instr.dollar x ++ " i32)")
  [indentation level ++ "(func " ++ Instr.dollar f.name ++ params ++ " (result i32)" ++ locals]
    ++ bodyLines (level + 1) (level + 1) f.body
    ++ [indentation level ++ ")"]

/-- Lines as a text in which each is ended. -/
def joinLines (lines : List String) : String := String.join (lines.map (· ++ "\n"))

/-- The text of a function as a module shows it. -/
def Func.text (f : Func) : String := joinLines (f.lines 1)

/-- A text between quotation marks. -/
def quoted (s : String) : String := "\"" ++ s ++ "\""

/-- The line of an import. -/
def Import.line (i : Import) : String :=
  "  (import " ++ quoted i.module ++ " " ++ quoted i.field ++ " (func " ++ Instr.dollar i.name
    ++ paramsText i.params ++ (if i.hasResult then " (result i32)" else "") ++ "))"

/-- The line of the imported memory. -/
def MemoryImport.line (m : MemoryImport) : String :=
  "  (import " ++ quoted m.module ++ " " ++ quoted m.field ++ " (memory " ++ toString m.minPages
    ++ "))"

/-- The line of a signature. -/
def FuncType.line (t : FuncType) : String :=
  "  (type " ++ Instr.dollar t.name ++ " (func" ++ paramsText t.params ++ " (result i32)))"

/-- The line of a global. -/
def Global.line (g : Global) : String :=
  "  (global " ++ Instr.dollar g.name ++ (if g.mutable then " (mut i32)" else " i32")
    ++ " (i32.const " ++ toString g.init.toInt ++ "))"

/-- The lines of the table: its size, and its entries if there are any. -/
def tableLines (table : List String) : List String :=
  ("  (table " ++ toString table.length ++ " funcref)") ::
    if table.isEmpty then []
    else ["  (elem (i32.const 0)" ++ String.join (table.map fun f => " " ++ Instr.dollar f) ++ ")"]

/-- The line of the entry. -/
def Export.line (e : Export) : String :=
  "  (export " ++ quoted e.name ++ " (func " ++ Instr.dollar e.function ++ "))"

/-- The text of a module. -/
def Module.text (m : Module) : String :=
  joinLines
    (["(module"] ++ m.imports.map Import.line ++ [m.memory.line] ++ m.types.map FuncType.line
      ++ m.globals.map Global.line ++ tableLines m.table ++ m.functions.flatMap (Func.lines · 1)
      ++ [m.entry.line, ")"])

end ObjLang.Code
