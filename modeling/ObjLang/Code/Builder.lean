import ObjLang.Code.Module
import ObjLang.Ty

/-!
# ObjLang.Code.Builder — building functions and modules step by step

A function builder keeps the names of parameters and locals distinct and makes labels and
temporaries, numbered by one counter.  A module builder keeps one signature for each number of
parameters and refuses two functions of one name.
-/

namespace ObjLang.Code

/-- Why code generation stops.  Each is a defect of the generator or of a tree that was not
checked. -/
inductive InternalError where
  | noEntry
  | functionTwice (name : String)
  | parameterTwice (name function : String)
  | noLayout (className : String)
  | memberOfPlain (ty : Ty)
  | noField (className field : String)
  | noMethod (className method : String)
  | noInit (className : String)
  | unresolvedCall (name : String)
  | printWithoutArgument
  | printOfObject (className : String)
  | untyped
  | unresolvedVariable (name : String)
  | captureWithoutCell (name : String)
  | uncheckedFunction (name : String)
deriving DecidableEq

namespace InternalError

/-- The wording of a cause. -/
def text : InternalError → String
  | noEntry => "module has no entry export"
  | functionTwice name => "function '" ++ name ++ "' defined twice"
  | parameterTwice name f => "parameter '" ++ name ++ "' declared twice in '" ++ f ++ "'"
  | noLayout c => "class '" ++ c ++ "' has no layout"
  | memberOfPlain ty => "member access on non-object type '" ++ ty.text ++ "'"
  | noField c f => "class '" ++ c ++ "' has no field '" ++ f ++ "'"
  | noMethod c m => "class '" ++ c ++ "' has no method '" ++ m ++ "'"
  | noInit c => "class '" ++ c ++ "' has no __init__"
  | unresolvedCall name => "call of '" ++ name ++ "' was not resolved"
  | printWithoutArgument => "print without an argument"
  | printOfObject c => "print of a '" ++ c ++ "' object passed checking"
  | untyped => "expression reached codegen without a type"
  | unresolvedVariable name => "variable '" ++ name ++ "' was not resolved"
  | captureWithoutCell name => "variable '" ++ name ++ "' is captured but has no cell"
  | uncheckedFunction name => "function '" ++ name ++ "' was not checked"

/-- The wording with its head. -/
def message (e : InternalError) : String := "Internal compiler error: " ++ e.text

end InternalError

/-! ### Functions -/

/-- A function being built. -/
structure FunctionBuilder where
  name : String
  params : List String := []
  locals : List String := []
  body : Array Instr := #[]
  /-- The number of the next label or temporary. -/
  nextLabel : Nat := 0

namespace FunctionBuilder

/-- Whether a name is that of a parameter or a local. -/
def declares (b : FunctionBuilder) (name : String) : Bool :=
  b.params.contains name || b.locals.contains name

/-- Adds a parameter, whose name must be new. -/
def addParam (b : FunctionBuilder) (name : String) : Except InternalError FunctionBuilder :=
  if b.declares name then .error (.parameterTwice name b.name)
  else .ok { b with params := b.params ++ [name] }

/-- Adds a local; a name that is declared already stays as it is. -/
def addLocal (b : FunctionBuilder) (name : String) : FunctionBuilder :=
  if b.declares name then b else { b with locals := b.locals ++ [name] }

/-- Adds an instruction. -/
def emit (b : FunctionBuilder) (i : Instr) : FunctionBuilder := { b with body := b.body.push i }

/-- Adds instructions. -/
def emitAll (b : FunctionBuilder) (code : List Instr) : FunctionBuilder :=
  { b with body := b.body ++ code.toArray }

/-- A new label that starts with the given text. -/
def newLabel (b : FunctionBuilder) (start : String) : String × FunctionBuilder :=
  (start ++ toString b.nextLabel, { b with nextLabel := b.nextLabel + 1 })

/-- A new local that starts with the given text. -/
def newTemp (b : FunctionBuilder) (start : String) : String × FunctionBuilder :=
  let (name, b) := b.newLabel start
  (name, b.addLocal name)

/-- Number of instructions so far. -/
def position (b : FunctionBuilder) : Nat := b.body.size

/-- The function. -/
def build (b : FunctionBuilder) : Func := ⟨b.name, b.params, b.locals, b.body.toList⟩

end FunctionBuilder

/-! ### Modules -/

/-- The name of the signature with a number of parameters. -/
def signatureName (arity : Nat) : String := "#sig" ++ toString arity

/-- A module being built. -/
structure ModuleBuilder where
  memory : MemoryImport
  imports : List Import := []
  types : List FuncType := []
  globals : List Global := []
  table : List String := []
  functions : List Func := []
  entry : Option Export := none

namespace ModuleBuilder

/-- Adds an import. -/
def addImport (b : ModuleBuilder) (i : Import) : ModuleBuilder :=
  { b with imports := b.imports ++ [i] }

/-- Adds a global variable. -/
def addGlobal (b : ModuleBuilder) (name : String) (init : Int32) : ModuleBuilder :=
  { b with globals := b.globals ++ [⟨name, true, init⟩] }

/-- Adds the signature with a number of parameters, unless it is there. -/
def signature (b : ModuleBuilder) (arity : Nat) : ModuleBuilder :=
  if b.types.any (·.params == arity) then b
  else { b with types := b.types ++ [⟨signatureName arity, arity⟩] }

/-- Sets the table. -/
def setTable (b : ModuleBuilder) (table : List String) : ModuleBuilder := { b with table }

/-- Adds a function. -/
def addFunction (b : ModuleBuilder) (f : Func) : ModuleBuilder :=
  { b with functions := b.functions ++ [f] }

/-- Sets the entry. -/
def setEntry (b : ModuleBuilder) (e : Export) : ModuleBuilder := { b with entry := some e }

/-- The first name that is among `seen` or occurs a second time. -/
def firstRepeated (seen : List String) : List String → Option String
  | [] => none
  | n :: rest => if seen.contains n then some n else firstRepeated (n :: seen) rest

/-- The module, with its signatures in the order of their parameters. -/
def build (b : ModuleBuilder) : Except InternalError Module :=
  match b.entry with
  | none => .error .noEntry
  | some entry =>
    match firstRepeated [] (b.imports.map (·.name) ++ b.functions.map (·.name)) with
    | some name => .error (.functionTwice name)
    | none =>
      .ok {
        entry
        imports := b.imports
        memory := b.memory
        types := b.types.mergeSort (fun s t => s.params ≤ t.params)
        globals := b.globals
        table := b.table
        functions := b.functions }

end ModuleBuilder

end ObjLang.Code
