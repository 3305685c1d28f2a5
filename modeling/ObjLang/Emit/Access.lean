import ObjLang.Check
import ObjLang.Code.Builder

/-!
# ObjLang.Emit.Access — code that reaches variables, cells and objects

A module variable is a global; every other variable is a local of the generated function.  The slot
of a captured variable, and of each alias of it, holds the address of a one-word cell.  Objects and
cells come from one allocator, which hands out the heap upwards and never takes anything back.

Names that the generator makes up start with `#`, which no name in a source text does.
-/

namespace ObjLang.Emit

open Code (Instr InternalError FunctionBuilder ModuleBuilder)

/-! ### Names that the generator makes up -/

/-- The allocator: from a number of words to an address. -/
def allocName : String := "#alloc"

/-- The global that holds the next free address. -/
def heapName : String := "#heap"

/-- The guard against empty references: from an address to itself. -/
def checkInitName : String := "#check_init"

/-- The entry. -/
def entryName : String := "#entry"

/-- The local that takes the values of expression statements. -/
def scratchName : String := "#scratch"

/-- The local that holds an object under construction. -/
def newName : String := "#new"

/-- The local that holds a cell while a parameter moves into it. -/
def cellName : String := "#cell"

/-! ### State -/

/-- The function and the module being built. -/
structure State where
  function : FunctionBuilder
  module : ModuleBuilder

end Emit

/-- A step of code generation. -/
abbrev EmitM (α : Type) := StateT Emit.State (Except Code.InternalError) α

namespace Emit

open Code (Instr InternalError FunctionBuilder ModuleBuilder)

/-- Stops code generation. -/
def stop {α : Type} (e : InternalError) : EmitM α := throw e

/-- Declares a local of the function. -/
def addLocal (name : String) : EmitM Unit :=
  modify fun s => { s with function := s.function.addLocal name }

/-- Makes a label. -/
def newLabel (start : String) : EmitM String := do
  let s ← get
  let (name, function) := s.function.newLabel start
  set { s with function }
  return name

/-- Makes a local. -/
def newTemp (start : String) : EmitM String := do
  let s ← get
  let (name, function) := s.function.newTemp start
  set { s with function }
  return name

/-- The signature with a number of parameters. -/
def signature (arity : Nat) : EmitM String := do
  modify fun s => { s with module := s.module.signature arity }
  return Code.signatureName arity

/-! ### Variables and cells -/

/-- The word that a number stands for, taken modulo the number of words. -/
def word (n : Nat) : Int32 := Int32.ofNat n

/-- Asks the allocator for words; leaves an address. -/
def allocWords (n : Nat) : List Instr := [.const (word n), .call allocName]

/-- The variable that a place of the tree is bound to. -/
def bound (p : CheckedProgram) (binding : Option VarId) (name : String) : EmitM Variable :=
  match binding with
  | some id => pure (p.var id)
  | none => stop (.unresolvedVariable name)

/-- Leaves the value of a variable. -/
def loadVar (v : Variable) : List Instr :=
  if v.isGlobal then [.globalGet v.name]
  else if v.isIndirect then [.localGet v.name, .load 0]
  else [.localGet v.name]

/-- Puts the value that `value` leaves into a variable. -/
def storeVar (v : Variable) (value : List Instr) : List Instr :=
  if v.isGlobal then value ++ [.globalSet v.name]
  else if v.isIndirect then [.localGet v.name] ++ value ++ [.store 0]
  else value ++ [.localSet v.name]

/-- Leaves the address of the cell of a variable, for a nested function. -/
def loadCell (v : Variable) : EmitM (List Instr) :=
  if v.isGlobal || !v.isIndirect then stop (.captureWithoutCell v.name)
  else pure [.localGet v.name]

/-- Leaves the cell addresses of variables. -/
def loadCells (p : CheckedProgram) (ids : List VarId) : EmitM (List Instr) := do
  return (← ids.mapM fun id => loadCell (p.var id)).flatten

/-- Moves the value of a parameter into a new cell, whose address takes its place. -/
def boxParam (v : Variable) : List Instr :=
  allocWords 1
    ++ [.localSet cellName, .localGet cellName, .localGet v.name, .store 0, .localGet cellName,
      .localSet v.name]

/-- Gives a local variable its first value, in a new cell if it is captured. -/
def initLocal (v : Variable) (init : Literal) : List Instr :=
  if v.refed then allocWords 1 ++ [.localSet v.name, .localGet v.name, .const init.word, .store 0]
  else [.const init.word, .localSet v.name]

/-! ### Objects -/

/-- The type of an expression. -/
def tyOf (e : Expr) : EmitM Ty :=
  match e.ty with
  | some ty => pure ty
  | none => stop .untyped

/-- The layout of a class. -/
def layoutOf (p : CheckedProgram) (className : String) : EmitM ClassLayout :=
  match p.classes.get? className with
  | some c => pure c
  | none => stop (.noLayout className)

/-- The layout of the class of a receiver. -/
def receiverLayout (p : CheckedProgram) (object : Expr) : EmitM ClassLayout := do
  match ← tyOf object with
  | .object c => layoutOf p c
  | ty => stop (.memberOfPlain ty)

/-- The byte offset of a field of a receiver. -/
def fieldOffset (p : CheckedProgram) (object : Expr) (field : String) : EmitM Nat := do
  let c ← receiverLayout p object
  match c.field? field with
  | some (i, _) => return ClassLayout.fieldOffset i
  | none => stop (.noField c.name field)

/-- The slot of a method of a receiver. -/
def slotOf (p : CheckedProgram) (object : Expr) (method : String) : EmitM Nat := do
  let c ← receiverLayout p object
  match c.method? method with
  | some (slot, _) => return slot
  | none => stop (.noMethod c.name method)

/-- Puts the first values of fields, of which the first has the given position. -/
def initFields (index : Nat) : List FieldLayout → List Instr
  | [] => []
  | f :: rest =>
    [.localGet newName, .const f.init.word, .store (ClassLayout.fieldOffset index)]
      ++ initFields (index + 1) rest

/-- Leaves a new object of a class: it is allocated, gets its place in the dispatch table and its
field values, and the method for new objects runs on it. -/
def construct (p : CheckedProgram) (className : String) : EmitM (List Instr) := do
  let c ← layoutOf p className
  match c.target? initMethod with
  | none => stop (.noInit className)
  | some init =>
    addLocal newName
    return allocWords c.words
      ++ [.localSet newName, .localGet newName, .const (word c.vtableBase), .store 0]
      ++ initFields 0 c.fields
      ++ [.localGet newName, .call init, .drop, .localGet newName]

end Emit

end ObjLang
