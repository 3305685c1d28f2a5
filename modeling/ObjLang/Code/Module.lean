import ObjLang.Code.Instr

/-!
# ObjLang.Code.Module — modules of stack code

A module imports host functions and a memory, and has signatures, globals, a table of functions for
indirect calls, functions, and one exported entry.
-/

namespace ObjLang.Code

/-- A host function that a module imports. -/
structure Import where
  /-- The host module it comes from, and its name there. -/
  module : String
  field : String
  /-- The name by which the code calls it. -/
  name : String
  params : Nat
  hasResult : Bool
deriving DecidableEq

/-- The imported memory. -/
structure MemoryImport where
  module : String
  field : String
  /-- The least size in pages. -/
  minPages : Nat
deriving DecidableEq

/-- A global variable. -/
structure Global where
  name : String
  mutable : Bool
  init : Int32
deriving DecidableEq

/-- A signature: a number of parameters, and one result. -/
structure FuncType where
  name : String
  params : Nat
deriving DecidableEq

/-- A function. -/
structure Func where
  name : String
  params : List String
  /-- Locals that start as zero. -/
  locals : List String
  body : List Instr
deriving DecidableEq

/-- Number of parameters. -/
def Func.arity (f : Func) : Nat := f.params.length

/-- The exported entry. -/
structure Export where
  name : String
  function : String
  /-- Whether the value of the entry is the result of the program. -/
  hasResult : Bool
deriving DecidableEq

/-- A module. -/
structure Module where
  imports : List Import
  memory : MemoryImport
  types : List FuncType
  globals : List Global
  table : List String
  functions : List Func
  entry : Export
deriving DecidableEq

namespace Module

/-- The first function of a name. -/
def function? (m : Module) (name : String) : Option Func := m.functions.find? (·.name == name)

/-- The first global of a name. -/
def global? (m : Module) (name : String) : Option Global := m.globals.find? (·.name == name)

/-- The first import of a name. -/
def import? (m : Module) (name : String) : Option Import := m.imports.find? (·.name == name)

/-- The first signature of a name. -/
def type? (m : Module) (name : String) : Option FuncType := m.types.find? (·.name == name)

end Module

end ObjLang.Code
