import ObjLang.Code.Instr
import ObjLang.Host

/-!
# ObjLang.Linked — modules with names and regions resolved

Functions, locals, globals and signatures are given by number, the imported functions before all
others, and control flow is by jumps to positions in the same function.
-/

namespace ObjLang

/-- A resolved instruction. -/
inductive Op where
  | const (value : Int32)
  | localGet (slot : Nat)
  | localSet (slot : Nat)
  | globalGet (index : Nat)
  | globalSet (index : Nat)
  | load (offset : Nat)
  | store (offset : Nat)
  | binary (op : WordOp)
  | eqz
  | call (function : Nat)
  | callIndirect (params : Nat)
  | drop
  | ret
  | unreachable
  | jump (target : Nat)
  | jumpIf (target : Nat)
  | jumpUnless (target : Nat)
deriving DecidableEq

/-- A resolved function. -/
structure LinkedFunction where
  name : String
  params : Nat
  /-- Number of parameters and locals. -/
  slots : Nat
  code : Array Op

/-- A resolved module. -/
structure LinkedModule where
  imports : Array HostFunction
  functions : Array LinkedFunction
  /-- First values of the globals. -/
  globals : Array Int32
  /-- The functions of the table, by number. -/
  table : Array Nat
  memoryPages : Nat
  entry : Nat
  /-- Whether the value of the entry is the result of the program. -/
  entryHasResult : Bool

namespace LinkedModule

/-- The host function of a number. -/
def import? (p : LinkedModule) (index : Nat) : Option HostFunction := p.imports[index]?

/-- The function of a number, if it is not imported. -/
def function? (p : LinkedModule) (index : Nat) : Option LinkedFunction :=
  if index < p.imports.size then none else p.functions[index - p.imports.size]?

/-- Number of parameters of a function, and whether it gives a word. -/
def signature? (p : LinkedModule) (index : Nat) : Option (Nat × Bool) :=
  match p.import? index with
  | some f => some (f.params, f.hasResult)
  | none => (p.function? index).map fun f => (f.params, true)

variable {p : LinkedModule} {i : Nat}

theorem signature?_host {f : HostFunction} (h : p.import? i = some f) :
    p.signature? i = some (f.params, f.hasResult) := by
  simp only [signature?, h]

theorem signature?_function {f : LinkedFunction} (h : p.import? i = none)
    (hf : p.function? i = some f) : p.signature? i = some (f.params, true) := by
  simp only [signature?, h, hf, Option.map_some]

end LinkedModule

end ObjLang
