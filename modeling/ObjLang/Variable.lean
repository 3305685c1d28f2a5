import ObjLang.Tree

/-!
# ObjLang.Variable — records of variables

Every variable of a program has one record, and every use of an outer variable in a nested function
has one of its own, an alias.  A captured variable lives in a cell on the heap, so that all
functions that use it see one value; its aliases hold the address of that cell.
-/

namespace ObjLang

/-- Where a variable is declared. -/
inductive VarKind where
  /-- At module level. -/
  | global
  /-- As a parameter. -/
  | param
  /-- In the body of a function. -/
  | local
  /-- Nowhere: an alias of a variable of an enclosing function. -/
  | capture (origin : VarId)
deriving DecidableEq, Inhabited

/-- What is known of a variable. -/
structure Variable where
  name : String
  ty : SlotTy
  kind : VarKind
  /-- Some nested function captures this variable, which therefore lives in a cell. -/
  refed : Bool
  /-- Assignments through this record are allowed. -/
  writable : Bool
  /-- The function it belongs to; none at module level. -/
  owner : Option FunId
  span : Span
deriving DecidableEq, Inhabited

namespace Variable

/-- Whether reads and writes go through a cell. -/
def isIndirect (v : Variable) : Bool := v.ty.boxed || v.refed

/-- Declared at module level. -/
def isGlobal (v : Variable) : Bool := v.kind == .global

/-- An alias. -/
def isCapture (v : Variable) : Bool :=
  match v.kind with
  | .capture _ => true
  | _ => false

/-- The variable after a nested function captures it.  An alias already holds a cell address, so
nothing changes for it, nor for a module variable. -/
def captured (v : Variable) : Variable :=
  match v.kind with
  | .local | .param => { v with refed := true }
  | _ => v

end Variable

/-- All variables of a program, in the order of their numbers. -/
structure Variables where
  items : Array Variable := #[]

namespace Variables

/-- Number of variables. -/
def size (vs : Variables) : Nat := vs.items.size

/-- The record of a number, if it is in use. -/
def get? (vs : Variables) (id : VarId) : Option Variable := vs.items[id.index]?

/-- The record of a number in use. -/
def get (vs : Variables) (id : VarId) : Variable := (vs.get? id).getD default

/-- The next free number. -/
def nextId (vs : Variables) : VarId := ⟨vs.items.size⟩

/-- Adds a record under the next free number. -/
def push (vs : Variables) (v : Variable) : Variables := ⟨vs.items.push v⟩

/-- Notes that a nested function captures a variable. -/
def markCaptured (vs : Variables) (id : VarId) : Variables :=
  ⟨vs.items.modify id.index Variable.captured⟩

/-- All variables with their numbers. -/
def toList (vs : Variables) : List (VarId × Variable) :=
  vs.items.toList.zipIdx.map fun (v, i) => (⟨i⟩, v)

theorem get?_push (vs : Variables) (v : Variable) (id : VarId) :
    (vs.push v).get? id = if id = vs.nextId then some v else vs.get? id := by
  obtain ⟨i⟩ := id
  simp only [get?, push, nextId, Array.getElem?_push, VarId.mk.injEq]

theorem get?_markCaptured (vs : Variables) (id other : VarId) :
    (vs.markCaptured id).get? other
      = if id = other then (vs.get? other).map Variable.captured else vs.get? other := by
  obtain ⟨i⟩ := id
  obtain ⟨j⟩ := other
  simp only [get?, markCaptured, Array.getElem?_modify, VarId.mk.injEq]

end Variables

end ObjLang
