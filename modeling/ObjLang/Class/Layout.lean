import ObjLang.CheckError
import ObjLang.Env

/-!
# ObjLang.Class.Layout — fields and method slots of one class

An object is a row of machine words: the position of its class in the dispatch table, then its
fields.  A class keeps the fields and the method slots of its superclass and adds its own behind
them; a method that is defined again keeps its slot, which then leads to the new definition.

Beside the rows of fields and of method slots a layout keeps the positions of their names.  Both are
copied from the superclass and extended together.
-/

namespace ObjLang

/-- Bytes of a machine word. -/
def wordSize : Nat := 4

/-- The name of the method that runs on a new object. -/
def initMethod : String := "__init__"

/-- The name in generated code of a method of a class. -/
def methodTarget (className method : String) : String := className ++ "$" ++ method

/-- A field in a layout. -/
structure FieldLayout where
  name : String
  ty : Ty
  init : Literal
  /-- The class that declares it. -/
  owner : String
deriving DecidableEq

/-- A method slot in a layout. -/
structure MethodEntry where
  name : String
  /-- The generated function that the slot leads to. -/
  target : String
  /-- The class whose definition that is. -/
  owner : String
deriving DecidableEq

/-- Rows in order, with the position of each name. -/
structure Rows (α : Type) where
  list : List α
  index : Bindings Nat

namespace Rows

variable {α : Type}

/-- Whether there is a row of a name. -/
def has (r : Rows α) (name : String) : Bool := (List.lookup name r.index).isSome

/-- Adds a row behind the others. -/
def push (r : Rows α) (name : String) (row : α) : Rows α :=
  ⟨r.list ++ [row], r.index.insert name r.list.length⟩

/-- Puts a row in the place of the one of its name, or behind the others if there is none. -/
def put (r : Rows α) (name : String) (row : α) : Rows α :=
  match List.lookup name r.index with
  | some i => ⟨r.list.set i row, r.index⟩
  | none => r.push name row

end Rows

/-- The layout of a class. -/
structure ClassLayout where
  name : String
  superclass : Option String
  /-- Fields in order, inherited ones first. -/
  fields : List FieldLayout
  /-- The position of each field name. -/
  fieldIndex : Bindings Nat
  /-- Method slots in order, inherited ones first. -/
  methods : List MethodEntry
  /-- The slot of each method name. -/
  methodSlot : Bindings Nat
  /-- Position of slot zero in the dispatch table. -/
  vtableBase : Nat
  span : Span

namespace ClassLayout

/-- The layout of the root class: no field, and one slot for a method that does nothing. -/
def root : ClassLayout where
  name := rootClass
  superclass := none
  fields := []
  fieldIndex := []
  methods := [⟨initMethod, methodTarget rootClass initMethod, rootClass⟩]
  methodSlot := [(initMethod, 0)]
  vtableBase := 0
  span := default

/-- The fields with their positions. -/
def fieldRows (c : ClassLayout) : Rows FieldLayout := ⟨c.fields, c.fieldIndex⟩

/-- The method entries with their slots. -/
def methodRows (c : ClassLayout) : Rows MethodEntry := ⟨c.methods, c.methodSlot⟩

/-- Position of a field. -/
def fieldIndex? (c : ClassLayout) (name : String) : Option Nat := List.lookup name c.fieldIndex

/-- Position of a method slot. -/
def methodSlot? (c : ClassLayout) (name : String) : Option Nat := List.lookup name c.methodSlot

/-- A field with its position. -/
def field? (c : ClassLayout) (name : String) : Option (Nat × FieldLayout) := do
  let i ← c.fieldIndex? name
  return (i, ← c.fields[i]?)

/-- A method with its slot. -/
def method? (c : ClassLayout) (name : String) : Option (Nat × MethodEntry) := do
  let i ← c.methodSlot? name
  return (i, ← c.methods[i]?)

/-- The generated function that a method name leads to. -/
def target? (c : ClassLayout) (name : String) : Option String := (c.method? name).map (·.2.target)

/-- Machine words of an instance. -/
def words (c : ClassLayout) : Nat := c.fields.length + 1

/-- Byte offset of the field at a position. -/
def fieldOffset (index : Nat) : Nat := wordSize * (index + 1)

/-- First position in the dispatch table after the slots of this class. -/
def vtableEnd (c : ClassLayout) : Nat := c.vtableBase + c.methods.length

/-! ### Extending a layout -/

/-- The type that a written type names. -/
def annotated (isClass : String → Bool) (written : Ident) : Except CheckError Ty :=
  match Ty.ofName isClass written.name with
  | .ok ty => .ok ty
  | .error _ => .error ⟨.undefinedType written.name, written.span⟩

/-- Adds fields declared in class `owner` behind `fields`; `methods` are the inherited slots, whose
names are taken. -/
def addFields (isClass : String → Bool) (owner : String) (methods : Rows MethodEntry)
    (fields : Rows FieldLayout) : List VarDef → Except CheckError (Rows FieldLayout)
  | [] => .ok fields
  | d :: ds =>
    let name := d.var.name.name
    if fields.has name || methods.has name then
      .error ⟨.duplicateField owner name, d.var.name.span⟩
    else do
      let ty ← annotated isClass d.var.type
      addFields isClass owner methods (fields.push name ⟨name, ty, d.init, owner⟩) ds

/-- Adds methods defined in class `owner`, each in the slot of its name or in a new one; `own` are
the names of those added before. -/
def addMethods (owner : String) (fields : Rows FieldLayout) (own : List String)
    (methods : Rows MethodEntry) : List FunDef → Except CheckError (Rows MethodEntry)
  | [] => .ok methods
  | d :: ds =>
    let name := d.name.name
    if own.contains name then .error ⟨.duplicateIdentifier name, d.name.span⟩
    else if fields.has name then .error ⟨.duplicateField owner name, d.name.span⟩
    else
      addMethods owner fields (name :: own)
        (methods.put name ⟨name, methodTarget owner name, owner⟩) ds

/-- The layout of a class definition whose superclass has layout `parent`, with its slots at
`base`. -/
def extend (isClass : String → Bool) (parent : ClassLayout) (base : Nat) (d : ClassDef) :
    Except CheckError ClassLayout := do
  let name := d.name.name
  let fields ← addFields isClass name parent.methodRows parent.fieldRows d.fields
  let methods ← addMethods name fields [] parent.methodRows d.methods
  return {
    name
    superclass := some parent.name
    fields := fields.list
    fieldIndex := fields.index
    methods := methods.list
    methodSlot := methods.index
    vtableBase := base
    span := d.span }

end ClassLayout

end ObjLang
