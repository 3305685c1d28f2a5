import ObjLang.Class.Layout

/-!
# ObjLang.Class.Table — the layouts of all classes and the dispatch table

Classes are laid out breadth first from the root class, so a class always comes after its
superclass, and classes with one superclass follow each other as in the source.  A class that is
never reached has a superclass chain that runs in a circle.

The dispatch table holds the method slots of all classes, class after class.
-/

namespace ObjLang

/-- The layouts of a program, the root class first. -/
structure ClassTable where
  layouts : List ClassLayout

namespace ClassTable

/-- The layout of a class. -/
def get? (t : ClassTable) (name : String) : Option ClassLayout :=
  t.layouts.find? (·.name == name)

/-- Whether a name is that of a class. -/
def contains (t : ClassTable) (name : String) : Bool := t.layouts.any (·.name == name)

/-- Number of classes, the root class included. -/
def size (t : ClassTable) : Nat := t.layouts.length

/-- Classes with their superclasses. -/
def hierarchy (t : ClassTable) : Hierarchy :=
  t.layouts.filterMap fun c => c.superclass.map fun s => (c.name, s)

/-! ### Building the table -/

/-- Names that no class can have. -/
def reservedNames : List String := [rootClass, "int", "bool", "None"]

/-- Refuses a class name that is reserved or among `seen`. -/
def checkNames (seen : List String) : List ClassDef → Except CheckError Unit
  | [] => .ok ()
  | d :: ds =>
    let name := d.name.name
    if reservedNames.contains name || seen.contains name then
      .error ⟨.duplicateIdentifier name, d.name.span⟩
    else checkNames (name :: seen) ds

/-- Refuses a class whose superclass is neither the root class nor among `names`. -/
def checkSuperclasses (names : List String) : List ClassDef → Except CheckError Unit
  | [] => .ok ()
  | d :: ds =>
    let name := d.superclass.name
    if name = rootClass || names.contains name then checkSuperclasses names ds
    else .error ⟨.unknownSuperclass d.name.name name, d.superclass.span⟩

/-- Number of method slots of some layouts. -/
def slotCount (layouts : List ClassLayout) : Nat := (layouts.flatMap (·.methods)).length

/-- The layout of a class that is laid out before its subclasses. -/
def layoutOf (t : ClassTable) (name : String) : Except CheckError ClassLayout :=
  match t.get? name with
  | some c => .ok c
  | none => .error ⟨.inheritanceCycle name, default⟩

/-- A walk through the classes: the layouts so far, the position of the next slot, and the names of
the classes whose subclasses are still to come. -/
structure Walk where
  table : ClassTable
  nextBase : Nat
  queue : List String

namespace Walk

/-- The start of a walk, at the root class. -/
def start : Walk := ⟨⟨[.root]⟩, ClassLayout.root.methods.length, [rootClass]⟩

/-- Lays out a class whose superclass is `parent`. -/
def lay (isClass : String → Bool) (parent : String) (w : Walk) (d : ClassDef) :
    Except CheckError Walk := do
  let p ← w.table.layoutOf parent
  let c ← ClassLayout.extend isClass p w.nextBase d
  return {
    table := ⟨w.table.layouts ++ [c]⟩
    nextBase := w.nextBase + c.methods.length
    queue := w.queue ++ [d.name.name] }

/-- Lays out the subclasses of the classes in the queue, one after the other. -/
def run (classes : List ClassDef) (isClass : String → Bool) :
    Nat → Walk → Except CheckError ClassTable
  | 0, w => .ok w.table
  | n + 1, w =>
    match w.queue with
    | [] => .ok w.table
    | parent :: queue => do
      let kids := classes.filter (·.superclass.name == parent)
      let w ← kids.foldlM (lay isClass parent) { w with queue }
      run classes isClass n w

end Walk

/-- The layouts of a list of classes.  Each class has one superclass and is therefore laid out at
most once, which bounds the number of steps. -/
def resolve (classes : List ClassDef) : Except CheckError ClassTable := do
  checkNames [] classes
  let names := classes.map (·.name.name)
  checkSuperclasses names classes
  let isClass := fun name => name == rootClass || names.contains name
  let table ← Walk.run classes isClass (classes.length + 1) .start
  match classes.find? fun d => !table.contains d.name.name with
  | some d => throw ⟨.inheritanceCycle d.name.name, d.name.span⟩
  | none => return table

end ClassTable

/-! ### The dispatch table -/

/-- The dispatch table: generated functions, and the stretch of each class. -/
structure Vtable where
  entries : List String
  segments : List (String × Nat × Nat)

namespace Vtable

/-- Puts the slots of the layouts one after the other, the first at position `start`. -/
def segmentsFrom (start : Nat) : List ClassLayout → List (String × Nat × Nat)
  | [] => []
  | c :: cs =>
    (c.name, start, start + c.methods.length) :: segmentsFrom (start + c.methods.length) cs

/-- The stretch of a class: its first position and the one after its last. -/
def segment? (t : Vtable) (className : String) : Option (Nat × Nat) :=
  List.lookup className t.segments

/-- The function in a slot of the class whose stretch starts at `base`. -/
def lookup? (t : Vtable) (base slot : Nat) : Option String := t.entries[base + slot]?

end Vtable

/-- The dispatch table of a program. -/
def ClassTable.vtable (t : ClassTable) : Vtable where
  entries := t.layouts.flatMap fun c => c.methods.map (·.target)
  segments := Vtable.segmentsFrom 0 t.layouts

end ObjLang
