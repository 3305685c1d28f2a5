/-!
# ObjLang.Ty — value types, storage types and assignability

`None` is the type of the empty reference, `object C` that of references to instances of `C` and
its subclasses.  A value of type `a` may stand where `b` is expected if the types are equal, if `a`
is `None` and `b` an object type, or if both are object types and the class of `a` descends from
that of `b`.
-/

namespace ObjLang

/-- The class that every class descends from. -/
def rootClass : String := "object"

/-- The type of a value. -/
inductive Ty where
  | int
  | bool
  | none
  | object (className : String)
deriving DecidableEq, Inhabited

/-- Why an annotation or an assignment is refused. -/
inductive TypeError where
  | mismatch (expected actual : String)
  | undefined (name : String)
deriving DecidableEq

/-- The wording of a type error. -/
def TypeError.message : TypeError → String
  | mismatch expected actual => "Type mismatch: expected " ++ expected ++ ", got " ++ actual
  | undefined name => "Invalid type annotation; there is no class named: " ++ name

namespace Ty

/-- The spelling of a type. -/
def text : Ty → String
  | int => "int"
  | bool => "bool"
  | none => "None"
  | object c => c

/-- Types of references to instances. -/
def isObject : Ty → Bool
  | object _ => true
  | _ => false

/-- Types that the empty reference belongs to. -/
def isNullable : Ty → Bool
  | object _ | none => true
  | _ => false

/-- The class of an object type. -/
def className? : Ty → Option String
  | object c => some c
  | _ => Option.none

/-- The type that an annotation names, where `isClass` tells the classes. -/
def ofName (isClass : String → Bool) (name : String) : Except TypeError Ty :=
  if name = "int" then .ok int
  else if name = "bool" then .ok bool
  else if name = "None" then .ok none
  else if isClass name then .ok (object name)
  else .error (.undefined name)

end Ty

/-- A value type together with how it is stored: directly, or in a cell on the heap. -/
structure SlotTy where
  ty : Ty
  boxed : Bool
deriving DecidableEq, Inhabited

namespace SlotTy

/-- Stored directly. -/
def plain (ty : Ty) : SlotTy := ⟨ty, false⟩

/-- Stored in a cell. -/
def inCell (ty : Ty) : SlotTy := ⟨ty, true⟩

/-- Equal value types, whatever the storage. -/
def sameType (a b : SlotTy) : Bool := a.ty == b.ty

/-- The spelling of a storage type. -/
def text (s : SlotTy) : String := if s.boxed then "box<" ++ s.ty.text ++ ">" else s.ty.text

end SlotTy

/-- Classes with their superclasses.  Nothing is assumed: names may be missing and chains may
run in a circle. -/
abbrev Hierarchy := List (String × String)

namespace Hierarchy

/-- The superclass of a class, if the class is listed with one. -/
def superclass? (h : Hierarchy) (c : String) : Option String := List.lookup c h

/-- The entries of classes that are not among `seen`. -/
def unseen (h : Hierarchy) (seen : List String) : Hierarchy := h.filter fun e => !seen.contains e.1

theorem length_unseen_lt {h : Hierarchy} {a c : String} {seen : List String}
    (hc : h.superclass? a = some c) (ha : seen.contains a = false) :
    (h.unseen (a :: seen)).length < (h.unseen seen).length := by
  obtain ⟨l₁, l₂, heq, -⟩ := List.lookup_eq_some_iff.1 hc
  have hmem : (a, c) ∈ h.unseen seen := by
    refine List.mem_filter.2 ⟨?_, by simp only [ha, Bool.not_false]⟩
    rw [heq]
    exact List.mem_append_right _ List.mem_cons_self
  have hunseen : h.unseen (a :: seen) = (h.unseen seen).filter fun e => !(e.1 == a) := by
    rw [unseen, unseen, List.filter_filter]
    refine List.filter_congr fun e _ => ?_
    rw [List.contains_cons, Bool.not_or]
  rw [hunseen, List.length_filter_lt_length_iff_exists]
  exact ⟨(a, c), hmem, by simp⟩

/-- Whether `b` is met on the way up from `a`.  The classes met before are `seen`: a way that comes
to one of them again runs in a circle, and ends there. -/
def climbs (h : Hierarchy) (b : String) (seen : List String) (a : String) : Bool :=
  if a = b then true
  else if _ha : seen.contains a then false
  else
    match _hc : h.superclass? a with
    | some c => h.climbs b (a :: seen) c
    | none => false
termination_by (h.unseen seen).length
decreasing_by exact length_unseen_lt _hc (by simpa using _ha)

/-- Whether `a` is `b` or descends from it. -/
def isSubclass (h : Hierarchy) (a b : String) : Bool := h.climbs b [] a

/-- Whether a value of type `a` may be stored where `b` is expected. -/
def isAssignable (h : Hierarchy) (a b : Ty) : Bool :=
  if a = b then true
  else
    match a, b with
    | .none, .object _ => true
    | .object c, .object d => h.isSubclass c d
    | _, _ => false

/-- Refuses values of type `a` where `b` is expected, unless they are assignable. -/
def expectAssignable (h : Hierarchy) (a b : Ty) : Except TypeError Unit :=
  if h.isAssignable a b then .ok () else .error (.mismatch b.text a.text)

end Hierarchy

end ObjLang
