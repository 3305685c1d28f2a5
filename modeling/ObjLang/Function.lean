import ObjLang.Variable

/-!
# ObjLang.Function — records of functions and their captures

The captures of a nested function are the variables of enclosing functions that it, or a function
nested in it, uses.  Each becomes a parameter after the written ones and receives the address of a
cell.
-/

namespace ObjLang

/-- A captured variable. -/
structure Capture where
  name : String
  /-- The alias in the capturing function. -/
  inner : VarId
  /-- The variable, or alias, of an enclosing function that it stands for. -/
  origin : VarId
  /-- Declared nonlocal, so that it may be assigned. -/
  writable : Bool
  /-- Where it was first needed. -/
  span : Span
deriving DecidableEq

/-- The captures of a function in the order of their parameters. -/
abbrev Captures := List Capture

namespace Captures

/-- Whether a name is captured. -/
def has (cs : Captures) (name : String) : Bool := cs.any (·.name == name)

/-- The capture of a name. -/
def get? (cs : Captures) (name : String) : Option Capture := cs.find? (·.name == name)

/-- Adds a capture; of two with one name the first stays. -/
def add (cs : Captures) (c : Capture) : Captures := if cs.has c.name then cs else cs ++ [c]

/-- The aliases in the order of the parameters. -/
def aliases (cs : Captures) : List VarId := cs.map Capture.inner

/-- The captures that may be assigned. -/
def writable (cs : Captures) : List Capture := cs.filter Capture.writable

theorem nodup_names_add {cs : Captures} (h : (cs.map Capture.name).Nodup) (c : Capture) :
    ((cs.add c).map Capture.name).Nodup := by
  unfold add
  split
  · exact h
  · next hc =>
    simp only [has, List.any_eq_true, beq_iff_eq, not_exists, not_and] at hc
    simp only [List.map_append, List.map_cons, List.map_nil, List.nodup_append, h, true_and]
    refine ⟨by simp, ?_⟩
    intro a ha b hb
    obtain ⟨d, hd, rfl⟩ := List.mem_map.1 ha
    simp only [List.mem_cons, List.not_mem_nil, or_false] at hb
    exact hb ▸ hc d hd

end Captures

/-- What is known of a function. -/
structure Function where
  /-- The name as written. -/
  name : String
  /-- The name in generated code: `outer$inner`, `Class$method`. -/
  emitted : String
  /-- The written parameters, for a method the receiver first. -/
  params : List VarId
  paramTypes : List Ty
  ret : Ty
  captures : Captures
  /-- The variables defined in the body. -/
  locals : List VarId
  /-- The class of a method. -/
  owner : Option String
  /-- The enclosing function. -/
  parent : Option FunId
  /-- Without a body in the source. -/
  synthetic : Bool
  span : Span
deriving Inhabited

namespace Function

/-- Number of arguments written in a call. -/
def explicitArity (f : Function) : Nat :=
  if f.owner.isSome then f.params.length - 1 else f.params.length

/-- Number of parameters of the generated function. -/
def totalArity (f : Function) : Nat := f.params.length + f.captures.length

/-- Whether it belongs to a class. -/
def isMethod (f : Function) : Bool := f.owner.isSome

end Function

/-- All functions of a program, in the order of their numbers. -/
abbrev Functions := Array Function

namespace Functions

/-- The record of a number in use. -/
def get (fs : Functions) (id : FunId) : Function := fs[id.index]?.getD default

/-- The next free number. -/
def nextId (fs : Functions) : FunId := ⟨fs.size⟩

end Functions

end ObjLang
