import ObjLang.Code.Module
import ObjLang.Linked

/-!
# ObjLang.Linked.Link — linking

Names are resolved to numbers; of several things of one name the last counts.  Regions dissolve into
jumps: a jump out of a region is written down when it is met and gets its target at the end of the
region.  An `else` ends the jumps of its region that are waiting, and starts a new one.
-/

namespace ObjLang

/-- Why a module cannot be run. -/
inductive LinkError where
  | unknownImport (module field : String)
  | importSignature (field : String)
  | unknownFunction (name : String)
  | unknownGlobal (name : String)
  | unknownLocal (function name : String)
  | unknownType (name : String)
  | unknownLabel (function label : String)
  | unbalanced (function : String)
  | memoryTooLarge (required limit : Nat)
deriving DecidableEq

/-- The wording of an error. -/
def LinkError.message : LinkError → String
  | unknownImport module field => "Unknown import '" ++ module ++ "." ++ field ++ "'"
  | importSignature field => "Import '" ++ field ++ "' has the wrong signature"
  | unknownFunction name => "Unknown function '" ++ name ++ "'"
  | unknownGlobal name => "Unknown global '" ++ name ++ "'"
  | unknownLocal function name => "Unknown local '" ++ name ++ "' in '" ++ function ++ "'"
  | unknownType name => "Unknown type '" ++ name ++ "'"
  | unknownLabel function label => "Unknown label '" ++ label ++ "' in '" ++ function ++ "'"
  | unbalanced function => "Unbalanced block structure in '" ++ function ++ "'"
  | memoryTooLarge required limit =>
    "Memory of " ++ toString required ++ " pages exceeds the limit of " ++ toString limit

/-! ### Names -/

/-- The position of the last occurrence of a name. -/
def lastIndex? (name : String) : List String → Option Nat
  | [] => none
  | n :: rest =>
    match lastIndex? name rest with
    | some i => some (i + 1)
    | none => if n = name then some 0 else none

namespace Code

/-- The names of functions in the order of their numbers. -/
def Module.functionNames (m : Module) : List String :=
  m.imports.map (·.name) ++ m.functions.map (·.name)

/-- The number of a function. -/
def Module.functionIndex (m : Module) (name : String) : Except LinkError Nat :=
  match lastIndex? name m.functionNames with
  | some i => .ok i
  | none => .error (.unknownFunction name)

/-- The number of a global. -/
def Module.globalIndex (m : Module) (name : String) : Except LinkError Nat :=
  match lastIndex? name (m.globals.map (·.name)) with
  | some i => .ok i
  | none => .error (.unknownGlobal name)

/-- The slot of a parameter or local. -/
def Func.slot (f : Func) (name : String) : Except LinkError Nat :=
  match lastIndex? name (f.params ++ f.locals) with
  | some i => .ok i
  | none => .error (.unknownLocal f.name name)

end Code

/-! ### Regions -/

/-- A region whose end has not been reached.  The positions are those of jumps that wait for a
target. -/
inductive Region where
  | block (label : String) (waiting : List Nat)
  | loop (label : String) (start : Nat)
  | cond (waiting : List Nat)
deriving DecidableEq

/-- The label of a region; a conditional region has none. -/
def Region.label? : Region → Option String
  | block label _ | loop label _ => some label
  | cond _ => none

/-- The jumps of a region that wait for its end. -/
def Region.waiting : Region → List Nat
  | block _ waiting | cond waiting => waiting
  | loop _ _ => []

/-- Gives a jump its target. -/
def Op.withTarget (target : Nat) : Op → Op
  | jump _ => jump target
  | jumpIf _ => jumpIf target
  | jumpUnless _ => jumpUnless target
  | op => op

/-- Gives the jumps at some positions their target. -/
def patch (target : Nat) (positions : List Nat) (code : Array Op) : Array Op :=
  positions.foldl (fun code i => code.modify i (Op.withTarget target)) code

/-- The target of a jump at position `i` to the innermost region of a label, and the regions after
it.  The target of a jump out of a block is not known yet; zero stands for it until the end. -/
def branch (label : String) (i : Nat) : List Region → Option (Nat × List Region)
  | [] => none
  | r :: rest =>
    if r.label? = some label then
      match r with
      | .block l waiting => some (0, .block l (i :: waiting) :: rest)
      | .loop l start => some (start, .loop l start :: rest)
      | .cond _ => none
    else (branch label i rest).map fun (target, rest) => (target, r :: rest)

/-! ### Functions -/

/-- A function that is being linked: its code so far, and the open regions, innermost first. -/
structure LinkState where
  code : Array Op := #[]
  regions : List Region := []

namespace LinkState

/-- Adds an instruction. -/
def push (s : LinkState) (op : Op) : LinkState := { s with code := s.code.push op }

/-- Opens a region. -/
def enter (s : LinkState) (r : Region) : LinkState := { s with regions := r :: s.regions }

/-- Adds a jump to the region of a label. -/
def jumpTo (s : LinkState) (f : Code.Func) (label : String) (jump : Nat → Op) :
    Except LinkError LinkState :=
  match branch label s.code.size s.regions with
  | some (target, regions) => .ok ⟨s.code.push (jump target), regions⟩
  | none => .error (.unknownLabel f.name label)

/-- Links one instruction of a function. -/
def link (m : Code.Module) (f : Code.Func) (s : LinkState) :
    Code.Instr → Except LinkError LinkState
  | .const n => return s.push (.const n)
  | .localGet x => return s.push (.localGet (← f.slot x))
  | .localSet x => return s.push (.localSet (← f.slot x))
  | .globalGet x => return s.push (.globalGet (← m.globalIndex x))
  | .globalSet x => return s.push (.globalSet (← m.globalIndex x))
  | .load o => return s.push (.load o)
  | .store o => return s.push (.store o)
  | .binary op => return s.push (.binary op)
  | .eqz => return s.push .eqz
  | .call g => return s.push (.call (← m.functionIndex g))
  | .callIndirect t =>
    match m.type? t with
    | some t => return s.push (.callIndirect t.params)
    | none => throw (.unknownType t)
  | .drop => return s.push .drop
  | .ret => return s.push .ret
  | .unreachable => return s.push .unreachable
  | .block l => return s.enter (.block l [])
  | .loop l => return s.enter (.loop l s.code.size)
  | .ifNonzero => return (s.enter (.cond [s.code.size])).push (.jumpUnless 0)
  | .orElse =>
    match s.regions with
    | .cond waiting :: rest =>
      let here := s.code.size
      return ⟨patch (here + 1) waiting (s.code.push (.jump 0)), .cond [here] :: rest⟩
    | _ => throw (.unbalanced f.name)
  | .endRegion =>
    match s.regions with
    | r :: rest => return ⟨patch s.code.size r.waiting s.code, rest⟩
    | [] => throw (.unbalanced f.name)
  | .br l => s.jumpTo f l .jump
  | .brIf l => s.jumpTo f l .jumpIf

end LinkState

namespace Code

/-- Links a function. -/
def Func.link (m : Module) (f : Func) : Except LinkError LinkedFunction := do
  let s ← f.body.foldlM (LinkState.link m f) {}
  if !s.regions.isEmpty then throw (.unbalanced f.name)
  return {
    name := f.name
    params := f.params.length
    slots := (f.params ++ f.locals).eraseDups.length
    code := s.code }

/-- The host function that an import means. -/
def Import.link (i : Import) : Except LinkError HostFunction :=
  match HostFunction.ofField? i.field with
  | none => .error (.unknownImport i.module i.field)
  | some f =>
    if f.params = i.params ∧ f.hasResult = i.hasResult then .ok f
    else .error (.importSignature i.field)

/-- Links a module. -/
def Module.link (m : Module) : Except LinkError LinkedModule := do
  let imports ← m.imports.mapM Import.link
  let functions ← m.functions.mapM (Func.link m)
  let table ← m.table.mapM m.functionIndex
  let entry ← m.functionIndex m.entry.function
  return {
    imports := imports.toArray
    functions := functions.toArray
    globals := (m.globals.map (·.init)).toArray
    table := table.toArray
    memoryPages := m.memory.minPages
    entry
    entryHasResult := m.entry.hasResult }

end Code

end ObjLang
