import ObjLang.Config
import ObjLang.Linked.Link
import ObjLang.Machine

/-!
# ObjLang.Run — running modules within limits
-/

namespace ObjLang

/-- Why a run gives no result. -/
inductive RunError where
  | link (e : LinkError)
  | fault (f : Fault)
  /-- The number of steps was not enough. -/
  | unfinished

/-- A run that has ended: the lines it printed, and its result, if the module has one. -/
structure Execution where
  output : List String
  result : Except RunError (Option Int32)

/-- More steps than any run can be waited for. -/
def manySteps : Nat := 0x4000000000000000

/-- The pages of memory that a module gets. -/
def LinkedModule.pages (p : LinkedModule) (c : Config) : Nat := max p.memoryPages c.memoryPages

/-- Runs a linked module for at most a number of steps. -/
def LinkedModule.run (p : LinkedModule) (c : Config) (steps : Nat) : Execution :=
  let pages := p.pages c
  if c.maxMemoryPages < pages then ⟨[], .error (.link (.memoryTooLarge pages c.maxMemoryPages))⟩
  else
    match (Store.start p pages).invoke p c.maxCallDepth steps p.entry [] with
    | none => ⟨[], .error .unfinished⟩
    | some (s, .error f) => ⟨s.output.toList, .error (.fault f)⟩
    | some (s, .ok v) => ⟨s.output.toList, .ok (if p.entryHasResult then v else none)⟩

/-- Links and runs a module for at most a number of steps. -/
def Code.Module.run (m : Code.Module) (c : Config) (steps : Nat) : Execution :=
  match m.link with
  | .error e => ⟨[], .error (.link e)⟩
  | .ok p => p.run c steps

end ObjLang
