import ObjLang.Toml

/-!
# ObjLang.Config — limits of a run

How much memory a program gets, how much it may ask for, and how deep its calls may be nested.
-/

namespace ObjLang

/-- Limits of a run. -/
structure Config where
  /-- The size of the memory, in pages; a module that asks for more gets what it asks for. -/
  memoryPages : Nat := 1
  /-- The largest size of the memory, in pages. -/
  maxMemoryPages : Nat := 256
  /-- The number of calls that may be under way at the same time. -/
  maxCallDepth : Nat := 1000
deriving DecidableEq

/-- What is wrong with some limits. -/
inductive ConfigError where
  | memory (pages most : Nat)
  | noCalls
deriving DecidableEq

namespace ConfigError

/-- The wording of a fault. -/
def text : ConfigError → String
  | memory pages most =>
    "memory_pages (" ++ toString pages ++ ") exceeds max_memory_pages (" ++ toString most ++ ")"
  | noCalls => "max_call_depth must be at least 1"

/-- The wording with its head. -/
def message (e : ConfigError) : String := "Invalid config: " ++ e.text

end ConfigError

namespace Config

/-- The first fault of some limits, if there is one. -/
def fault? (c : Config) : Option ConfigError :=
  if c.maxMemoryPages < c.memoryPages then some (.memory c.memoryPages c.maxMemoryPages)
  else if c.maxCallDepth = 0 then some .noCalls
  else none

theorem fault?_default : ({} : Config).fault? = none := by decide

/-- The limits in a table. -/
def ofTable? (t : Toml.Table) : Option Config := do
  let c : Config := {}
  return {
    memoryPages := ← t.nat? "memory_pages" 0x100000000 c.memoryPages
    maxMemoryPages := ← t.nat? "max_memory_pages" 0x100000000 c.maxMemoryPages
    maxCallDepth := ← t.nat? "max_call_depth" 0x8000000000000000 c.maxCallDepth }

/-- Reads limits from a document; they must have no fault. -/
def read (text : String) : Except (Toml.ReadError ConfigError) Config :=
  Toml.readSettings ofTable? fault? text

end Config

end ObjLang
