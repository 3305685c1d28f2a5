import ObjLang.Memory
import ObjLang.Toml

/-!
# ObjLang.Options — settings of code generation

Settings can be made in code or read from a document; only the latter are validated on the way.
Address zero is the empty reference, so the heap must not start there, and the first heap address
must lie in the memory that the module asks for.
-/

namespace ObjLang

/-- Settings of code generation. -/
structure Options where
  /-- The least size of the memory, in pages. -/
  memoryPages : Nat := 1
  /-- The first address on the heap. -/
  heapBase : Nat := 4
  /-- The name of the exported entry. -/
  entryExport : String := "exported_func"
  /-- The host module of the print and arithmetic functions. -/
  importModule : String := "imports"
  /-- The host module of the guard against empty references. -/
  checkModule : String := "check"
  /-- The host module of the memory, and its name there. -/
  memoryModule : String := "js"
  memoryField : String := "memory"
deriving DecidableEq

/-- What is wrong with some settings. -/
inductive OptionsError where
  | heapBase (value : Nat)
  | noMemory
  | heapOutside
  | noEntryName
deriving DecidableEq

namespace OptionsError

/-- The wording of a fault. -/
def text : OptionsError → String
  | heapBase value => "heap_base must be a non-zero multiple of 4, got " ++ toString value
  | noMemory => "memory_pages must be at least 1"
  | heapOutside => "heap_base lies outside the configured memory"
  | noEntryName => "entry_export must not be empty"

/-- The wording with its head. -/
def message (e : OptionsError) : String := "Invalid options: " ++ e.text

end OptionsError

/-- The first fault of some settings, if there is one. -/
def Options.fault? (o : Options) : Option OptionsError :=
  if o.heapBase = 0 ∨ o.heapBase % 4 ≠ 0 then some (.heapBase o.heapBase)
  else if o.memoryPages = 0 then some .noMemory
  else if o.memoryPages * pageSize ≤ o.heapBase then some .heapOutside
  else if o.entryExport.isEmpty then some .noEntryName
  else none

theorem Options.fault?_default : ({} : Options).fault? = none := by decide

/-- The settings in a table. -/
def Options.ofTable? (t : Toml.Table) : Option Options := do
  let o : Options := {}
  return {
    memoryPages := ← t.nat? "memory_pages" 0x100000000 o.memoryPages
    heapBase := ← t.nat? "heap_base" 0x100000000 o.heapBase
    entryExport := ← t.string? "entry_export" o.entryExport
    importModule := ← t.string? "import_module" o.importModule
    checkModule := ← t.string? "check_module" o.checkModule
    memoryModule := ← t.string? "memory_module" o.memoryModule
    memoryField := ← t.string? "memory_field" o.memoryField }

/-- Reads settings from a document; they must have no fault. -/
def Options.read (text : String) : Except (Toml.ReadError OptionsError) Options :=
  Toml.readSettings Options.ofTable? Options.fault? text

end ObjLang
