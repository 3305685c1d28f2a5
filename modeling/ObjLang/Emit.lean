import ObjLang.Emit.Block
import ObjLang.Options
import ObjLang.Tree.Parser

/-!
# ObjLang.Emit — the module of a checked program

The functions of a module are the allocator, the method of the root class for new objects, the
methods of all classes and the functions of the program, each followed by the functions nested in
it, and the entry, which runs the statements of the program.  If the last of them is an expression,
its value is the result.
-/

namespace ObjLang

namespace Emit

open Code (Instr InternalError Func FunctionBuilder ModuleBuilder)

variable (p : CheckedProgram)

/-! ### Functions -/

/-- Declares parameters. -/
def addParams (b : FunctionBuilder) (names : List String) :
    Except InternalError FunctionBuilder :=
  names.foldlM FunctionBuilder.addParam b

/-- A function with the parameters, captures and variables of a function record, and no code. -/
def frame (f : Function) : Except InternalError FunctionBuilder := do
  let nameOf := fun (id : VarId) => (p.var id).name
  let b ← addParams { name := f.emitted } ((f.params ++ f.captures.aliases).map nameOf)
  return (f.locals.map nameOf).foldl FunctionBuilder.addLocal b

/-- Moves the captured parameters of a function into cells. -/
def boxParams (f : Function) : EmitM (List Instr) := do
  let captured := (f.params.map p.var).filter (·.refed)
  if !captured.isEmpty then addLocal cellName
  return captured.flatMap boxParam

/-- Gives the variables of a function body their first values. -/
def initLocals (defs : List VarDef) : EmitM (List Instr) := do
  let code ← defs.mapM fun d => do
    return initLocal (← bound p d.binding d.var.name.name) d.init
  return code.flatten

/-- Runs code generation on a function builder and adds the code to it. -/
def assemble (b : FunctionBuilder) (code : EmitM (List Instr)) (m : ModuleBuilder) :
    Except InternalError ModuleBuilder := do
  let (body, s) ← code.run ⟨b, m⟩
  return s.module.addFunction (s.function.emitAll body).build

/-- Adds the function of a definition. -/
def addFunDef (d : FunDef) (m : ModuleBuilder) : Except InternalError ModuleBuilder := do
  match d.id with
  | none => throw (.uncheckedFunction d.name.name)
  | some id =>
    let f := p.function id
    let code : EmitM (List Instr) := do
      let boxes ← boxParams p f
      let inits ← initLocals p d.vars
      let body ← block p d.body
      return boxes ++ inits ++ body ++ [.const 0]
    assemble (← frame p f) code m

mutual

/-- Adds the function of a definition and those nested in it. -/
def addTree (m : ModuleBuilder) : FunDef → Except InternalError ModuleBuilder
  | d@{ nested, .. } => do addTrees (← addFunDef p d m) nested

/-- Adds the functions of definitions and those nested in them. -/
def addTrees (m : ModuleBuilder) : List FunDef → Except InternalError ModuleBuilder
  | [] => return m
  | d :: rest => do addTrees (← addTree m d) rest

end

/-- The allocator. -/
def allocFunction : Func where
  name := allocName
  params := ["#words"]
  locals := ["#ptr"]
  body := [.globalGet heapName, .localSet "#ptr", .globalGet heapName, .localGet "#words",
    .const 4, .binary .mul, .binary .add, .globalSet heapName, .localGet "#ptr"]

/-- Adds the method of the root class, which does nothing. -/
def addRootInit (m : ModuleBuilder) : Except InternalError ModuleBuilder := do
  let f := p.function p.rootInit
  let b ← addParams { name := f.emitted } (f.params.map fun id => (p.var id).name)
  return m.addFunction (b.emit (.const 0)).build

/-- Whether the last of some statements is an expression. -/
def endsInValue (body : List Stmt) : Bool :=
  match body.getLast? with
  | some (.expr _ _) => true
  | _ => false

/-- Adds the entry. -/
def addEntry (m : ModuleBuilder) : Except InternalError ModuleBuilder :=
  let body := p.program.body
  let code : EmitM (List Instr) := do
    let code ← block p body
    return code ++ (if endsInValue body then [.localGet scratchName] else [.const 0])
  assemble { name := entryName } code m

/-! ### Modules -/

/-- The host functions of every module: the name in code, the name of the host, the number of
parameters, and whether there is a result. -/
def hostFunctions : List (String × String × Nat × Bool) :=
  [("#print_num", "print_num", 1, false), ("#print_bool", "print_bool", 1, false),
    ("#print_none", "print_none", 1, false), ("#abs", "abs", 1, true), ("#min", "min", 2, true),
    ("#max", "max", 2, true), ("#pow", "pow", 2, true)]

/-- The imports of every module. -/
def imports (o : Options) : List Code.Import :=
  hostFunctions.map (fun (name, field, params, hasResult) =>
      ⟨o.importModule, field, name, params, hasResult⟩)
    ++ [⟨o.checkModule, "check_init", checkInitName, 1, true⟩]

/-- A module without functions: imports, globals, signatures and table. -/
def skeleton (o : Options) : ModuleBuilder :=
  let start : ModuleBuilder := { memory := ⟨o.memoryModule, o.memoryField, o.memoryPages⟩ }
  let m := (imports o).foldl ModuleBuilder.addImport start
  let m := m.addGlobal heapName (word o.heapBase)
  let m := p.program.vars.foldl (fun m d => m.addGlobal d.var.name.name d.init.word) m
  let m := p.functions.foldl (fun m f => m.signature f.totalArity) m
  m.setTable p.classes.vtable.entries

/-- The module of a checked program. -/
def module (o : Options) : Except InternalError Code.Module := do
  let m := (skeleton p o).addFunction allocFunction
  let m ← addRootInit p m
  let m ← addTrees p m (p.program.classes.flatMap (·.methods))
  let m ← addTrees p m p.program.functions
  let m ← addEntry p m
  (m.setEntry ⟨o.entryExport, entryName, endsInValue p.program.body⟩).build

end Emit

/-! ### From source text -/

/-- Why a source text has no module. -/
inductive CompileError where
  | parse (e : ParseError)
  | check (e : CheckError)
  | internal (e : Code.InternalError)

/-- The module of a source text. -/
def compile (o : Options) (source : String) : Except CompileError Code.Module := do
  let tree ← (Program.parse source).mapError CompileError.parse
  let checked ← tree.check.mapError CompileError.check
  (Emit.module checked o).mapError CompileError.internal

end ObjLang
