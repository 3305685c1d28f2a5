import ObjLang.Check.Body

/-!
# ObjLang.Check — checking whole programs

Classes are laid out first.  Then module variables, the signatures of methods (ancestors before
descendants, so that an override can be compared) and those of functions are declared, and last the
bodies of methods and functions and the statements of the module are checked.  The first fault
ends the check.
-/

namespace ObjLang

/-- A program in which every place is filled in, with all that was found out about it. -/
structure CheckedProgram where
  program : Program
  classes : ClassTable
  vars : Variables
  functions : Functions
  /-- Module variables in the order of their definitions. -/
  globals : List VarId
  /-- The method of the root class that runs on new objects. -/
  rootInit : FunId

namespace CheckedProgram

/-- The record of a variable. -/
def var (p : CheckedProgram) (id : VarId) : Variable := p.vars.get id

/-- The record of a function. -/
def function (p : CheckedProgram) (id : FunId) : Function := p.functions.get id

/-- The first function with a name in generated code. -/
def functionNamed? (p : CheckedProgram) (emitted : String) : Option (FunId × Function) :=
  (p.functions.toList.zipIdx.find? (·.1.emitted == emitted)).map fun (f, i) => (⟨i⟩, f)

end CheckedProgram

namespace Check

variable (classes : ClassTable)

/-- Names that no definition at module level can have. -/
def reservedNames : List String := Builtin.all.map Builtin.name ++ [rootClass, "int", "bool"]

/-- Refuses a name that is among `seen` or occurs twice. -/
def checkDistinct (seen : List String) : List Ident → CheckM Unit
  | [] => return ()
  | i :: rest =>
    if seen.contains i.name then refuse (.duplicateIdentifier i.name) i.span
    else checkDistinct (i.name :: seen) rest

/-- Classes, variables and functions share the names of the module. -/
def checkModuleNames (p : Program) : CheckM Unit :=
  checkDistinct reservedNames
    (p.classes.map (·.name) ++ p.vars.map (·.var.name) ++ p.functions.map (·.name))

/-- Makes the record of a module variable and binds it. -/
def checkGlobal (d : VarDef) : CheckM VarDef := do
  let ty ← resolveTy classes d.var.type
  checkInitializer d ty
  let v ← newVariable {
    name := d.var.name.name
    ty := .plain ty
    kind := .global
    refed := false
    writable := true
    owner := none
    span := d.span }
  bindVar d.var.name.name v
  modify fun s => { s with globals := s.globals ++ [v] }
  return { d with binding := some v }

/-- Notes the record of a method under its name in generated code. -/
def noteMethod (emitted : String) (id : FunId) : CheckM Unit :=
  modify fun s => { s with methods := (emitted, id) :: s.methods }

/-- Makes the record of the method that the root class has. -/
def declareRootInit : CheckM FunId := do
  let id := Functions.nextId (← get).functions
  let receiver ← newVariable {
    name := "self"
    ty := .plain (.object rootClass)
    kind := .param
    refed := false
    writable := true
    owner := some id
    span := default }
  let emitted := methodTarget rootClass initMethod
  let id ← newFunction {
    name := initMethod
    emitted
    params := [receiver]
    paramTypes := [.object rootClass]
    ret := .none
    captures := []
    locals := []
    owner := some rootClass
    parent := none
    synthetic := true
    span := default }
  noteMethod emitted id
  return id

/-! ### Signatures of methods -/

/-- Why a method cannot stand for the one it overrides, if it cannot: the number and the types of
the parameters after the receiver must be the same, and the return type assignable. -/
def overrideFault? (inherited own : Function) : Option String :=
  if inherited.params.length ≠ own.params.length then
    some ("expected " ++ toString inherited.params.length ++ " parameter(s), found "
      ++ toString own.params.length)
  else
    match ((inherited.paramTypes.drop 1).zip (own.paramTypes.drop 1)).find? fun (e, a) => e ≠ a with
    | some (expected, actual) =>
      some ("parameter type " ++ actual.text ++ " differs from inherited " ++ expected.text)
    | none =>
      if classes.hierarchy.isAssignable own.ret inherited.ret then none
      else
        some ("return type " ++ own.ret.text ++ " is not assignable to inherited "
          ++ inherited.ret.text)

/-- Whether the first parameter is `self` of the class. -/
def hasReceiver (vars : Variables) (className : String) (f : Function) : Bool :=
  match f.params with
  | p :: _ => (vars.get p).name == "self" && (vars.get p).ty.ty == .object className
  | [] => false

/-- The method that a method of the same name in class `className` overrides. -/
def inherited? (s : State) (className method : String) : Option Function := do
  let parent ← classes.get? (← (← classes.get? className).superclass)
  let id ← List.lookup (← parent.target? method) s.methods
  return s.functions.get id

/-- Refuses a method with a bad signature. -/
def checkMethodSignature (className : String) (id : FunId) : CheckM Unit := do
  let s ← get
  let f := s.functions.get id
  if !hasReceiver s.vars className f then
    refuse (.invalidMethodSignature className f.name
      ("first parameter must be 'self' of type " ++ className)) f.span
  else if f.name = initMethod ∧ (f.params.length ≠ 1 ∨ f.ret ≠ .none) then
    refuse (.invalidMethodSignature className f.name
      "__init__ takes only 'self' and returns None") f.span
  else
    match (inherited? classes s className f.name).bind (overrideFault? classes · f) with
    | some reason => refuse (.badOverride className f.name reason) f.span
    | none => return ()

/-- Declares a method of a class. -/
def declareMethod (className : String) (m : FunDef) : CheckM FunId := do
  let emitted := methodTarget className m.name.name
  let id ← declareSignature classes m emitted (some className) none
  checkMethodSignature classes className id
  noteMethod emitted id
  return id

/-- Declares all methods of a class. -/
def declareMethods (c : ClassDef) : CheckM (ClassDef × List FunId) := do
  return (c, ← c.methods.mapM (declareMethod classes c.name.name))

/-- Declares a function of the module. -/
def declareFunction (f : FunDef) : CheckM FunId := do
  let id ← declareSignature classes f f.name.name none none
  bindFunction f.name.name id
  return id

/-- Class definitions, each after its superclass. -/
def ancestorsFirst (defs : List ClassDef) : List ClassDef :=
  (classes.layouts.filter (·.name != rootClass)).filterMap fun c =>
    defs.find? (·.name.name == c.name)

/-- Checks the bodies of functions with their records. -/
def checkBodies (defs : List FunDef) (ids : List FunId) : CheckM (List FunDef) :=
  (defs.zip ids).mapM fun (f, id) => checkFunction classes id f

/-- Checks a program whose classes are laid out. -/
def checkProgram (p : Program) : CheckM (Program × FunId) := do
  checkModuleNames p
  let vars ← p.vars.mapM (checkGlobal classes)
  let rootInit ← declareRootInit
  let declared ← (ancestorsFirst classes p.classes).mapM (declareMethods classes)
  let ids ← p.functions.mapM (declareFunction classes)
  let methods ← declared.mapM fun (c, ids) => do
    return (c.name.name, ← checkBodies classes c.methods ids)
  let functions ← checkBodies classes p.functions ids
  let body ← checkBlock classes p.body
  let withMethods := fun (c : ClassDef) =>
    { c with methods := (List.lookup c.name.name methods).getD c.methods }
  return ({ p with vars, functions, body, classes := p.classes.map withMethods }, rootInit)

end Check

/-- Checks a program. -/
def Program.check (p : Program) : Except CheckError CheckedProgram := do
  let classes ← ClassTable.resolve p.classes
  let ((program, rootInit), s) ← (Check.checkProgram classes p).run {}
  return {
    program, classes, rootInit
    vars := s.vars
    functions := s.functions
    globals := s.globals }

end ObjLang
