import ObjLang.Class.Table
import ObjLang.Env
import ObjLang.Function

/-!
# ObjLang.Check.Scope — names in scope while a program is checked

The state of a check: the records made so far, the names in scope, and one frame for each function
body that is being checked, innermost first.  Reading a name looks at the innermost scope and the
module scope first.  A variable found only in an enclosing function is captured: it gets a
read-only alias in the innermost scope, and so does every capture of a nested function that its
parent does not already know.
-/

namespace ObjLang

namespace Check

/-- The function body being checked. -/
structure Frame where
  function : FunId
  ret : Ty
  captures : Captures
  /-- Names declared in this body. -/
  names : List String

/-- Everything found out so far. -/
structure State where
  vars : Variables := {}
  functions : Functions := #[]
  varEnv : Env VarId := Env.empty
  funEnv : Env FunId := Env.empty
  frames : List Frame := []
  /-- The records of methods by their names in generated code. -/
  methods : List (String × FunId) := []
  /-- Module variables in the order of their definitions. -/
  globals : List VarId := []

end Check

/-- A step of a check. -/
abbrev CheckM (α : Type) := StateT Check.State (Except CheckError) α

namespace Check

/-- Refuses the program. -/
def refuse {α : Type} (cause : CheckError.Cause) (span : Span) : CheckM α := throw ⟨cause, span⟩

/-- The record of a variable. -/
def variableOf (id : VarId) : CheckM Variable := do return (← get).vars.get id

/-- The value type of a variable. -/
def tyOf (id : VarId) : CheckM Ty := do return (← variableOf id).ty.ty

/-- The record of a function. -/
def functionOf (id : FunId) : CheckM Function := do return (← get).functions.get id

/-- Adds a variable record. -/
def newVariable (v : Variable) : CheckM VarId := do
  let s ← get
  set { s with vars := s.vars.push v }
  return s.vars.nextId

/-- Adds a function record. -/
def newFunction (f : Function) : CheckM FunId := do
  let s ← get
  set { s with functions := s.functions.push f }
  return Functions.nextId s.functions

/-- Changes the record of a function. -/
def modifyFunction (id : FunId) (f : Function → Function) : CheckM Unit :=
  modify fun s => { s with functions := s.functions.modify id.index f }

/-- The variable that a name denotes in the scopes of a mode. -/
def findVar? (name : String) (mode : SearchMode) : CheckM (Option VarId) := do
  return (← get).varEnv.lookup name mode

/-- Binds a name to a variable in the innermost scope. -/
def bindVar (name : String) (id : VarId) : CheckM Unit :=
  modify fun s => { s with varEnv := s.varEnv.declare name id }

/-- Binds a name to a function in the innermost scope. -/
def bindFunction (name : String) (id : FunId) : CheckM Unit :=
  modify fun s => { s with funEnv := s.funEnv.declare name id }

/-! ### Declared names -/

/-- Notes a name among those that a frame declares, unless it is there. -/
def Frame.claim? (f : Frame) (name : String) : Option Frame :=
  if f.names.contains name then none else some { f with names := name :: f.names }

/-- Declares a name in the current body, once. -/
def claimName (ident : Ident) : CheckM Unit := do
  let s ← get
  match s.frames with
  | [] => return ()
  | f :: rest =>
    match f.claim? ident.name with
    | some f' => set { s with frames := f' :: rest }
    | none => refuse (.duplicateIdentifier ident.name) ident.span

/-- Declares a name in the current body and binds it. -/
def declareName (ident : Ident) (id : VarId) : CheckM Unit := do
  claimName ident
  bindVar ident.name id

/-- The type that a written type names. -/
def resolveTy (classes : ClassTable) (written : Ident) : CheckM Ty :=
  match ClassLayout.annotated classes.contains written with
  | .ok ty => pure ty
  | .error e => throw e

/-- Whether a literal can be the first value of a variable: its type is the declared one, or it is
`None` for an object type. -/
def initializes (init : Literal) (ty : Ty) : Bool :=
  init.ty == ty || (ty.isObject && init.ty == .none)

/-- Refuses a definition whose literal does not fit its type. -/
def checkInitializer (d : VarDef) (ty : Ty) : CheckM Unit :=
  if initializes d.init ty then pure ()
  else refuse (.invalidInitializer d.var.name.name ty.text d.init.ty.text) d.initSpan

/-! ### Captures -/

/-- Adds a capture to the current frame. -/
def addCapture (c : Capture) : CheckM Unit :=
  modify fun s =>
    match s.frames with
    | [] => s
    | f :: rest => { s with frames := { f with captures := f.captures.add c } :: rest }

/-- Makes an alias of `origin` for `owner`, binds it, and records it as a capture. -/
def capture (name : String) (origin : VarId) (writable : Bool) (span : Span) (owner : FunId) :
    CheckM VarId := do
  let ty ← tyOf origin
  let inner ← newVariable {
    name, writable, span
    ty := .inCell ty
    kind := .capture origin
    refed := false
    owner := some owner }
  modify fun s => { s with vars := s.vars.markCaptured origin }
  addCapture { name, inner, origin, writable, span }
  bindVar name inner
  return inner

/-- The variable that a read name denotes. -/
def resolveRead (name : String) (span : Span) : CheckM VarId := do
  match ← findVar? name .localAndGlobal with
  | some v => return v
  | none =>
    match ← findVar? name .nonlocalScopes with
    | none => refuse (.undefinedVariable name) span
    | some origin =>
      if (← variableOf origin).isGlobal then return origin
      else
        match (← get).frames with
        | [] => return origin
        | f :: _ => capture name origin false span f.function

/-- The variable that an assigned name denotes: one of the current scope that may be written. -/
def resolveWrite (ident : Ident) : CheckM VarId := do
  let writable? ← do
    match ← findVar? ident.name .localScope with
    | some v => pure (if (← variableOf v).writable then some v else none)
    | none => pure none
  match writable? with
  | some v => return v
  | none =>
    if (← get).varEnv.contains ident.name .all then
      refuse (.undeclaredAssignment ident.name) ident.span
    else refuse (.undefinedVariable ident.name) ident.span

/-- Brings an outer variable into the body of `owner`. -/
def checkScopeDecl (owner : FunId) (d : ScopeDecl) : CheckM Unit := do
  let invalid : CheckError.Cause := .invalidScopeDecl d.name.name d.kind.text
  match d.kind with
  | .global =>
    match ← findVar? d.name.name .globalScope with
    | some v =>
      if (← variableOf v).isGlobal then declareName d.name v else refuse invalid d.span
    | none => refuse invalid d.span
  | .nonlocal =>
    match ← findVar? d.name.name .nonlocalScopes with
    | some v =>
      if (← variableOf v).isGlobal then refuse invalid d.span
      else
        claimName d.name
        let _ ← capture d.name.name v true d.span owner
    | none => refuse invalid d.span

/-- Threads the captures of a nested function through the current one: a captured name that is not
bound in the current scope becomes a capture here too. -/
def threadCaptures (nested : FunId) : CheckM Unit := do
  let s ← get
  match s.frames with
  | [] => return ()
  | f :: _ =>
    let pending := (s.functions.get nested).captures.filter fun c =>
      (s.varEnv.lookup c.name .localScope).isNone
    pending.forM fun c => do
      let _ ← capture c.name c.origin false c.span f.function

end Check

end ObjLang
