import ObjLang.Check.Expr
import ObjLang.Tree.Returns

/-!
# ObjLang.Check.Body — statements and function bodies

In a function body the parameters come first, then scope declarations, then the variables.  Nested
functions are checked before the statements, so that a call finds the captures of the function it
calls complete.  A nested function is visible in the body that defines it, and nowhere else.
-/

namespace ObjLang.Check

variable (classes : ClassTable)

/-! ### Statements -/

/-- Checks the left side of an assignment: the target filled in, and the type that it stores. -/
def checkTarget : Target → CheckM (Target × Ty)
  | .name ident _ => do
    let v ← resolveWrite ident
    return (.name ident (some v), ← tyOf v)
  | .field object field => do
    let (object, ty) ← checkExpr classes object
    let c ← receiverClass ty object.span
    return (.field object field, ← fieldType classes c field)

/-- The type that the current function returns. -/
def returnType (span : Span) : CheckM Ty := do
  match (← get).frames with
  | f :: _ => return f.ret
  | [] => refuse (.typeMismatch "a statement" "return") span

mutual

/-- Checks a statement. -/
def checkStmt : Stmt → CheckM Stmt
  | .assign target value span => do
    let (value, valueTy) ← checkExpr classes value
    let (target, targetTy) ← checkTarget classes target
    expectAssignable classes valueTy targetTy value.span
    return .assign target value span
  | .expr value span => do
    let (value, _) ← checkExpr classes value
    return .expr value span
  | .ret value span => do
    let (value, actual) ← checkExpr classes value
    let expected ← returnType span
    expectAssignable classes actual expected value.span
    return .ret value span
  | .pass span => return .pass span
  | .cond first others otherwise span => do
    let first ← checkBranch first
    let others ← checkBranches others
    let otherwise ← checkBlock otherwise
    return .cond first others otherwise span
  | .loop branch span => do
    let branch ← checkBranch branch
    return .loop branch span

/-- Checks statements in order. -/
def checkBlock : List Stmt → CheckM (List Stmt)
  | [] => return []
  | s :: rest => do
    let s ← checkStmt s
    return s :: (← checkBlock rest)

/-- Checks a condition and the statements that it guards. -/
def checkBranch : Branch → CheckM Branch
  | .mk test body => do
    let test ← checkCondition classes test
    return .mk test (← checkBlock body)

/-- Checks branches in order. -/
def checkBranches : List Branch → CheckM (List Branch)
  | [] => return []
  | b :: rest => do
    let b ← checkBranch b
    return b :: (← checkBranches rest)

end

/-! ### Functions -/

/-- Resolves a parameter and makes its record. -/
def declareParam (owner : FunId) (p : TypedName) : CheckM (VarId × Ty) := do
  let ty ← resolveTy classes p.type
  let v ← newVariable {
    name := p.name.name
    ty := .plain ty
    kind := .param
    refed := false
    writable := true
    owner := some owner
    span := p.name.span }
  return (v, ty)

/-- Resolves the types of a function and makes its record, without its captures and locals. -/
def declareSignature (f : FunDef) (emitted : String) (owner : Option String)
    (parent : Option FunId) : CheckM FunId := do
  let id := Functions.nextId (← get).functions
  let params ← f.params.mapM (declareParam classes id)
  let ret ←
    match f.ret with
    | some written => resolveTy classes written
    | none => pure .none
  newFunction {
    name := f.name.name
    emitted, owner, parent, ret
    params := params.map (·.1)
    paramTypes := params.map (·.2)
    captures := []
    locals := []
    synthetic := false
    span := f.span }

/-- Makes the record of a variable of a function body and binds it. -/
def checkLocal (owner : FunId) (d : VarDef) : CheckM VarDef := do
  let ty ← resolveTy classes d.var.type
  checkInitializer d ty
  let v ← newVariable {
    name := d.var.name.name
    ty := .plain ty
    kind := .local
    refed := false
    writable := true
    owner := some owner
    span := d.span }
  declareName d.var.name v
  modifyFunction owner fun f => { f with locals := f.locals ++ [v] }
  return { d with binding := some v }

/-- Enters the body of a function. -/
def enter (id : FunId) : CheckM Unit :=
  modify fun s => { s with
    varEnv := s.varEnv.push
    funEnv := s.funEnv.push
    frames := ⟨id, (s.functions.get id).ret, [], []⟩ :: s.frames }

/-- Leaves the body of a function and keeps its captures in its record. -/
def leave (id : FunId) : CheckM Unit :=
  modify fun s =>
    let captures := (s.frames.head?.map Frame.captures).getD []
    { s with
      varEnv := s.varEnv.pop.2
      funEnv := s.funEnv.pop.2
      frames := s.frames.tail
      functions := s.functions.modify id.index fun f => { f with captures } }

/-- Binds the parameters of a function in its body. -/
def declareParams (params : List TypedName) (ids : List VarId) : CheckM Unit :=
  (params.zip ids).forM fun (p, v) => declareName p.name v

/-- Refuses a function that should return a value but has a path without `return`. -/
def checkReturns (name : Ident) (ret : Ty) (body : List Stmt) : CheckM Unit :=
  if ret ≠ .none ∧ Stmt.bodyReturns body = false then refuse (.missingReturn name.name) name.span
  else pure ()

mutual

/-- Checks the body of a function whose record is `id`. -/
def checkFunction (id : FunId) : FunDef → CheckM FunDef
  | { name, params, ret, decls, vars, nested, body, span, .. } => do
    enter id
    let f ← functionOf id
    declareParams params f.params
    decls.forM (checkScopeDecl id)
    let vars ← vars.mapM (checkLocal classes id)
    checkReturns name f.ret body
    let nested ← checkNested id f.emitted nested
    let body ← checkBlock classes body
    leave id
    return { name, params, ret, decls, vars, nested, body, span, id := some id }

/-- Checks the functions nested in function `parent`, whose name in generated code is `path`. -/
def checkNested (parent : FunId) (path : String) : List FunDef → CheckM (List FunDef)
  | [] => return []
  | f :: rest => do
    claimName f.name
    let id ← declareSignature classes f (path ++ "$" ++ f.name.name) none (some parent)
    bindFunction f.name.name id
    let f ← checkFunction id f
    threadCaptures id
    return f :: (← checkNested parent path rest)

end

end ObjLang.Check
