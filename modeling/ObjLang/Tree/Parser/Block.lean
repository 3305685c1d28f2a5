import ObjLang.Tree.Parser.Expr

/-!
# ObjLang.Tree.Parser.Block — statements, variable definitions and functions

A block is indented and holds statements only.  The body of a function starts with its
declarations (scope declarations, variables, nested functions, in any order), and at least one
statement follows.
-/

namespace ObjLang.Parser

/-! ### Variables -/

/-- A written type. -/
def typeName : Parser Ident := do
  match ← peek with
  | .name text => return ⟨text, ← advance⟩
  | .keyword .noneKw => return ⟨"None", ← advance⟩
  | _ => unexpected "a type"

/-- A name with its type. -/
def typedName : Parser TypedName := do
  let name ← ident "variable name"
  let _ ← expectSymbol .colon "':' before type"
  return ⟨name, ← typeName⟩

/-- The literal that a variable starts with; an integer can have a sign. -/
def literalInit : Parser Literal := do
  let negative ← eat (.symbol .minus)
  let found ← peek
  let span ← here
  match found, negative with
  | .int n, _ =>
    let value : Int := if negative then -n else n
    let _ ← advance
    if Int32.minValue.toInt ≤ value ∧ value ≤ Int32.maxValue.toInt then
      return .number (Int32.ofInt value)
    else
      failAt span (.wideInt value)
  | .keyword .trueKw, false => let _ ← advance; return .bool true
  | .keyword .falseKw, false => let _ ← advance; return .bool false
  | .keyword .noneKw, false => let _ ← advance; return .none
  | _, _ => fail (.literalInit found)

/-- A variable definition: one line. -/
def varDef : Parser VarDef := do
  let var ← typedName
  let _ ← expectSymbol .equal "'=' after variable type"
  let start ← here
  let init ← literalInit
  let initSpan := start.merge (← behind)
  let _ ← expect .newline "newline after variable definition"
  return { var, init, initSpan, span := var.name.span.merge initSpan }

/-! ### Statements -/

/-- The next statement of a list that ends with its block. -/
def nextStmt? (inBlock : Bool) (stmt : Parser Stmt) : Parser (Option Stmt) := do
  let c ← get
  if c.atBlockEnd then return none
  else if c.atDeclaration then fail (.lateDeclaration inBlock)
  else return some (← stmt)

/-- An indented block. -/
def block (stmt : Parser Stmt) : Parser (List Stmt) := do
  let _ ← expect .newline "newline before block"
  let _ ← expect .indent "indented block"
  let body ← collect (nextStmt? true stmt)
  let _ ← expect .dedent "end of block"
  return body

/-- A condition with its block. -/
def branch (stmt : Parser Stmt) : Parser Branch := do
  let test ← expr
  let _ ← expectSymbol .colon "':' after condition"
  return .mk test (← block stmt)

/-- A condition statement, from `if` on. -/
def condStmt (stmt : Parser Stmt) : Parser Stmt := do
  let start ← expect (.keyword .ifKw) "'if'"
  let first ← branch stmt
  let others ← collect do
    if ← eat (.keyword .elifKw) then return some (← branch stmt) else return none
  let otherwise ←
    if ← eat (.keyword .elseKw) then do
      let _ ← expectSymbol .colon "':' after 'else'"
      block stmt
    else pure []
  return .cond first others otherwise (start.merge (← behind))

/-- A loop, from `while` on. -/
def loopStmt (stmt : Parser Stmt) : Parser Stmt := do
  let start ← expect (.keyword .whileKw) "'while'"
  let body ← branch stmt
  return .loop body (start.merge (← behind))

/-- A return statement, from `return` on; without an expression it returns `None`. -/
def returnStmt (inFunction : Bool) : Parser Stmt := do
  let start ← advance
  if !inFunction then failAt start (.broken .returnOutsideFunction)
  else
    let value ←
      if (← peek) = .newline then pure (.literal { span := start } .none) else expr
    let _ ← expect .newline "newline after return"
    return .ret value (start.merge value.span)

/-- The assignment target that an expression denotes. -/
def targetOf? : Expr → Option Target
  | .name info text _ => some (.name ⟨text, info.span⟩ none)
  | .field _ object part => some (.field object part)
  | _ => none

/-- An expression statement or an assignment. -/
def simpleStmt : Parser Stmt := do
  let left ← expr
  if ← eat (.symbol .equal) then
    let value ← expr
    match targetOf? left with
    | some target =>
      let _ ← expect .newline "newline after assignment"
      return .assign target value (left.span.merge value.span)
    | none => failAt left.span (.broken .assignmentTarget)
  else
    let _ ← expect .newline "newline after expression"
    return .expr left left.span

/-- A statement in which blocks are at most `n` deep. -/
def stmtUpTo (inFunction : Bool) : Nat → Parser Stmt
  | 0 => fail (.broken .tooDeep)
  | n + 1 => do
    match ← peek with
    | .keyword .ifKw => condStmt (stmtUpTo inFunction n)
    | .keyword .whileKw => loopStmt (stmtUpTo inFunction n)
    | .keyword .passKw =>
      let span ← advance
      let _ ← expect .newline "newline after 'pass'"
      return .pass span
    | .keyword .returnKw => returnStmt inFunction
    | _ => simpleStmt

/-- A statement. -/
def stmt (inFunction : Bool) : Parser Stmt := do stmtUpTo inFunction ((← get).left + 2)

/-! ### Functions -/

/-- A scope declaration, from `global` or `nonlocal` on. -/
def scopeDecl (kind : ScopeKind) : Parser ScopeDecl := do
  let start ← advance
  let name ← ident "variable name"
  let _ ← expect .newline "newline after scope declaration"
  return ⟨name, kind, start.merge name.span⟩

/-- A declaration at the start of a function body. -/
inductive BodyDecl where
  | scope (decl : ScopeDecl)
  | var (d : VarDef)
  | function (d : FunDef)

namespace BodyDecl

/-- The scope declaration, if it is one. -/
def scope? : BodyDecl → Option ScopeDecl
  | scope d => some d
  | _ => none

/-- The variable, if it is one. -/
def var? : BodyDecl → Option VarDef
  | var d => some d
  | _ => none

/-- The function, if it is one. -/
def function? : BodyDecl → Option FunDef
  | function d => some d
  | _ => none

end BodyDecl

/-- The next declaration of a function body. -/
def nextBodyDecl? (nested : Parser FunDef) : Parser (Option BodyDecl) := do
  let c ← get
  match c.current.token with
  | .keyword .defKw => return some (.function (← nested))
  | .keyword .globalKw => return some (.scope (← scopeDecl .global))
  | .keyword .nonlocalKw => return some (.scope (← scopeDecl .nonlocal))
  | _ => if c.atVarDef then return some (.var (← varDef)) else return none

/-- A function definition, from `def` on, with `nested` for the functions in its body. -/
def funDefWith (nested : Parser FunDef) : Parser FunDef := do
  let start ← expect (.keyword .defKw) "'def'"
  let name ← ident "function name"
  let _ ← expectSymbol .leftParen "'(' after function name"
  let params ← commaSeparated typedName
  let _ ← expectSymbol .rightParen "')' after parameters"
  let ret ← if ← eat (.symbol .arrow) then some <$> typeName else pure none
  let _ ← expectSymbol .colon "':' after function signature"
  let _ ← expect .newline "newline before function body"
  let _ ← expect .indent "indented function body"
  let decls ← collect (nextBodyDecl? nested)
  let body ← collect (nextStmt? false (stmt true))
  if body.isEmpty then fail (.broken .emptyFunctionBody)
  else
    let span := start.merge (← behind)
    let _ ← expect .dedent "end of function body"
    return {
      name, params, ret, body, span
      decls := decls.filterMap BodyDecl.scope?
      vars := decls.filterMap BodyDecl.var?
      nested := decls.filterMap BodyDecl.function?
      id := none }

/-- A function definition in which functions are nested at most `n` deep. -/
def funDefUpTo : Nat → Parser FunDef
  | 0 => fail (.broken .tooDeep)
  | n + 1 => funDefWith (funDefUpTo n)

/-- A function definition, from `def` on. -/
def funDef : Parser FunDef := do funDefUpTo ((← get).left + 2)

end ObjLang.Parser
