import ObjLang.Proofs.Tree.Moves

/-!
# ObjLang.Proofs.Tree.Calls — the parser as functions that call each other

Some readers lead back to themselves: expressions through brackets and signs, statements through blocks,
functions through nested functions.  Here each of them takes the readers it calls as parameters, and
`Rule.within` reads with calls nested to a given depth and no deeper.  With the parser's own readers as
parameters these functions are the parser's own.
-/

namespace ObjLang.Parser

/-! ### Readers with the readers they call -/

/-- An item behind a token that announces it. -/
def announced {α : Type} (t : Token) (item : Parser α) : Parser (Option α) := do
  if ← eat t then return some (← item) else return none

section

variable (negation sign operand : Parser Expr) (expr : Parser Expr) (stmt : Parser Stmt)

/-- An operand that may have `not` before it. -/
def negatedOf : Parser Expr := do
  if (← peek) = .keyword .notKw then
    let start ← advance
    return signed .not start (← negation)
  else
    operand

/-- An operand that may have a sign. -/
def signedOf : Parser Expr := do
  if (← peek) = .symbol .minus then
    let start ← advance
    if (← peek) = .int (maxLiteral + 1) then
      let stop ← advance
      return .literal { span := start.merge stop } (.number Int32.minValue)
    else
      return signed .neg start (← sign)
  else
    operand

/-- A condition with its block. -/
def branchOf : Parser Branch := do
  let test ← expr
  let _ ← expectSymbol .colon "':' after condition"
  return .mk test (← block stmt)

/-- A condition statement. -/
def condOf : Parser Stmt := do
  let start ← expect (.keyword .ifKw) "'if'"
  let first ← branchOf expr stmt
  let others ← collect (announced (.keyword .elifKw) (branchOf expr stmt))
  let otherwise ←
    if ← eat (.keyword .elseKw) then do
      let _ ← expectSymbol .colon "':' after 'else'"
      block stmt
    else pure []
  return .cond first others otherwise (start.merge (← behind))

/-- A loop. -/
def loopOf : Parser Stmt := do
  let start ← expect (.keyword .whileKw) "'while'"
  let body ← branchOf expr stmt
  return .loop body (start.merge (← behind))

/-- A return statement. -/
def returnOf (inFunction : Bool) : Parser Stmt := do
  let start ← advance
  if !inFunction then failAt start (.broken .returnOutsideFunction)
  else
    let value ←
      if (← peek) = .newline then pure (.literal { span := start } .none) else expr
    let _ ← expect .newline "newline after return"
    return .ret value (start.merge value.span)

/-- An expression statement or an assignment. -/
def simpleOf : Parser Stmt := do
  let left ← expr
  if ← eat (.symbol .equal) then
    let value ← expr
    match targetOf? left with
    | some target =>
      let _ ← expect .newline "newline after assignment"
      return .assign target value (left.span.merge value.span)
    | none => failAt left.span (.broken .assignmentTarget)
  else
    let _ ← expect .newline "newline after expression"
    return .expr left left.span

/-- A statement. -/
def stmtOf (inFunction : Bool) : Parser Stmt := do
  match ← peek with
  | .keyword .ifKw => condOf expr stmt
  | .keyword .whileKw => loopOf expr stmt
  | .keyword .passKw =>
    let span ← advance
    let _ ← expect .newline "newline after 'pass'"
    return .pass span
  | .keyword .returnKw => returnOf expr inFunction
  | _ => simpleOf expr

end

section

variable (fn : Parser FunDef) (cls : Parser ClassDef) (stmt : Parser Stmt)

/-- A function definition, behind its signature. -/
def funBodyOf (start : Span) (name : Ident) (params : List TypedName) (ret : Option Ident) :
    Parser FunDef := do
  let _ ← expectSymbol .colon "':' after function signature"
  let _ ← expect .newline "newline before function body"
  let _ ← expect .indent "indented function body"
  let decls ← collect (nextBodyDecl? fn)
  let body ← collect (nextStmt? false stmt)
  if body.isEmpty then fail (.broken .emptyFunctionBody)
  else
    let span := start.merge (← behind)
    let _ ← expect .dedent "end of function body"
    return {
      name, params, ret, body, span
      decls := decls.filterMap BodyDecl.scope?
      vars := decls.filterMap BodyDecl.var?
      nested := decls.filterMap BodyDecl.function?
      id := none }

/-- A function definition. -/
def funDefOf : Parser FunDef := do
  let start ← expect (.keyword .defKw) "'def'"
  let name ← ident "function name"
  let _ ← expectSymbol .leftParen "'(' after function name"
  let params ← commaSeparated typedName
  let _ ← expectSymbol .rightParen "')' after parameters"
  let ret ← if ← eat (.symbol .arrow) then some <$> typeName else pure none
  funBodyOf fn stmt start name params ret

/-- The next item of a class body. -/
def nextClassItemOf? : Parser (Option ClassItem) := do
  let c ← get
  match c.current.token with
  | .dedent | .eof => return none
  | .keyword .defKw => return some (.method (← fn))
  | .keyword .passKw =>
    let _ ← advance
    let _ ← expect .newline "newline after 'pass'"
    return some .pass
  | _ => if c.atVarDef then return some (.field (← varDef)) else fail (.broken .classBodyItem)

/-- A class definition. -/
def classDefOf : Parser ClassDef := do
  let start ← expect (.keyword .classKw) "'class'"
  let name ← ident "class name"
  let _ ← expectSymbol .leftParen "'(' after class name"
  let superclass ← ident "superclass name"
  let _ ← expectSymbol .rightParen "')' after superclass"
  let _ ← expectSymbol .colon "':' after class header"
  let _ ← expect .newline "newline before class body"
  let _ ← expect .indent "indented class body"
  let items ← collect (nextClassItemOf? fn)
  let span := start.merge (← behind)
  let _ ← expect .dedent "end of class body"
  return {
    name, superclass, span
    fields := items.filterMap ClassItem.field?
    methods := items.filterMap ClassItem.method? }

/-- The next definition of a program. -/
def nextTopDeclOf? : Parser (Option TopDecl) := do
  let c ← get
  match c.current.token with
  | .keyword .defKw => return some (.function (← fn))
  | .keyword .classKw => return some (.classDef (← cls))
  | _ => if c.atVarDef then return some (.var (← varDef)) else return none

/-- The next statement of a program. -/
def nextTopStmtOf? : Parser (Option Stmt) := do
  let c ← get
  if c.current.token = .eof then return none
  else if c.atDeclaration then fail (.lateDeclaration false)
  else return some (← stmt)

/-- A whole program. -/
def programOf : Parser Program := do
  let start ← here
  let decls ← collect (nextTopDeclOf? fn cls)
  let body ← collect (nextTopStmtOf? stmt)
  return {
    vars := decls.filterMap TopDecl.var?
    functions := decls.filterMap TopDecl.function?
    classes := decls.filterMap TopDecl.class?
    body
    span := start.merge (← here) }

end

/-! ### The same readers in the parser -/

theorem commaSeparated_eq {α : Type} (item : Parser α) :
    commaSeparated item = (do
      if (← peek) = .symbol .rightParen then
        return []
      else
        let first ← item
        let rest ← collect (announced (.symbol .comma) item)
        return first :: rest) := rfl

theorem negatedUpTo_succ (operand : Parser Expr) (n : Nat) :
    negatedUpTo operand (n + 1) = negatedOf (negatedUpTo operand n) operand := rfl

theorem signsUpTo_succ (operand : Parser Expr) (n : Nat) :
    signsUpTo operand (n + 1) = signedOf (signsUpTo operand n) operand := rfl

theorem stmtUpTo_succ (inFunction : Bool) (n : Nat) :
    stmtUpTo inFunction (n + 1) = stmtOf expr (stmtUpTo inFunction n) inFunction := rfl

theorem funDefUpTo_succ (n : Nat) :
    funDefUpTo (n + 1) = funDefOf (funDefUpTo n) (stmt true) := rfl

theorem classDef_eq : classDef = classDefOf funDef := rfl

theorem program_eq : program = programOf funDef classDef (stmt false) := rfl

/-! ### Rules -/

/-- An operand with its signs. -/
def factor : Parser Expr := do signsUpTo (accesses expr) ((← get).left + 2)

/-- A product. -/
def term : Parser Expr := leftChain multiplicative? factor

/-- A sum. -/
def sum : Parser Expr := leftChain additive? term

/-- The readers that call each other. -/
inductive Rule where
  | expr
  | compared
  | sum
  | term
  | factor
  | access
  | stmt (inFunction : Bool)
  | funDef
  | classDef
  | program

namespace Rule

/-- What a rule reads. -/
abbrev Value : Rule → Type
  | stmt _ => Stmt
  | funDef => FunDef
  | classDef => ClassDef
  | program => Program
  | _ => Expr

/-- A rule with the rules it calls. -/
def body (call : (r : Rule) → Parser r.Value) : (r : Rule) → Parser r.Value
  | expr => negatedOf (call expr) (call compared)
  | compared => Parser.compared (call sum)
  | sum => leftChain additive? (call term)
  | term => leftChain multiplicative? (call factor)
  | factor => signedOf (call factor) (call access)
  | access => accesses (call expr)
  | stmt inFunction => stmtOf (call expr) (call (stmt inFunction)) inFunction
  | funDef => funDefOf (call funDef) (call (stmt true))
  | classDef => classDefOf (call funDef)
  | program => programOf (call funDef) (call classDef) (call (stmt false))

/-- A rule with calls nested at most `n` deep; a deeper call fails. -/
def within : Nat → (r : Rule) → Parser r.Value
  | 0, _ => fail (.broken .tooDeep)
  | n + 1, r => r.body (within n)

/-- The parser's reader for a rule. -/
def reader : (r : Rule) → Parser r.Value
  | expr => Parser.expr
  | compared => Parser.compared Parser.sum
  | sum => Parser.sum
  | term => Parser.term
  | factor => Parser.factor
  | access => accesses Parser.expr
  | stmt inFunction => Parser.stmt inFunction
  | funDef => Parser.funDef
  | classDef => Parser.classDef
  | program => Parser.program

/-- Number of tokens that a rule reads at least. -/
def least : Rule → Nat
  | program => 0
  | _ => 1

/-- Rules that one of them calls before it has read a token come below it. -/
def rank : Rule → Nat
  | access | funDef | classDef => 0
  | factor => 1
  | term => 2
  | sum => 3
  | compared => 4
  | expr => 5
  | stmt _ => 6
  | program => 7

end Rule

end ObjLang.Parser
