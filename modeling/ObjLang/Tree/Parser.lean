import ObjLang.Tree.Parser.Block

/-!
# ObjLang.Tree.Parser — classes and whole programs

A program is a list of definitions (variables, functions and classes in any order) followed by
statements.  `Program.parse` reads a source text; of a text without token stream it reports the
first fault.
-/

namespace ObjLang

namespace Parser

/-- An item of a class body. -/
inductive ClassItem where
  | field (d : VarDef)
  | method (d : FunDef)
  | pass

namespace ClassItem

/-- The field, if it is one. -/
def field? : ClassItem → Option VarDef
  | field d => some d
  | _ => none

/-- The method, if it is one. -/
def method? : ClassItem → Option FunDef
  | method d => some d
  | _ => none

end ClassItem

/-- The next item of a class body. -/
def nextClassItem? : Parser (Option ClassItem) := do
  let c ← get
  match c.current.token with
  | .dedent | .eof => return none
  | .keyword .defKw => return some (.method (← funDef))
  | .keyword .passKw =>
    let _ ← advance
    let _ ← expect .newline "newline after 'pass'"
    return some .pass
  | _ => if c.atVarDef then return some (.field (← varDef)) else fail (.broken .classBodyItem)

/-- A class definition, from `class` on. -/
def classDef : Parser ClassDef := do
  let start ← expect (.keyword .classKw) "'class'"
  let name ← ident "class name"
  let _ ← expectSymbol .leftParen "'(' after class name"
  let superclass ← ident "superclass name"
  let _ ← expectSymbol .rightParen "')' after superclass"
  let _ ← expectSymbol .colon "':' after class header"
  let _ ← expect .newline "newline before class body"
  let _ ← expect .indent "indented class body"
  let items ← collect nextClassItem?
  let span := start.merge (← behind)
  let _ ← expect .dedent "end of class body"
  return {
    name, superclass, span
    fields := items.filterMap ClassItem.field?
    methods := items.filterMap ClassItem.method? }

/-- A definition at the start of a program. -/
inductive TopDecl where
  | var (d : VarDef)
  | function (d : FunDef)
  | classDef (d : ClassDef)

namespace TopDecl

/-- The variable, if it is one. -/
def var? : TopDecl → Option VarDef
  | var d => some d
  | _ => none

/-- The function, if it is one. -/
def function? : TopDecl → Option FunDef
  | function d => some d
  | _ => none

/-- The class, if it is one. -/
def class? : TopDecl → Option ClassDef
  | classDef d => some d
  | _ => none

end TopDecl

/-- The next definition of a program. -/
def nextTopDecl? : Parser (Option TopDecl) := do
  let c ← get
  match c.current.token with
  | .keyword .defKw => return some (.function (← funDef))
  | .keyword .classKw => return some (.classDef (← classDef))
  | _ => if c.atVarDef then return some (.var (← varDef)) else return none

/-- The next statement of a program. -/
def nextTopStmt? : Parser (Option Stmt) := do
  let c ← get
  if c.current.token = .eof then return none
  else if c.atDeclaration then fail (.lateDeclaration false)
  else return some (← stmt false)

/-- A whole program. -/
def program : Parser Program := do
  let start ← here
  let decls ← collect nextTopDecl?
  let body ← collect nextTopStmt?
  return {
    vars := decls.filterMap TopDecl.var?
    functions := decls.filterMap TopDecl.function?
    classes := decls.filterMap TopDecl.class?
    body
    span := start.merge (← here) }

end Parser

/-- The program that a source text denotes. -/
def Program.parse (source : String) : Except ParseError Program :=
  match Token.tokenize source with
  | .ok tokens => Parser.program.run tokens
  | .error [] => .error ⟨.broken .tooDeep, default⟩
  | .error (e :: _) => .error (.ofLex e)

end ObjLang
