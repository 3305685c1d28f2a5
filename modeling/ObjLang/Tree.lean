import ObjLang.Span
import ObjLang.Ty

/-!
# ObjLang.Tree — programs as trees

A tree is built once, from the tokens.  Checking fills in what a name, a call or a definition
stands for, and the type of each expression; these places are `none` before.  Facts about the
storage of variables are kept beside the tree, indexed by `VarId` and `FunId`.
-/

namespace ObjLang

/-- The number of a variable record. -/
structure VarId where
  index : Nat
deriving DecidableEq, Inhabited

/-- The number of a function record. -/
structure FunId where
  index : Nat
deriving DecidableEq, Inhabited

/-- How listings write a variable. -/
def VarId.text (v : VarId) : String := "var" ++ toString v.index

/-- How listings write a function. -/
def FunId.text (f : FunId) : String := "fn" ++ toString f.index

/-- A name at its place. -/
structure Ident where
  name : String
  span : Span
deriving DecidableEq

/-! ### Expressions -/

/-- A literal value. -/
inductive Literal where
  | number (value : Int32)
  | bool (value : Bool)
  | none
deriving DecidableEq

namespace Literal

/-- The type of a literal. -/
def ty : Literal → Ty
  | number _ => .int
  | bool _ => .bool
  | none => .none

/-- The machine word that stands for a literal. -/
def word : Literal → Int32
  | number n => n
  | bool b => if b then 1 else 0
  | none => 0

/-- The spelling of a literal. -/
def text : Literal → String
  | number n => toString n.toInt
  | bool true => "True"
  | bool false => "False"
  | none => "None"

end Literal

/-- Operators before an operand. -/
inductive UnaryOp where
  | neg | not
deriving DecidableEq

/-- The spelling of an operator. -/
def UnaryOp.text : UnaryOp → String
  | neg => "-"
  | not => "not"

/-- Operators between two operands. -/
inductive BinaryOp where
  | add | sub | mul | floorDiv | mod
  | eq | ne | lt | gt | le | ge
  | is
deriving DecidableEq

namespace BinaryOp

/-- The spelling of an operator. -/
def text : BinaryOp → String
  | add => "+"
  | sub => "-"
  | mul => "*"
  | floorDiv => "//"
  | mod => "%"
  | eq => "=="
  | ne => "!="
  | lt => "<"
  | gt => ">"
  | le => "<="
  | ge => ">="
  | is => "is"

/-- From two integers to an integer. -/
def isArithmetic : BinaryOp → Bool
  | add | sub | mul | floorDiv | mod => true
  | _ => false

/-- From two integers to a truth value. -/
def isOrdering : BinaryOp → Bool
  | lt | gt | le | ge => true
  | _ => false

/-- From two plain values of one type to a truth value. -/
def isEquality : BinaryOp → Bool
  | eq | ne => true
  | _ => false

end BinaryOp

/-- Functions that every program can call. -/
inductive Builtin where
  | print | abs | min | max | pow
deriving DecidableEq

namespace Builtin

/-- Every builtin function. -/
def all : List Builtin := [print, abs, min, max, pow]

/-- The name of a builtin function. -/
def name : Builtin → String
  | print => "print"
  | abs => "abs"
  | min => "min"
  | max => "max"
  | pow => "pow"

/-- The builtin function of a name. -/
def ofName? (s : String) : Option Builtin := all.find? (·.name == s)

/-- Number of arguments. -/
def arity : Builtin → Nat
  | print | abs => 1
  | min | max | pow => 2

end Builtin

/-- What a call stands for.  `captures` are the variables of the calling function whose cells are
passed after the written arguments, in the order of the captures of the function called. -/
inductive CallTarget where
  | function (id : FunId) (captures : List VarId)
  | construct (className : String)
  | builtin (which : Builtin)
deriving DecidableEq

/-- Where an expression stands, and its type once it is checked. -/
structure ExprInfo where
  span : Span
  ty : Option Ty := none
deriving DecidableEq

/-- An expression. -/
inductive Expr where
  | literal (info : ExprInfo) (value : Literal)
  | name (info : ExprInfo) (name : String) (binding : Option VarId)
  | unary (info : ExprInfo) (op : UnaryOp) (operand : Expr)
  | binary (info : ExprInfo) (op : BinaryOp) (left right : Expr)
  | call (info : ExprInfo) (callee : Ident) (args : List Expr) (target : Option CallTarget)
  | field (info : ExprInfo) (object : Expr) (field : Ident)
  | method (info : ExprInfo) (object : Expr) (method : Ident) (args : List Expr)

namespace Expr

/-- Place and type of an expression. -/
def info : Expr → ExprInfo
  | literal i _ | name i _ _ | unary i _ _ | binary i _ _ _ | call i _ _ _ | field i _ _
  | method i _ _ _ => i

/-- Place of an expression. -/
def span (e : Expr) : Span := e.info.span

/-- Type of an expression, if it is checked. -/
def ty (e : Expr) : Option Ty := e.info.ty

/-- The expression with another type. -/
def withTy (ty : Option Ty) : Expr → Expr
  | literal i v => literal { i with ty } v
  | name i x b => name { i with ty } x b
  | unary i op e => unary { i with ty } op e
  | binary i op l r => binary { i with ty } op l r
  | call i f args t => call { i with ty } f args t
  | field i o f => field { i with ty } o f
  | method i o m args => method { i with ty } o m args

end Expr

/-! ### Statements -/

/-- The left side of an assignment. -/
inductive Target where
  | name (ident : Ident) (binding : Option VarId)
  | field (object : Expr) (field : Ident)

mutual

/-- A statement. -/
inductive Stmt where
  | assign (target : Target) (value : Expr) (span : Span)
  | expr (value : Expr) (span : Span)
  | ret (value : Expr) (span : Span)
  | pass (span : Span)
  | cond (first : Branch) (others : List Branch) (otherwise : List Stmt) (span : Span)
  | loop (branch : Branch) (span : Span)

/-- A condition with the statements that it guards. -/
inductive Branch where
  | mk (test : Expr) (body : List Stmt)

end

/-- Place of a statement. -/
def Stmt.span : Stmt → Span
  | assign _ _ s | expr _ s | ret _ s | pass s | cond _ _ _ s | loop _ s => s

/-- The condition of a branch. -/
def Branch.test : Branch → Expr
  | mk t _ => t

/-- The statements of a branch. -/
def Branch.body : Branch → List Stmt
  | mk _ b => b

/-! ### Definitions -/

/-- A name with a written type. -/
structure TypedName where
  name : Ident
  type : Ident
deriving DecidableEq

/-- A variable definition: a module variable, a local of a function, or a field of a class. -/
structure VarDef where
  var : TypedName
  init : Literal
  initSpan : Span
  span : Span
  binding : Option VarId := none
deriving DecidableEq

/-- Which outer variable a declaration in a function body brings in. -/
inductive ScopeKind where
  | global | nonlocal
deriving DecidableEq

/-- The spelling of a scope kind. -/
def ScopeKind.text : ScopeKind → String
  | global => "global"
  | nonlocal => "nonlocal"

/-- A declaration that brings an outer variable into a function body. -/
structure ScopeDecl where
  name : Ident
  kind : ScopeKind
  span : Span
deriving DecidableEq

/-- A function or method definition.  Without a written return type it returns `None`. -/
structure FunDef where
  name : Ident
  params : List TypedName
  ret : Option Ident
  decls : List ScopeDecl
  vars : List VarDef
  nested : List FunDef
  body : List Stmt
  span : Span
  id : Option FunId

/-- A class definition. -/
structure ClassDef where
  name : Ident
  superclass : Ident
  fields : List VarDef
  methods : List FunDef
  span : Span

/-- A whole program. -/
structure Program where
  vars : List VarDef
  functions : List FunDef
  classes : List ClassDef
  body : List Stmt
  span : Span

end ObjLang
