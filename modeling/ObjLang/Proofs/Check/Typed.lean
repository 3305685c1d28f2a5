import Mathlib.Data.List.Forall2
import ObjLang.Proofs.Check.Level

/-!
# ObjLang.Proofs.Check.Typed — what holds of a tree that was checked

`Facts` are the records that a check has made.  `ExprOk` says of an expression that every place is
filled in, what each name denotes, and that it has the given type; `StmtOk` and `FunOk` say the
same of statements and definitions.  None of these mentions how the check goes about it.
-/

namespace ObjLang.Check

/-- The records made by a check. -/
structure Facts where
  classes : ClassTable
  vars : Variables
  functions : Functions
  /-- Methods by their names in generated code. -/
  methods : List (String × FunId)
  /-- The variables of the module by name. -/
  module : Bindings VarId

/-- What is known in a state of a check. -/
def State.facts (s : State) (classes : ClassTable) : Facts :=
  ⟨classes, s.vars, s.functions, s.methods, s.varEnv.module⟩

namespace Facts

variable (F : Facts)

/-- A variable of the innermost of some functions: a parameter or variable of its own, or an
alias. -/
def IsOwn (lv : List Level) (x : String) (v : VarId) : Prop :=
  ∃ l outer, lv = l :: outer ∧
    (List.lookup x l.own = some v ∨
      ∃ r, F.vars.get? v = some r ∧ r.isCapture = true ∧ r.owner = some l.id)

/-- A variable that code in the innermost of some functions may name `x`. -/
def Reaches (lv : List Level) (x : String) (v : VarId) : Prop :=
  ∃ r, F.vars.get? v = some r ∧ r.name = x ∧
    ((r.isGlobal = true ∧ List.lookup x F.module = some v) ∨ F.IsOwn lv x v)

/-- A variable whose cell is passed for a capture of a function called. -/
def Passes (lv : List Level) (v : VarId) (k : Capture) : Prop :=
  (∃ r, F.vars.get? v = some r ∧ r.name = k.name ∧ r.isGlobal = false) ∧ F.IsOwn lv k.name v ∧
    (∃ r, F.vars.get? k.inner = some r) ∧ F.vars.home v = F.vars.home k.inner

/-- The function of a method name in a class. -/
def methodId? (c : String) (m : String) : Option FunId := do
  let target ← (← F.classes.get? c).target? m
  List.lookup target F.methods

/-! ### Expressions -/

/-- The type of a call of a builtin function. -/
def builtinType : Builtin → Ty
  | .print => .none
  | _ => .int

/-- Whether a builtin function takes arguments of a type. -/
def takes : Builtin → Ty → Prop
  | .print, t => isPrintable t = true
  | _, t => t = .int

variable (lv : List Level) (passes : String → Bool)

mutual

/-- A checked expression with its type. -/
def ExprOk : Expr → Ty → Prop
  | .literal i v, t => i.ty = some t ∧ t = v.ty
  | .name i x b, t =>
    i.ty = some t ∧ ∃ v, b = some v ∧ F.Reaches lv x v ∧
      some (F.vars.home v) = denotes F.module passes x lv ∧ t = (F.vars.get v).ty.ty
  | .unary i op e, t => i.ty = some t ∧ t = unaryType op ∧ ExprOk e t
  | .binary i op l r, t =>
    i.ty = some t ∧ ∃ a b, ExprOk l a ∧ ExprOk r b ∧ binaryType? op a b = some t
  | .call i callee args target, t =>
    i.ty = some t ∧
      match target with
      | none => False
      | some (.construct c) =>
        c = callee.name ∧ args = [] ∧ F.classes.contains c = true ∧ t = .object c
      | some (.function id captures) =>
        ∃ f, F.functions[id.index]? = some f ∧ t = f.ret ∧ ArgsOk args f.paramTypes ∧
          ((f.parent = none ∧ captures = []) ∨
            ∃ l outer, lv = l :: outer ∧ f.parent = some l.id ∧
              List.Forall₂ (F.Passes lv) captures f.captures)
      | some (.builtin b) => t = builtinType b ∧ args.length = b.arity ∧ AllOk (takes b) args
  | .field i o f, t =>
    i.ty = some t ∧ ∃ c l k d, ExprOk o (.object c) ∧ F.classes.get? c = some l ∧
      l.field? f.name = some (k, d) ∧ t = d.ty
  | .method i o m args, t =>
    i.ty = some t ∧ ∃ c id f, ExprOk o (.object c) ∧ F.methodId? c m.name = some id ∧
      F.functions[id.index]? = some f ∧ t = f.ret ∧ ArgsOk args (f.paramTypes.drop 1)

/-- Checked arguments for parameters of some types. -/
def ArgsOk : List Expr → List Ty → Prop
  | [], [] => True
  | e :: es, t :: ts =>
    (∃ a, ExprOk e a ∧ F.classes.hierarchy.isAssignable a t = true) ∧ ArgsOk es ts
  | _, _ => False

/-- Checked arguments whose types have a property. -/
def AllOk (good : Ty → Prop) : List Expr → Prop
  | [] => True
  | e :: es => (∃ a, ExprOk e a ∧ good a) ∧ AllOk good es

end

/-! ### Statements -/

/-- A checked left side of an assignment, with the type that it stores. -/
def TargetOk : Target → Ty → Prop
  | .name x b, t =>
    ∃ v r, b = some v ∧ F.vars.get? v = some r ∧ F.Reaches lv x.name v ∧ r.writable = true ∧
      t = r.ty.ty ∧ (lv ≠ [] → some (F.vars.home v) = nearest F.module x.name lv)
  | .field o f, t =>
    ∃ c l k d, F.ExprOk lv passes o (.object c) ∧ F.classes.get? c = some l ∧
      l.field? f.name = some (k, d) ∧ t = d.ty

variable (ret : Option Ty)

mutual

/-- A checked statement of a function with a return type, or of the module. -/
def StmtOk : Stmt → Prop
  | .assign target value _ =>
    ∃ a t, F.ExprOk lv passes value a ∧ F.TargetOk lv passes target t ∧
      F.classes.hierarchy.isAssignable a t = true
  | .expr value _ => ∃ a, F.ExprOk lv passes value a
  | .ret value _ =>
    ∃ a t, F.ExprOk lv passes value a ∧ ret = some t ∧
      F.classes.hierarchy.isAssignable a t = true
  | .pass _ => True
  | .cond first others otherwise _ => BranchOk first ∧ BranchesOk others ∧ BlockOk otherwise
  | .loop branch _ => BranchOk branch

/-- Checked statements. -/
def BlockOk : List Stmt → Prop
  | [] => True
  | s :: rest => StmtOk s ∧ BlockOk rest

/-- A checked condition with its statements. -/
def BranchOk : Branch → Prop
  | .mk test body => F.ExprOk lv passes test .bool ∧ BlockOk body

/-- Checked branches. -/
def BranchesOk : List Branch → Prop
  | [] => True
  | b :: rest => BranchOk b ∧ BranchesOk rest

end

/-! ### Definitions -/

/-- A variable definition whose literal fits the type that it is declared with. -/
def VarDefOk (d : VarDef) (t : Ty) : Prop :=
  Ty.ofName F.classes.contains d.var.type.name = .ok t ∧ initializes d.init t = true

/-- The record of a parameter. -/
def ParamOk (id : FunId) (p : TypedName) (t : Ty) (v : VarId) : Prop :=
  ∃ r, F.vars.get? v = some r ∧ r.name = p.name.name ∧ r.ty = .plain t ∧ r.kind = .param ∧
    r.owner = some id ∧ r.writable = true ∧ Ty.ofName F.classes.contains p.type.name = .ok t

/-- The type that a function returns: the written one, or that of the empty reference. -/
def RetOk (d : FunDef) (t : Ty) : Prop :=
  match d.ret with
  | some written => Ty.ofName F.classes.contains written.name = .ok t
  | none => t = .none

/-- The record of a variable of a function. -/
def LocalOk (id : FunId) (d : VarDef) (v : VarId) : Prop :=
  d.binding = some v ∧
    ∃ r t, F.vars.get? v = some r ∧ r.name = d.var.name.name ∧ r.ty = .plain t ∧
      r.kind = .local ∧ r.owner = some id ∧ r.writable = true ∧ F.VarDefOk d t

/-- The record of a capture of a function. -/
def CaptureOk (outer : List Level) (id : FunId) (k : Capture) : Prop :=
  (∃ r, F.vars.get? k.inner = some r ∧ r.name = k.name ∧ r.kind = .capture k.origin ∧
    r.owner = some id ∧ r.ty.boxed = true) ∧
    some (F.vars.home k.inner) = nearest F.module k.name outer

/-- The name in generated code of a function in some others: behind that of the nearest of them, if
there is one. -/
def EmittedOk (outer : List Level) (d : FunDef) (f : Function) : Prop :=
  ∀ l, outer.head? = some l →
    ∃ g, F.functions[l.id.index]? = some g ∧ f.emitted = g.emitted ++ "$" ++ d.name.name

theorem emittedOk_nil {d : FunDef} {f : Function} : F.EmittedOk [] d f := by
  rintro l ⟨⟩

/-- The record and the body of a function, without those nested in it. -/
structure FunctionOk (outer : List Level) (d : FunDef) (id : FunId) (f : Function) : Prop where
  id_eq : d.id = some id
  record : F.functions[id.index]? = some f
  parent : f.parent = outer.head?.map Level.id
  emitted : F.EmittedOk outer d f
  params : List.Forall₂ (fun p vt => F.ParamOk id p vt.2 vt.1) d.params
    (f.params.zip f.paramTypes)
  params_length : f.params.length = f.paramTypes.length
  ret : F.RetOk d f.ret
  locals : List.Forall₂ (F.LocalOk id) d.vars f.locals
  captures : ∀ k ∈ f.captures, F.CaptureOk outer id k
  names : (d.params.map (·.name.name) ++ d.vars.map (·.var.name.name)
    ++ f.captures.map Capture.name).Nodup
  nestedNames : (d.nested.map (·.name.name)).Nodup
  globals : ∀ x ∈ d.declared .global, (List.lookup x F.module).isSome = true
  handsOn : ∀ x, d.handsOn x = true → f.captures.has x = true
  /-- A name that the module has too is captured only where it is handed on. -/
  captured : ∀ k ∈ f.captures,
    (List.lookup k.name F.module).isSome = true → d.handsOn k.name = true
  notGlobal : ∀ k ∈ f.captures, (d.declared .global).contains k.name = false
  returns : f.ret ≠ .none → Stmt.bodyReturns d.body = true
  body : F.BlockOk (Level.ofFunction id d f :: outer) d.passes (some f.ret) d.body

mutual

/-- A checked function in a nest of functions. -/
def FunOk (outer : List Level) : FunDef → Prop
  | d@{ nested, .. } =>
    ∃ id f, F.FunctionOk outer d id f ∧ FunsOk (Level.ofFunction id d f :: outer) nested

/-- Checked functions in one function. -/
def FunsOk (outer : List Level) : List FunDef → Prop
  | [] => True
  | d :: rest => FunOk outer d ∧ FunsOk outer rest

end

end Facts

end ObjLang.Check
