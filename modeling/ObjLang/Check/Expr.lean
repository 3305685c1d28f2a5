import ObjLang.Check.Scope

/-!
# ObjLang.Check.Expr — types of expressions

`checkExpr` gives the expression with every place filled in, and its type.  A called name is looked
for among the classes, then the functions in scope, then the builtin functions.
-/

namespace ObjLang.Check

variable (classes : ClassTable)

/-- The type of `left op right`, if the operands fit: arithmetic and order take integers, equality
takes two plain values of one type, and identity takes references. -/
def binaryType? (op : BinaryOp) (left right : Ty) : Option Ty :=
  if op.isArithmetic then (if left = .int ∧ right = .int then some .int else none)
  else if op.isOrdering then (if left = .int ∧ right = .int then some .bool else none)
  else if op.isEquality then
    (if left = right ∧ left.isObject = false then some .bool else none)
  else (if left.isNullable ∧ right.isNullable then some .bool else none)

/-- The type that an operator before an operand takes and gives. -/
def unaryType : UnaryOp → Ty
  | .neg => .int
  | .not => .bool

/-- Whether values of a type can be printed. -/
def isPrintable : Ty → Bool
  | .object _ => false
  | _ => true

/-- Refuses a value of type `actual` where `expected` is needed. -/
def expectAssignable (actual expected : Ty) (span : Span) : CheckM Unit :=
  if classes.hierarchy.isAssignable actual expected then pure ()
  else refuse (.typeMismatch expected.text actual.text) span

/-- The class of a receiver. -/
def receiverClass (ty : Ty) (span : Span) : CheckM String :=
  match ty with
  | .object c => pure c
  | other => refuse (.notAnObject other.text) span

/-- The type of a field of a class. -/
def fieldType (className : String) (field : Ident) : CheckM Ty :=
  match (classes.get? className).bind (·.field? field.name) with
  | some (_, f) => pure f.ty
  | none => refuse (.unknownField className field.name) field.span

/-- The record of the method that a class has under a name. -/
def methodOf (className : String) (method : Ident) : CheckM Function := do
  let s ← get
  let id? := do
    let target ← (← classes.get? className).target? method.name
    List.lookup target s.methods
  match id? with
  | some id => return s.functions.get id
  | none => refuse (.unknownMethod className method.name) method.span

/-- Refuses a call with the wrong number of arguments. -/
def expectCount (name : String) (expected actual : Nat) (span : Span) : CheckM Unit :=
  if expected = actual then pure () else refuse (.argumentCount name expected actual) span

/-- The variables of the current function whose cells are passed for the captures of a function. -/
def passedCaptures (captures : Captures) (span : Span) : CheckM (List VarId) :=
  captures.mapM fun c => do
    match ← findVar? c.name .localScope with
    | some v => return v
    | none => refuse (.unresolvedCapture c.name) span

mutual

/-- Checks an expression: the expression with all places filled in, and its type. -/
def checkExpr : Expr → CheckM (Expr × Ty)
  | .literal info v => do
    let ty := v.ty
    return (.literal { info with ty := some ty } v, ty)
  | .name info x _ => do
    let v ← resolveRead x info.span
    let ty ← tyOf v
    return (.name { info with ty := some ty } x (some v), ty)
  | .unary info op operand => do
    let (operand, actual) ← checkExpr operand
    let ty := unaryType op
    if actual = ty then return (.unary { info with ty := some ty } op operand, ty)
    else refuse (.invalidUnaryOp op.text actual.text) info.span
  | .binary info op left right => do
    let (left, leftTy) ← checkExpr left
    let (right, rightTy) ← checkExpr right
    match binaryType? op leftTy rightTy with
    | some ty => return (.binary { info with ty := some ty } op left right, ty)
    | none => refuse (.invalidBinaryOp op.text leftTy.text rightTy.text) info.span
  | .call info callee args _ => do
    let name := callee.name
    if classes.contains name then
      expectCount name 0 args.length info.span
      let ty : Ty := .object name
      return (.call { info with ty := some ty } callee args (some (.construct name)), ty)
    else
      match (← get).funEnv.lookup name .localAndGlobal with
      | some id =>
        let f ← functionOf id
        expectCount name f.paramTypes.length args.length info.span
        let args ← checkArgs f.paramTypes args
        let passed ← passedCaptures f.captures info.span
        let info := { info with ty := some f.ret }
        return (.call info callee args (some (.function id passed)), f.ret)
      | none =>
        match Builtin.ofName? name with
        | some b =>
          expectCount name b.arity args.length info.span
          let (args, ty) ← do
            match b with
            | .print => pure (← checkPrinted args, Ty.none)
            | _ => pure (← checkInts args, Ty.int)
          return (.call { info with ty := some ty } callee args (some (.builtin b)), ty)
        | none => refuse (.undefinedFunction name) callee.span
  | .field info object field => do
    let (object, objectTy) ← checkExpr object
    let c ← receiverClass objectTy object.span
    let ty ← fieldType classes c field
    return (.field { info with ty := some ty } object field, ty)
  | .method info object method args => do
    let (object, objectTy) ← checkExpr object
    let c ← receiverClass objectTy object.span
    let f ← methodOf classes c method
    let params := f.paramTypes.drop 1
    expectCount method.name params.length args.length info.span
    let args ← checkArgs params args
    return (.method { info with ty := some f.ret } object method args, f.ret)

/-- Checks arguments against the types of the parameters. -/
def checkArgs (params : List Ty) : List Expr → CheckM (List Expr)
  | [] => return []
  | arg :: rest => do
    let (arg', ty) ← checkExpr arg
    expectAssignable classes ty (params.headD ty) arg'.span
    return arg' :: (← checkArgs params.tail rest)

/-- Checks arguments that must be integers. -/
def checkInts : List Expr → CheckM (List Expr)
  | [] => return []
  | arg :: rest => do
    let (arg', ty) ← checkExpr arg
    if ty = .int then return arg' :: (← checkInts rest)
    else refuse (.typeMismatch Ty.int.text ty.text) arg'.span

/-- Checks arguments that are to be printed. -/
def checkPrinted : List Expr → CheckM (List Expr)
  | [] => return []
  | arg :: rest => do
    let (arg', ty) ← checkExpr arg
    if isPrintable ty then return arg' :: (← checkPrinted rest)
    else refuse (.cannotPrint ty.text) arg'.span

end

/-- Checks a condition, which must be a truth value. -/
def checkCondition (e : Expr) : CheckM Expr := do
  let (e', ty) ← checkExpr classes e
  if ty = .bool then return e' else refuse (.typeMismatch Ty.bool.text ty.text) e'.span

end ObjLang.Check
