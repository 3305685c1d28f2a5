import ObjLang.Proofs.Check.Program
import ObjLang.Trap

/-!
# ObjLang.Proofs.Meaning — what a checked program means

The meaning of a program is given by its tree, without code, machine words or memory.  Integers wrap
around.  A variable is one of a call, or of the module: what a name in a nested function denotes is
found by following its alias to the variable that it stands for, in the call of the function that
declares it.  An object is a record of its fields that knows its class, and a method call runs the
method of the nearest class, on the way up from that class, that defines it.

Calls nest and loops go round at most `n` times; a computation that needs more has no outcome.
Neither has one that comes to a place that a check would have filled in, or to a value of another
type than it needs.
-/

namespace ObjLang

/-! ### Values and worlds -/

/-- A value.  A reference to an object is the number of the object. -/
inductive Value where
  | int (n : Int32)
  | bool (b : Bool)
  | none
  | object (number : Nat)
deriving DecidableEq

/-- The value of a literal. -/
def Literal.value : Literal → Value
  | number n => .int n
  | bool b => .bool b
  | none => .none

/-- The line that shows a value, if it can be printed. -/
def Value.line? : Value → Option String
  | int n => some (toString n.toInt)
  | bool b => some (if b then "True" else "False")
  | none => some "None"
  | object _ => Option.none

/-- An object: its class and its fields. -/
structure Object where
  className : String
  fields : Bindings Value

/-- A variable of a call, or of the module if there is no call. -/
structure Place where
  call : Option Nat
  var : VarId
deriving DecidableEq

/-- What a computation works on. -/
structure World where
  vars : Place → Value
  /-- All objects by their numbers. -/
  objects : List Object := []
  /-- How many calls have begun; calls are numbered in this order. -/
  calls : Nat := 0

namespace World

/-- The world with another value of a variable. -/
def write (σ : World) (pl : Place) (v : Value) : World :=
  { σ with vars := fun pl' => if pl' = pl then v else σ.vars pl' }

/-- The world with another value of a field of an object. -/
def setField (σ : World) (number : Nat) (x : String) (v : Value) : World :=
  { σ with objects :=
      σ.objects.modify number fun o => { o with fields := o.fields.insert x v } }

/-- The world with one more object. -/
def make (σ : World) (o : Object) : World := { σ with objects := σ.objects ++ [o] }

/-- The world in which one more call has begun, with the first values of its variables. -/
def enter (σ : World) (own : List (VarId × Value)) : World where
  vars := fun pl =>
    if pl.call = some σ.calls then (List.lookup pl.var own).getD .none else σ.vars pl
  objects := σ.objects
  calls := σ.calls + 1

variable {σ : World} {pl pl' : Place} {v : Value}

theorem write_self : (σ.write pl v).vars pl = v := if_pos rfl

theorem write_of_ne (h : pl' ≠ pl) : (σ.write pl v).vars pl' = σ.vars pl' := if_neg h

@[simp] theorem write_module_call {a : Nat} {x y : VarId} :
    (σ.write ⟨none, x⟩ v).vars ⟨some a, y⟩ = σ.vars ⟨some a, y⟩ :=
  write_of_ne nofun

@[simp] theorem write_call_module {a : Nat} {x y : VarId} :
    (σ.write ⟨some a, x⟩ v).vars ⟨none, y⟩ = σ.vars ⟨none, y⟩ :=
  write_of_ne nofun

theorem setField_self {r : Nat} {x : String} {o : Object} (h : σ.objects[r]? = some o) :
    (σ.setField r x v).objects[r]? = some { o with fields := o.fields.insert x v } := by
  rw [setField, List.getElem?_modify_eq, h]
  rfl

theorem setField_of_ne {r r' : Nat} {x : String} (h : r' ≠ r) :
    (σ.setField r x v).objects[r']? = σ.objects[r']? :=
  List.getElem?_modify_ne _ _ (Ne.symm h)

theorem enter_vars_of_ne {own : List (VarId × Value)} (h : pl.call ≠ some σ.calls) :
    (σ.enter own).vars pl = σ.vars pl :=
  if_neg h

end World

/-! ### Computations -/

/-- A computation on a world: the lines that it prints, its value or the trap that ends it, and the
world behind it. -/
def Eval (α : Type) : Type := World → Option (List String × Except Trap α × World)

namespace Eval

variable {α β γ : Type}

instance : Monad Eval where
  pure a := fun σ => some ([], .ok a, σ)
  bind m f := fun σ =>
    match m σ with
    | none => none
    | some (ls, .error e, σ') => some (ls, .error e, σ')
    | some (ls, .ok a, σ') => (f a σ').map fun (ls', r, σ'') => (ls ++ ls', r, σ'')

theorem pure_apply (a : α) (σ : World) : (pure a : Eval α) σ = some ([], .ok a, σ) := rfl

theorem bind_apply (m : Eval α) (f : α → Eval β) (σ : World) :
    (m >>= f) σ =
      match m σ with
      | none => none
      | some (ls, .error e, σ') => some (ls, .error e, σ')
      | some (ls, .ok a, σ') => (f a σ').map fun (ls', r, σ'') => (ls ++ ls', r, σ'') := rfl

theorem id_map_eq (m : Eval α) : id <$> m = m := by
  funext σ
  show (m >>= fun a => pure a) σ = m σ
  rw [bind_apply]
  split
  · next h => rw [h]
  · next h => rw [h]
  · next h => simp only [h, pure_apply, Option.map_some, List.append_nil]

theorem pure_bind_eq (a : α) (f : α → Eval β) : pure a >>= f = f a := by
  funext σ
  rw [bind_apply, pure_apply]
  exact Option.map_id_apply

theorem bind_assoc_eq (m : Eval α) (f : α → Eval β) (g : β → Eval γ) :
    m >>= f >>= g = m >>= fun a => f a >>= g := by
  funext σ
  simp only [bind_apply]
  cases m σ with
  | none => rfl
  | some o =>
    obtain ⟨ls, r, σ'⟩ := o
    cases r with
    | error e => rfl
    | ok a =>
      dsimp only
      cases f a σ' with
      | none => rfl
      | some o =>
        obtain ⟨ls', r, σ''⟩ := o
        cases r with
        | error e => rfl
        | ok b =>
          simp only [Option.map_some, Option.map_map]
          congr 1
          funext o
          simp only [Function.comp_apply, List.append_assoc]

instance : LawfulMonad Eval := .mk' Eval id_map_eq pure_bind_eq bind_assoc_eq

/-- The world as it is. -/
def world : Eval World := fun σ => some ([], .ok σ, σ)

/-- Changes the world. -/
def become (σ : World) : Eval Unit := fun _ => some ([], .ok (), σ)

/-- What an operation that leaves the world alone prints and gives. -/
def reply (o : Option (List String × Except Trap α)) : Eval α :=
  fun σ => o.map fun (ls, r) => (ls, r, σ)

/-- What is known, if it is. -/
def known (o : Option α) : Eval α := reply (o.map fun a => ([], .ok a))

/-- Ends with a trap. -/
def trap (e : Trap) : Eval α := reply (some ([], .error e))

/-- No outcome. -/
def stuck : Eval α := known none

/-- The value of a variable. -/
def read (pl : Place) : Eval Value := do return (← world).vars pl

/-- Gives a variable a value. -/
def write (pl : Place) (v : Value) : Eval Unit := do become ((← world).write pl v)

/-- The object of a number. -/
def object (number : Nat) : Eval Object := do known (← world).objects[number]?

/-- The number of the object that a reference leads to. -/
def follow : Value → Eval Nat
  | .object number => pure number
  | .none => trap .notInitialized
  | _ => stuck

end Eval

/-! ### Operators and builtin functions -/

/-- The value of an operator between two values. -/
def BinaryOp.apply : BinaryOp → Value → Value → Option (Except Trap Value)
  | .add, .int a, .int b => some (.ok (.int (a + b)))
  | .sub, .int a, .int b => some (.ok (.int (a - b)))
  | .mul, .int a, .int b => some (.ok (.int (a * b)))
  | .floorDiv, .int a, .int b =>
    if b = 0 then some (.error .divisionByZero)
    else if a = Int32.minValue ∧ b = -1 then some (.error .overflow)
    else some (.ok (.int (a / b)))
  | .mod, .int a, .int b =>
    if b = 0 then some (.error .divisionByZero) else some (.ok (.int (a % b)))
  | .lt, .int a, .int b => some (.ok (.bool (a < b)))
  | .gt, .int a, .int b => some (.ok (.bool (b < a)))
  | .le, .int a, .int b => some (.ok (.bool (a ≤ b)))
  | .ge, .int a, .int b => some (.ok (.bool (b ≤ a)))
  | .eq, a, b => some (.ok (.bool (a = b)))
  | .ne, a, b => some (.ok (.bool (a ≠ b)))
  | .is, a, b => some (.ok (.bool (a = b)))
  | _, _, _ => none

/-- The value of an operator before a value. -/
def UnaryOp.apply : UnaryOp → Value → Option Value
  | .neg, .int n => some (.int (-n))
  | .not, .bool b => some (.bool !b)
  | _, _ => none

/-- What a builtin function prints and gives. -/
def Builtin.apply : Builtin → List Value → Option (List String × Except Trap Value)
  | .print, [v] => v.line?.map fun l => ([l], .ok .none)
  | .abs, [.int a] => some ([], .ok (.int (if a < 0 then -a else a)))
  | .min, [.int a, .int b] => some ([], .ok (.int (if a ≤ b then a else b)))
  | .max, [.int a, .int b] => some ([], .ok (.int (if a ≤ b then b else a)))
  | .pow, [.int a, .int b] =>
    some ([], if b < 0 then .error (.invalidArgument Builtin.pow.name b)
      else .ok (.int (a ^ b.toInt.toNat)))
  | _, _ => none

/-! ### Programs -/

/-- The calls that a piece of code can see: that of its function, and then those of the functions
around it, each with its number. -/
abbrev CallChain := List (FunId × Nat)

/-- How the statements of a function go on. -/
inductive Flow where
  | goesOn
  | returns (v : Value)

/-- The value of a call: without a `return` it is the empty reference. -/
def Flow.value : Flow → Value
  | goesOn => .none
  | returns v => v

namespace CheckedProgram

variable (c : CheckedProgram)

/-- The definition of a function. -/
def definition? (id : FunId) : Option FunDef := c.program.allFunctions.find? (·.id == some id)

/-- The definition of the method `m` in the nearest class that has one, on the way up from the class
`k` through at most `n` classes. -/
def nearest? (m : String) : Nat → String → Option FunDef
  | 0, _ => none
  | n + 1, k =>
    ((c.program.classes.find? (·.name.name == k)).bind fun d =>
      d.methods.find? (·.name.name == m)).or do
        nearest? m n (← (← c.classes.get? k).superclass)

/-- The definition of a method that an object of a class runs.  No class has more classes above it
than there are in the program. -/
def method? (m k : String) : Option FunDef := c.nearest? m c.program.classes.length k

/-- The variable that a name bound to `v` denotes. -/
def place? (sc : CallChain) (v : VarId) : Option Place :=
  if (c.var v).isGlobal then some ⟨none, v⟩
  else do
    let owner ← (c.var (c.vars.home v)).owner
    return ⟨some (← List.lookup owner sc), c.vars.home v⟩

/-- The calls that the body of a function can see: those around the call of the function that it is
nested in. -/
def around (id : FunId) (sc : CallChain) : CallChain :=
  match (c.function id).parent with
  | none => []
  | some q => sc.dropWhile (·.1 ≠ q)

/-- The variables of a call with their first values: arguments of the parameters, and the literals
behind the variable definitions. -/
def firstValues (id : FunId) (d : FunDef) (args : List Value) : List (VarId × Value) :=
  (c.function id).params.zip args
    ++ d.vars.filterMap fun e => e.binding.map fun v => (v, e.init.value)

/-- The fields of a new object. -/
def newObject? (k : String) : Option Object :=
  (c.classes.get? k).map fun l => ⟨k, l.fields.map fun f => (f.name, f.init.value)⟩

end CheckedProgram

namespace Meaning

variable (c : CheckedProgram) (call : FunId → CallChain → List Value → Eval Value)

/-- Runs the method of an object that the nearest class defines.  Every class has the method for new
objects of the root class, which does nothing. -/
def method (m : String) (number : Nat) (args : List Value) : Eval Value := do
  match c.method? m (← Eval.object number).className with
  | some d => call (← Eval.known d.id) [] (.object number :: args)
  | none => if m = initMethod then return .none else Eval.stuck

/-- A new object of a class, on which the method for new objects has run. -/
def construct (k : String) : Eval Value := do
  let σ ← Eval.world
  Eval.become (σ.make (← Eval.known (c.newObject? k)))
  let _ ← method c call initMethod σ.objects.length []
  return .object σ.objects.length

mutual

/-- The value of an expression.  Operands and arguments are evaluated from left to right. -/
def expr (sc : CallChain) : Expr → Eval Value
  | .literal _ v => pure v.value
  | .name _ _ b => do Eval.read (← Eval.known (b.bind (c.place? sc)))
  | .unary _ op operand => do Eval.known (op.apply (← expr sc operand))
  | .binary _ op left right => do
    let a ← expr sc left
    let b ← expr sc right
    Eval.reply ((op.apply a b).map ([], ·))
  | .call _ _ _ none => Eval.stuck
  | .call _ _ args (some (.function id _)) => do call id sc (← exprs sc args)
  | .call _ _ _ (some (.construct k)) => construct c call k
  | .call _ _ args (some (.builtin f)) => do Eval.reply (f.apply (← exprs sc args))
  | .field _ object f => do
    let number ← Eval.follow (← expr sc object)
    Eval.known (List.lookup f.name (← Eval.object number).fields)
  | .method _ object m args => do
    let number ← Eval.follow (← expr sc object)
    let args ← exprs sc args
    method c call m.name number args

/-- The values of arguments. -/
def exprs (sc : CallChain) : List Expr → Eval (List Value)
  | [] => pure []
  | e :: es => do
    let v ← expr sc e
    return v :: (← exprs sc es)

end

/-- Runs an assignment.  What the target stands for is found before the value. -/
def assign (sc : CallChain) (value : Expr) : Target → Eval Unit
  | .name _ b => do
    let pl ← Eval.known (b.bind (c.place? sc))
    Eval.write pl (← expr c call sc value)
  | .field object f => do
    let number ← Eval.follow (← expr c call sc object)
    let v ← expr c call sc value
    Eval.become ((← Eval.world).setField number f.name v)

/-- Goes round while a branch is taken, at most a number of times. -/
def rounds (branch : Eval (Option Flow)) : Nat → Eval Flow
  | 0 => Eval.stuck
  | n + 1 => do
    match ← branch with
    | none => return .goesOn
    | some .goesOn => rounds branch n
    | some (.returns v) => return .returns v

variable (n : Nat)

mutual

/-- Runs a statement. -/
def stmt (sc : CallChain) : Stmt → Eval Flow
  | .assign target value _ => do
    assign c call sc value target
    return .goesOn
  | .expr value _ => do
    let _ ← expr c call sc value
    return .goesOn
  | .ret value _ => do return .returns (← expr c call sc value)
  | .pass _ => return .goesOn
  | .cond first others otherwise _ => do
    match ← branch sc first with
    | some flow => return flow
    | none =>
      match ← branches sc others with
      | some flow => return flow
      | none => block sc otherwise
  | .loop first _ => rounds (branch sc first) n

/-- Runs statements, one after the other, until one returns. -/
def block (sc : CallChain) : List Stmt → Eval Flow
  | [] => return .goesOn
  | s :: ss => do
    match ← stmt sc s with
    | .goesOn => block sc ss
    | .returns v => return .returns v

/-- Runs the statements of a branch if its condition holds. -/
def branch (sc : CallChain) : Branch → Eval (Option Flow)
  | .mk test body => do
    match ← expr c call sc test with
    | .bool true => return some (← block sc body)
    | .bool false => return none
    | _ => Eval.stuck

/-- Runs the first branch whose condition holds. -/
def branches (sc : CallChain) : List Branch → Eval (Option Flow)
  | [] => return none
  | b :: bs => do
    match ← branch sc b with
    | some flow => return some flow
    | none => branches sc bs

end

end Meaning

namespace CheckedProgram

variable (c : CheckedProgram)

/-- Calls a function from code that sees some calls. -/
def call : Nat → FunId → CallChain → List Value → Eval Value
  | 0, _, _, _ => Eval.stuck
  | n + 1, id, sc, args => do
    let d ← Eval.known (c.definition? id)
    let σ ← Eval.world
    Eval.become (σ.enter (c.firstValues id d args))
    return (← Meaning.block c (call n) n ((id, σ.calls) :: c.around id sc) d.body).value

/-- Runs the statements of the program.  If the last of them is an expression, its value is the
result. -/
def main (n : Nat) : Eval (Option Value) := do
  match c.program.body.getLast? with
  | some (.expr value _) =>
    match ← Meaning.block c (c.call n) n [] c.program.body.dropLast with
    | .goesOn => return some (← Meaning.expr c (c.call n) [] value)
    | .returns _ => Eval.stuck
  | _ =>
    match ← Meaning.block c (c.call n) n [] c.program.body with
    | .goesOn => return none
    | .returns _ => Eval.stuck

/-- The world before the program runs. -/
def firstWorld : World where
  vars := fun pl =>
    match c.program.vars.find? (·.binding == some pl.var) with
    | some d => d.init.value
    | none => .none

/-- The lines that a program prints, and its result or the trap that ends it. -/
def outcome? (n : Nat) : Option (List String × Except Trap (Option Value)) :=
  (c.main n c.firstWorld).map fun (ls, r, _) => (ls, r)

end CheckedProgram

end ObjLang
