import ObjLang.Emit.Access

/-!
# ObjLang.Emit.Block — code of expressions and statements

The code of an expression leaves one word.  The code of a statement leaves the stack as it was; a
`return` ends the function.  A receiver is guarded before anything else is evaluated, and a method
call keeps it in a local of its own, since it is both an argument and the way to the method.
-/

namespace ObjLang.Emit

open Code (Instr InternalError)

variable (p : CheckedProgram)

/-- The operation of an operator. -/
def binaryOp : BinaryOp → WordOp
  | .add => .add
  | .sub => .sub
  | .mul => .mul
  | .floorDiv => .divS
  | .mod => .remS
  | .eq | .is => .eq
  | .ne => .ne
  | .lt => .ltS
  | .gt => .gtS
  | .le => .leS
  | .ge => .geS

/-- The host function that prints values of a type. -/
def printer : Ty → EmitM String
  | .int => pure "#print_num"
  | .bool => pure "#print_bool"
  | .none => pure "#print_none"
  | .object c => stop (.printOfObject c)

/-- What a builtin function does with its arguments on the stack. -/
def builtinCall (b : Builtin) (args : List Expr) : EmitM (List Instr) :=
  match b with
  | .print =>
    match args with
    | [] => stop .printWithoutArgument
    | arg :: _ => do return [.call (← printer (← tyOf arg)), .const 0]
  | .abs => pure [.call "#abs"]
  | .min => pure [.call "#min"]
  | .max => pure [.call "#max"]
  | .pow => pure [.call "#pow"]

mutual

/-- The code of an expression. -/
def expr : Expr → EmitM (List Instr)
  | .literal _ v => return [.const v.word]
  | .name _ x binding => return loadVar (← bound p binding x)
  | .unary _ .neg operand => return [.const 0] ++ (← expr operand) ++ [.binary .sub]
  | .unary _ .not operand => return (← expr operand) ++ [.eqz]
  | .binary _ op left right => do
    let left ← expr left
    let right ← expr right
    return left ++ right ++ [.binary (binaryOp op)]
  | .call _ callee args target =>
    match target with
    | none => stop (.unresolvedCall callee.name)
    | some (.function id captures) => do
      let args ← exprs args
      let cells ← loadCells p captures
      return args ++ cells ++ [.call (p.function id).emitted]
    | some (.construct className) => construct p className
    | some (.builtin b) => do
      let code ← exprs args
      return code ++ (← builtinCall b args)
  | .field _ object field => do
    let offset ← fieldOffset p object field.name
    return (← expr object) ++ [.call checkInitName, .load offset]
  | .method _ object method args => do
    let slot ← slotOf p object method.name
    let receiver ← expr object
    let temp ← newTemp "#recv"
    let code ← exprs args
    let type ← signature (args.length + 1)
    return receiver ++ [.call checkInitName, .localSet temp, .localGet temp] ++ code
      ++ [.localGet temp, .load 0, .const (word slot), .binary .add, .callIndirect type]

/-- The code of arguments, one after the other. -/
def exprs : List Expr → EmitM (List Instr)
  | [] => return []
  | e :: rest => do
    let code ← expr e
    return code ++ (← exprs rest)

end

/-- The code of an assignment. -/
def assignment (value : Expr) : Target → EmitM (List Instr)
  | .name ident binding => do
    let v ← bound p binding ident.name
    return storeVar v (← expr p value)
  | .field object field => do
    let offset ← fieldOffset p object field.name
    let receiver ← expr p object
    let code ← expr p value
    return receiver ++ [.call checkInitName] ++ code ++ [.store offset]

mutual

/-- The code of a statement. -/
def stmt : Stmt → EmitM (List Instr)
  | .assign target value _ => assignment p value target
  | .expr value _ => do
    addLocal scratchName
    return (← expr p value) ++ [.localSet scratchName]
  | .ret value _ => return (← expr p value) ++ [.ret]
  | .pass _ => return []
  | .cond first others otherwise _ => do
    let exit ← newLabel "if_exit"
    let first ← guarded exit first
    let others ← guardedAll exit others
    let otherwise ← block otherwise
    return [.block exit] ++ first ++ others ++ otherwise ++ [.endRegion]
  | .loop (.mk test body) _ => do
    let exit ← newLabel "while_exit"
    let head ← newLabel "while_loop"
    let test ← expr p test
    let body ← block body
    return [.block exit, .loop head] ++ test ++ [.eqz, .brIf exit] ++ body
      ++ [.br head, .endRegion, .endRegion]

/-- The code of statements in order. -/
def block : List Stmt → EmitM (List Instr)
  | [] => return []
  | s :: rest => do
    let code ← stmt s
    return code ++ (← block rest)

/-- Runs the statements of a branch if its condition holds, and then leaves through `exit`. -/
def guarded (exit : String) : Branch → EmitM (List Instr)
  | .mk test body => do
    let test ← expr p test
    let body ← block body
    return test ++ [.ifNonzero] ++ body ++ [.br exit, .endRegion]

/-- Branches in order. -/
def guardedAll (exit : String) : List Branch → EmitM (List Instr)
  | [] => return []
  | b :: rest => do
    let code ← guarded exit b
    return code ++ (← guardedAll exit rest)

end

end ObjLang.Emit
