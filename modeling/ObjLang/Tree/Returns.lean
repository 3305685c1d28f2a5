import ObjLang.Tree

/-!
# ObjLang.Tree.Returns — which statements return on every path

A statement list returns if one of its statements does.  A condition with an `else` part returns if
all its parts do; a loop never counts, since its body may run zero times.
-/

namespace ObjLang

mutual

/-- Whether a statement returns on every path. -/
def Stmt.alwaysReturns : Stmt → Bool
  | .ret _ _ => true
  | .cond first others otherwise _ =>
    !otherwise.isEmpty && first.returns && Branch.allReturn others && Stmt.bodyReturns otherwise
  | _ => false

/-- Whether every path through a statement list ends in a `return`. -/
def Stmt.bodyReturns : List Stmt → Bool
  | [] => false
  | s :: rest => s.alwaysReturns || Stmt.bodyReturns rest

/-- Whether every path through the statements of a branch ends in a `return`. -/
def Branch.returns : Branch → Bool
  | .mk _ body => Stmt.bodyReturns body

/-- Whether all branches return. -/
def Branch.allReturn : List Branch → Bool
  | [] => true
  | b :: rest => b.returns && Branch.allReturn rest

end

/-- The body of a function, or of a nested one, with the path of names that leads to it. -/
structure FunDef.Entry where
  path : String
  body : List Stmt

mutual

/-- A function under the path `path`, followed by its nested functions, depth first. -/
def FunDef.entries (path : String) : FunDef → List FunDef.Entry
  | { nested, body, .. } => ⟨path, body⟩ :: FunDef.nestedEntries path nested

/-- The entries of functions nested in the function of the given path. -/
def FunDef.nestedEntries (path : String) : List FunDef → List FunDef.Entry
  | [] => []
  | f :: rest => f.entries (path ++ "$" ++ f.name.name) ++ FunDef.nestedEntries path rest

end

/-- Every function body of a program: the methods of the classes, then the functions. -/
def Program.bodies (p : Program) : List FunDef.Entry :=
  p.classes.flatMap (fun c =>
      c.methods.flatMap fun m => m.entries (c.name.name ++ "$" ++ m.name.name))
    ++ p.functions.flatMap fun f => f.entries f.name.name

end ObjLang
