/-!
# ObjLang.Code.Instr — instructions of the stack code

Every value is one 32-bit word.  Control flow is structured: `block`, `loop` and `ifNonzero` open a
region that `endRegion` closes, and branches name the label of an enclosing block or loop.  Locals,
globals, functions and signatures are named; linking resolves the names.
-/

namespace ObjLang

/-- Operations from two words to one. -/
inductive WordOp where
  | add | sub | mul | divS | remS
  | eq | ne | ltS | gtS | leS | geS
deriving DecidableEq

/-- The spelling of an operation. -/
def WordOp.text : WordOp → String
  | add => "i32.add"
  | sub => "i32.sub"
  | mul => "i32.mul"
  | divS => "i32.div_s"
  | remS => "i32.rem_s"
  | eq => "i32.eq"
  | ne => "i32.ne"
  | ltS => "i32.lt_s"
  | gtS => "i32.gt_s"
  | leS => "i32.le_s"
  | geS => "i32.ge_s"

namespace Code

/-- An instruction. -/
inductive Instr where
  | const (value : Int32)
  | localGet (name : String)
  | localSet (name : String)
  | globalGet (name : String)
  | globalSet (name : String)
  /-- Takes an address, gives the word at the address plus the offset. -/
  | load (offset : Nat)
  /-- Takes an address and a word, and puts the word at the address plus the offset. -/
  | store (offset : Nat)
  | binary (op : WordOp)
  /-- Gives one for zero, and zero for any other word. -/
  | eqz
  | call (name : String)
  /-- Takes arguments and a table position, and calls the function there, which must have the
  named signature. -/
  | callIndirect (signature : String)
  | drop
  | ret
  | unreachable
  /-- Opens a region; a branch to its label leads behind its end. -/
  | block (label : String)
  /-- Opens a region; a branch to its label leads back to its start. -/
  | loop (label : String)
  /-- Takes a word, and opens a region that runs if the word is not zero. -/
  | ifNonzero
  /-- Starts the part of an open `ifNonzero` that runs if the word is zero. -/
  | orElse
  | endRegion
  | br (label : String)
  /-- Takes a word, and branches if it is not zero. -/
  | brIf (label : String)
deriving DecidableEq

namespace Instr

/-- Whether an instruction opens a region. -/
def opensRegion : Instr → Bool
  | block _ | loop _ | ifNonzero => true
  | _ => false

/-- A name as it is written in code. -/
def dollar (name : String) : String := "$" ++ name

/-- A memory offset as it is written in code; offset zero is left out. -/
def offsetText (offset : Nat) : String :=
  if offset = 0 then "" else " offset=" ++ toString offset

/-- The spelling of an instruction. -/
def text : Instr → String
  | const n => "i32.const " ++ toString n.toInt
  | localGet x => "local.get " ++ dollar x
  | localSet x => "local.set " ++ dollar x
  | globalGet x => "global.get " ++ dollar x
  | globalSet x => "global.set " ++ dollar x
  | load o => "i32.load" ++ offsetText o
  | store o => "i32.store" ++ offsetText o
  | binary op => op.text
  | eqz => "i32.eqz"
  | call f => "call " ++ dollar f
  | callIndirect t => "call_indirect (type " ++ dollar t ++ ")"
  | drop => "drop"
  | ret => "return"
  | unreachable => "unreachable"
  | block l => "block " ++ dollar l
  | loop l => "loop " ++ dollar l
  | ifNonzero => "if"
  | orElse => "else"
  | endRegion => "end"
  | br l => "br " ++ dollar l
  | brIf l => "br_if " ++ dollar l

end Instr

end Code

end ObjLang
