/-!
# ObjLang.Trap — faults of a running program
-/

namespace ObjLang

/-- Why a program stops before its end. -/
inductive Trap where
  /-- A field or a method of the empty reference. -/
  | notInitialized
  | divisionByZero
  /-- A quotient that is no word. -/
  | overflow
  | memoryOutOfBounds (address : Nat)
  /-- A call through a table position, or of a function, that does not exist. -/
  | undefinedElement (index : Int32)
  | callMismatch (expected actual : Nat)
  | callDepth (depth : Nat)
  | invalidArgument (function : String) (value : Int32)
  | stackUnderflow
  | unreachable
deriving DecidableEq

/-- The wording of a trap. -/
def Trap.message : Trap → String
  | notInitialized => "Object not initialized"
  | divisionByZero => "Integer division by zero"
  | overflow => "Integer overflow"
  | memoryOutOfBounds address => "Memory access out of bounds at address " ++ toString address
  | undefinedElement index => "Undefined table element " ++ toString index.toInt
  | callMismatch expected actual =>
    "Indirect call type mismatch: expected " ++ toString expected ++ " parameters, found "
      ++ toString actual
  | callDepth depth => "Call stack exhausted at depth " ++ toString depth
  | invalidArgument function value =>
    "Invalid argument " ++ toString value.toInt ++ " to '" ++ function ++ "'"
  | stackUnderflow => "Operand stack underflow"
  | unreachable => "Unreachable executed"

end ObjLang
