import ObjLang.Code.Instr
import ObjLang.Trap

/-!
# ObjLang.Word — arithmetic of words

Sums, differences, products and powers wrap around.  A quotient is cut off toward zero, a remainder
has the sign of the dividend, and comparisons give one or zero.
-/

namespace ObjLang

/-- The word for a truth value. -/
def truthWord (b : Bool) : Int32 := if b then 1 else 0

/-- The value of an operation. -/
def WordOp.eval : WordOp → Int32 → Int32 → Except Trap Int32
  | add, a, b => .ok (a + b)
  | sub, a, b => .ok (a - b)
  | mul, a, b => .ok (a * b)
  | divS, a, b =>
    if b = 0 then .error .divisionByZero
    else if a = Int32.minValue ∧ b = -1 then .error .overflow
    else .ok (a / b)
  | remS, a, b => if b = 0 then .error .divisionByZero else .ok (a % b)
  | eq, a, b => .ok (truthWord (a == b))
  | ne, a, b => .ok (truthWord (a != b))
  | ltS, a, b => .ok (truthWord (a < b))
  | gtS, a, b => .ok (truthWord (b < a))
  | leS, a, b => .ok (truthWord (a ≤ b))
  | geS, a, b => .ok (truthWord (b ≤ a))

/-- The power of a word, by repeated squaring. -/
def powWord (base : Int32) (n : Nat) : Int32 :=
  if n = 0 then 1
  else
    let half := powWord (base * base) (n / 2)
    if n % 2 = 1 then base * half else half
termination_by n

end ObjLang
