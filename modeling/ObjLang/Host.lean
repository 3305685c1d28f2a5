import ObjLang.Word

/-!
# ObjLang.Host — functions that a program finds on its host

A host function either prints a line or gives a word.
-/

namespace ObjLang

/-- A host function. -/
inductive HostFunction where
  | printNum
  | printBool
  | printNone
  | abs
  | min
  | max
  | pow
  /-- Gives back a reference, unless it is empty. -/
  | checkInit
deriving DecidableEq

/-- What a host function does. -/
inductive HostReply where
  | line (s : String)
  | value (v : Int32)
deriving DecidableEq

namespace HostFunction

/-- All host functions. -/
def all : List HostFunction := [printNum, printBool, printNone, abs, min, max, pow, checkInit]

/-- The name by which a host function is imported. -/
def field : HostFunction → String
  | printNum => "print_num"
  | printBool => "print_bool"
  | printNone => "print_none"
  | abs => "abs"
  | min => "min"
  | max => "max"
  | pow => "pow"
  | checkInit => "check_init"

/-- The host function of a name. -/
def ofField? (name : String) : Option HostFunction := all.find? (·.field == name)

/-- Number of parameters. -/
def params : HostFunction → Nat
  | min | max | pow => 2
  | _ => 1

/-- Whether a host function gives a word. -/
def hasResult : HostFunction → Bool
  | printNum | printBool | printNone => false
  | _ => true

/-- What a host function does with its arguments.  Arguments beyond its parameters do not matter, and
the printer of the empty reference looks at none. -/
def call : HostFunction → List Int32 → Except Trap HostReply
  | printNum, a :: _ => .ok (.line (toString a.toInt))
  | printBool, a :: _ => .ok (.line (if a = 0 then "False" else "True"))
  | printNone, _ => .ok (.line "None")
  | abs, a :: _ => .ok (.value (if a < 0 then -a else a))
  | min, a :: b :: _ => .ok (.value (if a ≤ b then a else b))
  | max, a :: b :: _ => .ok (.value (if a ≤ b then b else a))
  | pow, a :: b :: _ =>
    if b < 0 then .error (.invalidArgument pow.field b) else .ok (.value (powWord a b.toInt.toNat))
  | checkInit, a :: _ => if a ≤ 0 then .error .notInitialized else .ok (.value a)
  | _, _ => .error .stackUnderflow

end HostFunction

end ObjLang
