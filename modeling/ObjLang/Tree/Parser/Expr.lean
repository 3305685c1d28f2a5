import ObjLang.Tree.Parser.Cursor

/-!
# ObjLang.Tree.Parser.Expr — the expression grammar

Levels, loosest first: `not`; one comparison, which cannot be chained; `+` and `-`; `*`, `//` and
`%`; the sign `-`; field and method access; literals, names, calls of named functions, brackets.
Each level is a function of the parser of the next tighter one, and only brackets and arguments
lead back to the loosest, so the depth of recursion is the depth of brackets.

The sign before `2147483648` makes the one literal whose magnitude is not itself a literal.
-/

namespace ObjLang.Parser

/-- The largest integer literal. -/
def maxLiteral : Nat := 0x7fffffff

/-- The comparison that a token stands for. -/
def comparison? : Token → Option BinaryOp
  | .symbol .equalEqual => some .eq
  | .symbol .bangEqual => some .ne
  | .symbol .less => some .lt
  | .symbol .greater => some .gt
  | .symbol .lessEqual => some .le
  | .symbol .greaterEqual => some .ge
  | .keyword .isKw => some .is
  | _ => none

/-- The additive operator that a token stands for. -/
def additive? : Token → Option BinaryOp
  | .symbol .plus => some .add
  | .symbol .minus => some .sub
  | _ => none

/-- The multiplicative operator that a token stands for. -/
def multiplicative? : Token → Option BinaryOp
  | .symbol .star => some .mul
  | .symbol .slashSlash => some .floorDiv
  | .symbol .percent => some .mod
  | _ => none

/-- An operator between two operands; it covers both. -/
def joined (op : BinaryOp) (left right : Expr) : Expr :=
  .binary { span := left.span.merge right.span } op left right

/-- An operator before an operand, at `start`. -/
def signed (op : UnaryOp) (start : Span) (operand : Expr) : Expr :=
  .unary { span := start.merge operand.span } op operand

/-- Call arguments with their brackets. -/
def arguments (inner : Parser Expr) : Parser (List Expr) := do
  let _ ← expectSymbol .leftParen "'('"
  let args ← commaSeparated inner
  let _ ← expectSymbol .rightParen "')' after arguments"
  return args

/-- A literal, a name, a call of a named function, or an expression in brackets. -/
def atom (inner : Parser Expr) : Parser Expr := do
  match ← peek with
  | .int n =>
    let span ← advance
    if n ≤ maxLiteral then return .literal { span } (.number (Int32.ofNat n))
    else failAt span (.wideInt n)
  | .keyword .trueKw => return .literal { span := ← advance } (.bool true)
  | .keyword .falseKw => return .literal { span := ← advance } (.bool false)
  | .keyword .noneKw => return .literal { span := ← advance } .none
  | .name text =>
    let span ← advance
    if (← peek) = .symbol .leftParen then
      let args ← arguments inner
      return .call { span := span.merge (← behind) } ⟨text, span⟩ args none
    else
      return .name { span } text none
  | .symbol .leftParen =>
    let _ ← advance
    let e ← inner
    let _ ← expectSymbol .rightParen "')'"
    return e
  | _ => unexpected "an expression"

/-- One more field or method access on `object`, if a dot follows. -/
def access? (inner : Parser Expr) (object : Expr) : Parser (Option Expr) := do
  if ← eat (.symbol .dot) then
    let part ← ident "field or method name"
    if (← peek) = .symbol .leftParen then
      let args ← arguments inner
      return some (.method { span := object.span.merge (← behind) } object part args)
    else
      return some (.field { span := object.span.merge part.span } object part)
  else
    return none

/-- An atom with the accesses that follow it. -/
def accesses (inner : Parser Expr) : Parser Expr := do
  let e ← foldMore (access? inner) (← atom inner)
  if (← peek) = .symbol .leftParen then fail (.broken .calledExpression) else return e

/-- An operand with at most `n` signs. -/
def signsUpTo (operand : Parser Expr) : Nat → Parser Expr
  | 0 => fail (.broken .tooDeep)
  | n + 1 => do
    if (← peek) = .symbol .minus then
      let start ← advance
      if (← peek) = .int (maxLiteral + 1) then
        let stop ← advance
        return .literal { span := start.merge stop } (.number Int32.minValue)
      else
        return signed .neg start (← signsUpTo operand n)
    else
      operand

/-- Operands joined by the operators of one level, to the left. -/
def leftChain (op? : Token → Option BinaryOp) (operand : Parser Expr) : Parser Expr := do
  let first ← operand
  foldMore
    (fun left => do
      match op? (← peek) with
      | some op =>
        let _ ← advance
        return some (joined op left (← operand))
      | none => return none)
    first

/-- At most one comparison of two operands. -/
def compared (operand : Parser Expr) : Parser Expr := do
  let left ← operand
  match comparison? (← peek) with
  | none => return left
  | some op =>
    let _ ← advance
    let right ← operand
    if (comparison? (← peek)).isSome then fail (.broken .chainedComparison)
    else return joined op left right

/-- An operand with at most `n` times `not` before it. -/
def negatedUpTo (operand : Parser Expr) : Nat → Parser Expr
  | 0 => fail (.broken .tooDeep)
  | n + 1 => do
    if (← peek) = .keyword .notKw then
      let start ← advance
      return signed .not start (← negatedUpTo operand n)
    else
      operand

/-- An expression in which brackets are at most `n` deep. -/
def exprUpTo : Nat → Parser Expr
  | 0 => fail (.broken .tooDeep)
  | n + 1 => do
    let fuel := (← get).left + 2
    let factor : Parser Expr := do
      let fuel := (← get).left + 2
      signsUpTo (accesses (exprUpTo n)) fuel
    negatedUpTo (compared (leftChain additive? (leftChain multiplicative? factor))) fuel

/-- An expression. -/
def expr : Parser Expr := do exprUpTo ((← get).left + 2)

end ObjLang.Parser
