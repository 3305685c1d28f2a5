import ObjLang.Token.Layout

/-!
# ObjLang.Tree.Parser.Error — why a text is not a program

Parsing stops at the first fault.  The wording, and the advice that some faults come with, are
functions of the cause.
-/

namespace ObjLang

/-- Rules of the grammar beyond the expected next token. -/
inductive ParseError.Rule where
  | returnOutsideFunction
  | emptyFunctionBody
  | classBodyItem
  | chainedComparison
  | calledExpression
  | assignmentTarget
  | tooDeep
deriving DecidableEq

/-- What went wrong. -/
inductive ParseError.Cause where
  /-- Another token was needed here. -/
  | expected (what : String) (found : Token)
  /-- A variable definition starts with something other than a literal. -/
  | literalInit (found : Token)
  /-- A rule is broken. -/
  | broken (rule : ParseError.Rule)
  /-- An integer literal does not fit a machine word. -/
  | wideInt (value : Int)
  /-- A declaration follows a statement, or stands in a nested block. -/
  | lateDeclaration (inBlock : Bool)
  /-- The text has no token stream; this is its first fault. -/
  | lex (cause : LexError.Cause)
deriving DecidableEq

/-- A fault and its place. -/
structure ParseError where
  cause : ParseError.Cause
  span : Span
deriving DecidableEq

namespace ParseError

/-- The wording of a rule. -/
def Rule.text : Rule → String
  | returnOutsideFunction => "'return' outside function"
  | emptyFunctionBody => "function body must contain at least one statement"
  | classBodyItem => "class bodies may only contain fields, methods and 'pass'"
  | chainedComparison => "comparison operators cannot be chained"
  | calledExpression => "only named functions and methods can be called"
  | assignmentTarget => "can only assign to a variable or a field"
  | tooDeep => "nesting is too deep"

/-- What went wrong, in words. -/
def text (e : ParseError) : String :=
  match e.cause with
  | .expected what found => "Expected " ++ what ++ ", found '" ++ found.text ++ "'"
  | .literalInit found => "Expected a literal initializer, found '" ++ found.text ++ "'"
  | .broken rule => "Invalid syntax: " ++ rule.text
  | .wideInt value => "Integer literal " ++ toString value ++ " does not fit in 32 bits"
  | .lateDeclaration _ => "Declarations must come before statements"
  | .lex cause => LexError.description ⟨cause, e.span⟩

/-- Advice on how to mend it. -/
def suggestion? (e : ParseError) : Option String :=
  match e.cause with
  | .literalInit _ => some "variable definitions must be initialized with a literal"
  | .broken .emptyFunctionBody => some "add 'pass'"
  | .lateDeclaration false => some "move this declaration above the first statement"
  | .lateDeclaration true =>
    some "declarations are only allowed at the start of a function or module"
  | _ => none

/-- What went wrong, with line and column in front and advice below. -/
def message (e : ParseError) : String :=
  let head := "Parse error at " ++ toString e.span.line ++ ":" ++ toString e.span.column ++ ": "
    ++ e.text
  match e.suggestion? with
  | some s => head ++ "\n  Suggestion: " ++ s
  | none => head

/-- The fault of a text without token stream. -/
def ofLex (e : LexError) : ParseError := ⟨.lex e.cause, e.span⟩

end ParseError

end ObjLang
