import ObjLang.Tree
import ObjLang.Tree.Parser.Error

/-!
# ObjLang.Tree.Parser.Cursor — reading a token stream

A cursor stands on a token, with the tokens ahead and the place of the token read last.  It never
moves past `eof` nor past the last token.  A parser is a function on cursors that fails or returns
a value with the cursor behind what it read.

Repetition is bounded: `collect` and `foldMore` run their step at most once for each token from the
cursor on, and once more to see the end.  A step that reads a token each time never meets the bound.
-/

namespace ObjLang

/-- A place in a token stream. -/
structure Cursor where
  current : Lexeme
  ahead : List Lexeme
  previous : Span

namespace Cursor

/-- The start of a token stream. -/
def ofList : List Lexeme → Cursor
  | [] => ⟨⟨.eof, default⟩, [], default⟩
  | l :: ls => ⟨l, ls, l.span⟩

/-- One token further, except at the end. -/
def next (c : Cursor) : Cursor :=
  if c.current.token = .eof then c
  else
    match c.ahead with
    | [] => c
    | l :: ls => ⟨l, ls, c.current.span⟩

/-- Number of tokens after the current one. -/
def left (c : Cursor) : Nat := c.ahead.length

/-- Whether the cursor stands on `name :`, which starts a variable definition. -/
def atVarDef (c : Cursor) : Bool :=
  match c.current.token, c.ahead with
  | .name _, l :: _ => l.token == .symbol .colon
  | _, _ => false

/-- Whether the cursor stands on a declaration. -/
def atDeclaration (c : Cursor) : Bool :=
  match c.current.token with
  | .keyword .defKw | .keyword .classKw | .keyword .globalKw | .keyword .nonlocalKw => true
  | _ => c.atVarDef

/-- Whether the cursor stands at the end of an indented block. -/
def atBlockEnd (c : Cursor) : Bool :=
  match c.current.token with
  | .dedent | .eof => true
  | _ => false

end Cursor

/-- A function that reads tokens. -/
abbrev Parser (α : Type) := StateT Cursor (Except ParseError) α

namespace Parser

/-- The current token. -/
def peek : Parser Token := do return (← get).current.token

/-- The place of the current token. -/
def here : Parser Span := do return (← get).current.span

/-- The place of the token read last. -/
def behind : Parser Span := do return (← get).previous

/-- Fails at the given place. -/
def failAt {α : Type} (span : Span) (cause : ParseError.Cause) : Parser α := throw ⟨cause, span⟩

/-- Fails at the current token. -/
def fail {α : Type} (cause : ParseError.Cause) : Parser α := do failAt (← here) cause

/-- Fails because the current token is not what is needed. -/
def unexpected {α : Type} (what : String) : Parser α := do fail (.expected what (← peek))

/-- Reads the current token and gives its place. -/
def advance : Parser Span := do
  let c ← get
  set c.next
  return c.current.span

/-- Reads the given token if it is the current one, and tells whether it was. -/
def eat (t : Token) : Parser Bool := do
  if (← peek) = t then
    let _ ← advance
    return true
  else
    return false

/-- Reads the given token, which must be the current one. -/
def expect (t : Token) (what : String) : Parser Span := do
  if (← peek) = t then advance else unexpected what

/-- Reads a symbol, which must be the current token. -/
def expectSymbol (s : Symbol) (what : String) : Parser Span := expect (.symbol s) what

/-- Reads a name. -/
def ident (what : String) : Parser Ident := do
  match ← peek with
  | .name text => return ⟨text, ← advance⟩
  | _ => unexpected what

/-- Runs `next` until it gives nothing, at most `n` times, and lists what it gave. -/
def collectUpTo {α : Type} (next : Parser (Option α)) : Nat → Parser (List α)
  | 0 => fail (.broken .tooDeep)
  | n + 1 => do
    match ← next with
    | none => return []
    | some a => return a :: (← collectUpTo next n)

/-- Runs `next` until it gives nothing, and lists what it gave. -/
def collect {α : Type} (next : Parser (Option α)) : Parser (List α) := do
  collectUpTo next ((← get).left + 2)

/-- Runs `more` on a growing value until it gives nothing, at most `n` times. -/
def foldMoreUpTo {α : Type} (more : α → Parser (Option α)) : Nat → α → Parser α
  | 0, _ => fail (.broken .tooDeep)
  | n + 1, a => do
    match ← more a with
    | none => return a
    | some b => foldMoreUpTo more n b

/-- Runs `more` on a growing value until it gives nothing. -/
def foldMore {α : Type} (more : α → Parser (Option α)) (a : α) : Parser α := do
  foldMoreUpTo more ((← get).left + 2) a

/-- What comes before the next closing bracket, separated by commas. -/
def commaSeparated {α : Type} (item : Parser α) : Parser (List α) := do
  if (← peek) = .symbol .rightParen then
    return []
  else
    let first ← item
    let rest ← collect do
      if ← eat (.symbol .comma) then return some (← item) else return none
    return first :: rest

/-- Runs a parser on a token stream and gives its value. -/
def run {α : Type} (p : Parser α) (tokens : List Lexeme) : Except ParseError α :=
  (StateT.run p (Cursor.ofList tokens)).map (·.1)

end Parser

end ObjLang
