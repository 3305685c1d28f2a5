import ObjLang.Span

/-!
# ObjLang.Token — keywords, symbols and the other tokens

Besides keywords, symbols, names and integers the token stream carries the layout tokens
`newline`, `indent` and `dedent`, which stand for line ends and changes of indentation, and ends
with `eof`.
-/

namespace ObjLang

/-- The reserved words. -/
inductive Keyword where
  | defKw | classKw | globalKw | nonlocalKw
  | ifKw | elifKw | elseKw | whileKw | returnKw | passKw
  | isKw | notKw
  | trueKw | falseKw | noneKw
deriving DecidableEq

namespace Keyword

/-- The spelling of a keyword. -/
def text : Keyword → String
  | defKw => "def"
  | classKw => "class"
  | globalKw => "global"
  | nonlocalKw => "nonlocal"
  | ifKw => "if"
  | elifKw => "elif"
  | elseKw => "else"
  | whileKw => "while"
  | returnKw => "return"
  | passKw => "pass"
  | isKw => "is"
  | notKw => "not"
  | trueKw => "True"
  | falseKw => "False"
  | noneKw => "None"

/-- Every keyword. -/
def all : List Keyword :=
  [defKw, classKw, globalKw, nonlocalKw, ifKw, elifKw, elseKw, whileKw, returnKw, passKw, isKw,
    notKw, trueKw, falseKw, noneKw]

/-- The keyword with the given spelling. -/
def ofText? (word : String) : Option Keyword := all.find? (·.text == word)

theorem ofText?_text (k : Keyword) : ofText? k.text = some k := by
  cases k <;> decide

theorem text_of_ofText? {word : String} {k : Keyword} (h : ofText? word = some k) :
    k.text = word := by
  simpa using List.find?_some h

end Keyword

/-- Operators and punctuation. -/
inductive Symbol where
  | plus | minus | star | slashSlash | percent
  | equalEqual | bangEqual | less | greater | lessEqual | greaterEqual
  | equal | leftParen | rightParen | colon | comma | dot | arrow
deriving DecidableEq

/-- The spelling of a symbol. -/
def Symbol.text : Symbol → String
  | plus => "+"
  | minus => "-"
  | star => "*"
  | slashSlash => "//"
  | percent => "%"
  | equalEqual => "=="
  | bangEqual => "!="
  | less => "<"
  | greater => ">"
  | lessEqual => "<="
  | greaterEqual => ">="
  | equal => "="
  | leftParen => "("
  | rightParen => ")"
  | colon => ":"
  | comma => ","
  | dot => "."
  | arrow => "->"

/-- One token of a program. -/
inductive Token where
  | keyword (word : Keyword)
  | symbol (sym : Symbol)
  | int (value : Nat)
  | name (text : String)
  | newline
  | indent
  | dedent
  | eof
deriving DecidableEq

namespace Token

/-- How messages write a token. -/
def text : Token → String
  | keyword k => k.text
  | symbol s => s.text
  | int n => toString n
  | name s => s
  | newline => "newline"
  | indent => "indent"
  | dedent => "dedent"
  | eof => "end of file"

/-- Open brackets after a token; an unmatched closing bracket counts for nothing. -/
def depthAfter (depth : Nat) : Token → Nat
  | symbol .leftParen => depth + 1
  | symbol .rightParen => depth - 1
  | _ => depth

end Token

/-- A token at its place in the source. -/
structure Lexeme where
  token : Token
  span : Span
deriving DecidableEq

end ObjLang
