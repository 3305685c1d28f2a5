import ObjLang.CheckError
import ObjLang.Tree.Parser.Error

/-!
# ObjLang.Diagnostic — errors as a reader of the source sees them

A diagnostic has a severity, a message, a code, labels on stretches of source files, and notes.
Files are numbered; `LocatedLabel` gives a label by file name, lines and columns.
-/

namespace ObjLang

/-- How grave a diagnostic is. -/
inductive Severity where
  | bug | error | warning | note | help
deriving DecidableEq

/-- The spelling of a severity. -/
def Severity.text : Severity → String
  | bug => "bug"
  | error => "error"
  | warning => "warning"
  | note => "note"
  | help => "help"

/-- A message on a stretch of a source file, given by byte offsets. -/
structure Label where
  file : Nat
  start : Nat
  stop : Nat
  message : String
deriving DecidableEq

/-- A message about source text. -/
structure Diagnostic where
  severity : Severity
  message : String
  code : Option String := none
  labels : List Label := []
  notes : List String := []
deriving DecidableEq

/-- A source file. -/
structure SourceFile where
  name : String
  text : String

/-- A label in terms of lines and columns, all from one. -/
structure LocatedLabel where
  file : String
  startLine : Nat
  startColumn : Nat
  stopLine : Nat
  stopColumn : Nat
  message : String
deriving DecidableEq

/-- The code of a cause. -/
def ParseError.code (e : ParseError) : String :=
  match e.cause with
  | .expected _ _ | .literalInit _ => "E1001"
  | .broken _ => "E1002"
  | .wideInt _ => "E1003"
  | .lateDeclaration _ => "E1004"
  | .lex _ => "E1005"

/-- What the label at the place of the fault says. -/
def ParseError.label (e : ParseError) : String :=
  match e.cause with
  | .expected _ found | .literalInit found => "unexpected '" ++ found.text ++ "'"
  | .broken _ => "invalid syntax"
  | .wideInt _ => "out of range"
  | .lateDeclaration _ => "declaration after statement"
  | .lex _ => "invalid token"

/-- The code of a cause. -/
def CheckError.code (e : CheckError) : String :=
  match e.cause with
  | .typeMismatch _ _ => "E2001"
  | .invalidBinaryOp _ _ _ => "E2002"
  | .invalidUnaryOp _ _ => "E2003"
  | .argumentCount _ _ _ => "E2004"
  | .notAnObject _ => "E2005"
  | .undefinedType _ => "E2006"
  | .missingReturn _ => "E2007"
  | .badOverride _ _ _ => "E2008"
  | .invalidMethodSignature _ _ _ => "E2009"
  | .invalidInitializer _ _ _ => "E2010"
  | .cannotPrint _ => "E2011"
  | .undefinedVariable _ => "E3001"
  | .undefinedFunction _ => "E3002"
  | .undeclaredAssignment _ => "E3003"
  | .invalidScopeDecl _ _ => "E3004"
  | .unknownField _ _ => "E3005"
  | .unknownMethod _ _ => "E3006"
  | .unresolvedCapture _ => "E3007"
  | .duplicateIdentifier _ => "E4001"
  | .duplicateField _ _ => "E4002"
  | .unknownSuperclass _ _ => "E4003"
  | .inheritanceCycle _ => "E4004"

/-- What the label at the place of the fault says. -/
def CheckError.label (e : CheckError) : String :=
  match e.cause with
  | .undefinedVariable _ => "not found in this scope"
  | .undefinedFunction _ => "no function, class or builtin with this name"
  | .undeclaredAssignment _ => "assigned here"
  | .invalidScopeDecl _ kind => "not a " ++ kind ++ " variable"
  | .unknownField _ _ => "field not found"
  | .unknownMethod _ _ => "method not found"
  | .unresolvedCapture _ => "called here"
  | .typeMismatch expected actual => "expected '" ++ expected ++ "', found '" ++ actual ++ "'"
  | .invalidBinaryOp _ _ _ | .invalidUnaryOp _ _ => "invalid operation"
  | .argumentCount _ _ _ => "incorrect number of arguments"
  | .notAnObject _ => "not an object"
  | .undefinedType _ => "type not found"
  | .missingReturn _ => "missing return"
  | .badOverride _ _ _ => "incompatible override"
  | .invalidMethodSignature _ _ _ => "invalid signature"
  | .invalidInitializer _ _ _ => "wrong literal"
  | .cannotPrint _ => "cannot be printed"
  | .duplicateIdentifier _ => "duplicate declaration"
  | .duplicateField _ _ => "re-declared here"
  | .unknownSuperclass _ _ => "unknown class"
  | .inheritanceCycle _ => "cyclic inheritance"

namespace Diagnostic

/-- A note that gives advice. -/
def helpNote (advice : String) : String := "help: " ++ advice

/-- The label on a span. -/
def labelAt (file : Nat) (span : Span) (message : String) : Label :=
  ⟨file, span.start, span.stop, message⟩

/-- The diagnostic of a text that is no program. -/
def ofParseError (file : Nat) (e : ParseError) : Diagnostic where
  severity := .error
  message := e.text
  code := some e.code
  labels := [labelAt file e.span e.label]
  notes := (e.suggestion?.map helpNote).toList

/-- The notes that explain a refusal. -/
def notesOf (e : CheckError) : List String :=
  match e.cause with
  | .undeclaredAssignment name =>
    [helpNote ("declare it with 'global " ++ name ++ "' or 'nonlocal " ++ name ++ "'")]
  | .typeMismatch _ actual =>
    if actual = "None" then ["None can only be stored in object-typed locations"] else []
  | .badOverride _ _ _ =>
    ["overrides keep the inherited parameter types and may narrow the return type"]
  | _ => []

/-- The diagnostic of a refused program. -/
def ofCheckError (file : Nat) (e : CheckError) : Diagnostic where
  severity := .error
  message := e.message
  code := some e.code
  labels := [labelAt file e.span e.label]
  notes := notesOf e

/-- A label by file name, lines and columns; none if the file is unknown. -/
def locate? (files : List SourceFile) (l : Label) : Option LocatedLabel :=
  files[l.file]?.map fun f =>
    let (startLine, startColumn) := Source.location f.text.toList l.start
    let (stopLine, stopColumn) := Source.location f.text.toList l.stop
    ⟨f.name, startLine, startColumn, stopLine, stopColumn, l.message⟩

/-- All labels on known files. -/
def located (files : List SourceFile) (d : Diagnostic) : List LocatedLabel :=
  d.labels.filterMap (locate? files)

end Diagnostic

end ObjLang
