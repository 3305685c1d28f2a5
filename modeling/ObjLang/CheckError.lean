import ObjLang.Tree

/-!
# ObjLang.CheckError — why a program is refused

Each cause belongs to one of three categories: references to names, types, and layouts.
-/

namespace ObjLang

/-- The category of a refusal. -/
inductive CheckError.Kind where
  | reference
  | type
  | layout
deriving DecidableEq

/-- What is wrong with a program. -/
inductive CheckError.Cause where
  | undefinedVariable (name : String)
  | undefinedFunction (name : String)
  | undeclaredAssignment (name : String)
  | invalidScopeDecl (name kind : String)
  | unknownField (className field : String)
  | unknownMethod (className method : String)
  | unresolvedCapture (name : String)
  | typeMismatch (expected actual : String)
  | invalidBinaryOp (op left right : String)
  | invalidUnaryOp (op operand : String)
  | argumentCount (name : String) (expected actual : Nat)
  | notAnObject (actual : String)
  | undefinedType (name : String)
  | missingReturn (name : String)
  | badOverride (className method reason : String)
  | invalidMethodSignature (className method reason : String)
  | invalidInitializer (name expected actual : String)
  | cannotPrint (actual : String)
  | duplicateIdentifier (name : String)
  | duplicateField (className field : String)
  | unknownSuperclass (className superclass : String)
  | inheritanceCycle (className : String)
deriving DecidableEq

/-- What is wrong with a program, and where. -/
structure CheckError where
  cause : CheckError.Cause
  span : Span
deriving DecidableEq

namespace CheckError

/-- The wording of a category. -/
def Kind.text : Kind → String
  | reference => "reference error"
  | type => "type error"
  | layout => "layout error"

/-- The category of a cause. -/
def Cause.kind : Cause → Kind
  | undefinedVariable _ | undefinedFunction _ | undeclaredAssignment _ | invalidScopeDecl _ _
  | unknownField _ _ | unknownMethod _ _ | unresolvedCapture _ => .reference
  | typeMismatch _ _ | invalidBinaryOp _ _ _ | invalidUnaryOp _ _ | argumentCount _ _ _
  | notAnObject _ | undefinedType _ | missingReturn _ | badOverride _ _ _
  | invalidMethodSignature _ _ _ | invalidInitializer _ _ _ | cannotPrint _ => .type
  | duplicateIdentifier _ | duplicateField _ _ | unknownSuperclass _ _ | inheritanceCycle _ =>
    .layout

/-- The wording of a cause. -/
def Cause.message : Cause → String
  | undefinedVariable name => "Undefined variable '" ++ name ++ "'"
  | undefinedFunction name => "Undefined function '" ++ name ++ "'"
  | undeclaredAssignment name =>
    "Cannot assign variable '" ++ name ++ "' that is not explicitly declared in this scope"
  | invalidScopeDecl name kind => "'" ++ name ++ "' is not a " ++ kind ++ " variable"
  | unknownField className field => "Class '" ++ className ++ "' has no field '" ++ field ++ "'"
  | unknownMethod className method =>
    "Class '" ++ className ++ "' has no method '" ++ method ++ "'"
  | unresolvedCapture name => "Captured variable '" ++ name ++ "' is not reachable from this call"
  | typeMismatch expected actual => "Type mismatch: expected " ++ expected ++ ", got " ++ actual
  | invalidBinaryOp op left right =>
    "Operator '" ++ op ++ "' cannot be applied to " ++ left ++ " and " ++ right
  | invalidUnaryOp op operand => "Operator '" ++ op ++ "' cannot be applied to " ++ operand
  | argumentCount name expected actual =>
    "'" ++ name ++ "' expects " ++ toString expected ++ " argument(s), got " ++ toString actual
  | notAnObject actual => "Expected an object, got " ++ actual
  | undefinedType name => "Invalid type annotation; there is no class named: " ++ name
  | missingReturn name =>
    "All paths in function '" ++ name ++ "' must have a return statement"
  | badOverride className method reason =>
    "Method '" ++ method ++ "' in class '" ++ className
      ++ "' overrides with an incompatible signature: " ++ reason
  | invalidMethodSignature className method reason =>
    "Invalid signature for method '" ++ method ++ "' in class '" ++ className ++ "': " ++ reason
  | invalidInitializer name expected actual =>
    "Invalid initializer for '" ++ name ++ "': expected " ++ expected ++ ", got " ++ actual
  | cannotPrint actual => "Cannot print a value of type " ++ actual
  | duplicateIdentifier name =>
    "Duplicate declaration of identifier '" ++ name ++ "' in the same scope"
  | duplicateField className field =>
    "Cannot re-define attribute '" ++ field ++ "' in class '" ++ className ++ "'"
  | unknownSuperclass className superclass =>
    "Class '" ++ className ++ "' extends unknown class '" ++ superclass ++ "'"
  | inheritanceCycle className =>
    "Class '" ++ className ++ "' is part of an inheritance cycle"

/-- The wording of a refusal. -/
def message (e : CheckError) : String := e.cause.message

/-- The category of a refusal. -/
def kind (e : CheckError) : Kind := e.cause.kind

end CheckError

end ObjLang
