import Inheritance.Member

/-! Declarations may be refused when they are registered, and the members of a class may be impossible to
resolve. A completion run reports both, next to failures of its own. -/
namespace Inheritance

/-- Why a declaration cannot be accepted whatever else is registered. -/
inductive Defect where
  | synthetic (className member : String)
  | selfSupertype (className : String)
  | repeatedSupertype (className supertype : String)
  | other (reason : String)
  deriving DecidableEq, Repr

instance : ToString Defect where
  toString
    | .synthetic c m => "'" ++ m ++ "' in class '" ++ c ++ "' is synthetic"
    | .selfSupertype c => "class '" ++ c ++ "' lists itself as a supertype"
    | .repeatedSupertype c s => "class '" ++ c ++ "' lists supertype '" ++ s ++ "' more than once"
    | .other reason => reason

inductive RegistrationError where
  | duplicateType (name : String)
  | typeNotFound (name : String)
  | duplicateMember (className member : String)
  | foreignMember (className member : String)
  | invalid (defect : Defect)
  deriving DecidableEq, Repr

instance : ToString RegistrationError where
  toString
    | .duplicateType name => "duplicate type: " ++ name
    | .typeNotFound name => "type not found: " ++ name
    | .duplicateMember c m => "class '" ++ c ++ "' declares '" ++ m ++ "' more than once"
    | .foreignMember c m => "class '" ++ c ++ "' lists member '" ++ m ++ "' owned by another class"
    | .invalid defect => "invalid declaration: " ++ toString defect

/-- Queries that a scope of callable members does not answer. -/
inductive Query where
  | classifiers
  | functions
  | properties
  deriving DecidableEq, Repr

instance : ToString Query where
  toString
    | .classifiers => "classifier lookup"
    | .functions => "function lookup"
    | .properties => "variable lookup"

inductive ResolutionError where
  | unresolvedSupertype (className supertype : String)
  | conflict (className name : String) (first second : Member)
  | unsupported (query : Query) (className : String)
  deriving DecidableEq

namespace ResolutionError

def className : ResolutionError → String
  | unresolvedSupertype c _ => c
  | conflict c _ _ _ => c
  | unsupported _ c => c

def isConflict : ResolutionError → Bool
  | conflict .. => true
  | _ => false

instance : ToString ResolutionError where
  toString
    | unresolvedSupertype c s =>
      "class '" ++ c ++ "' cannot be resolved: supertype '" ++ s ++ "' is unresolved"
    | conflict c _ a b =>
      "class '" ++ c ++ "' inherits conflicting members '" ++ toString a ++ "' and '" ++
        toString b ++ "'"
    | unsupported q c =>
      toString q ++ " is not implemented for the synthetic scope of '" ++ c ++ "'"

end ResolutionError

inductive CompletionError where
  | circularInheritance (name : String)
  | unknownType (name : String)
  | resolution (error : ResolutionError)
  | registration (error : RegistrationError)
  deriving DecidableEq

instance : ToString CompletionError where
  toString
    | .circularInheritance name => "circular inheritance for '" ++ name ++ "'"
    | .unknownType name => "unknown type '" ++ name ++ "'"
    | .resolution e => toString e
    | .registration e => toString e

inductive Failure where
  | registration (error : RegistrationError)
  | resolution (error : ResolutionError)
  | completion (error : CompletionError)
  deriving DecidableEq

instance : ToString Failure where
  toString
    | .registration e => toString e
    | .resolution e => toString e
    | .completion e => toString e

end Inheritance
