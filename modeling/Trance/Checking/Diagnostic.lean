import Trance.Location

/-!
# Diagnostics

A diagnostic is a coded message at a position. The code decides whether it is an error or a
warning, and a report keeps the two apart, each in the order of reporting.
-/

namespace Trance

/-- How serious a diagnostic is. -/
inductive Severity where
  | error | warning
deriving DecidableEq, Repr, Inhabited

def Severity.text : Severity → String
  | error => "Error"
  | warning => "Warning"

/-- The codes of diagnostics. -/
inductive Code where
  | undefinedVariable | typeMismatch | cannotInferType | redeclaration | invalidOperands
  | unknownType | unknownMember | concealedMember | argumentCount | duplicateMember
  | invalidReturn | unknownLabel | jumpOutsideLoop | notCallable | invalidAssignment | linkFailure
  | unknownFunction | linkCollision | nonBooleanCondition
deriving DecidableEq, Repr, Inhabited

namespace Code

def short : Code → String
  | undefinedVariable => "E001"
  | typeMismatch => "E002"
  | cannotInferType => "E003"
  | redeclaration => "E004"
  | invalidOperands => "E005"
  | unknownType => "E006"
  | unknownMember => "E007"
  | concealedMember => "E008"
  | argumentCount => "E009"
  | duplicateMember => "E010"
  | invalidReturn => "E011"
  | unknownLabel => "E012"
  | jumpOutsideLoop => "E013"
  | notCallable => "E014"
  | invalidAssignment => "E015"
  | linkFailure => "E016"
  | unknownFunction => "W001"
  | linkCollision => "W002"
  | nonBooleanCondition => "W003"

def description : Code → String
  | undefinedVariable => "undefined variable"
  | typeMismatch => "type mismatch"
  | cannotInferType => "cannot infer type"
  | redeclaration => "redeclaration"
  | invalidOperands => "invalid operands"
  | unknownType => "unknown type"
  | unknownMember => "unknown member"
  | concealedMember => "concealed member"
  | argumentCount => "argument count mismatch"
  | duplicateMember => "duplicate member"
  | invalidReturn => "invalid awaken"
  | unknownLabel => "unknown label"
  | jumpOutsideLoop => "jump outside loop"
  | notCallable => "not callable"
  | invalidAssignment => "invalid assignment"
  | linkFailure => "mindLink failure"
  | unknownFunction => "unknown function"
  | linkCollision => "mindLink name collision"
  | nonBooleanCondition => "non-boolean condition"

def severity : Code → Severity
  | unknownFunction | linkCollision | nonBooleanCondition => .warning
  | _ => .error

end Code

/-- A coded message at a position. -/
structure Diagnostic where
  code : Code
  message : String
  location : Location
deriving DecidableEq, Repr, Inhabited

namespace Diagnostic

/-- How serious a diagnostic is, which its code decides. -/
def severity (d : Diagnostic) : Severity := d.code.severity

def text (d : Diagnostic) : String :=
  "[" ++ d.code.short ++ "] " ++ d.severity.text ++ " at " ++ d.location.text ++ " - " ++ d.message

/-- The diagnostic as it is passed on by a file that links the file it is about. -/
def within (d : Diagnostic) (path : String) : Diagnostic :=
  { d with message := path ++ ": " ++ d.message }

end Diagnostic

/-- The diagnostics so far: errors and warnings, each in the order of reporting. -/
structure Report where
  errors : List Diagnostic
  warnings : List Diagnostic
deriving DecidableEq, Repr, Inhabited

namespace Report

def empty : Report := ⟨[], []⟩

/-- Add a diagnostic behind the others of its severity. -/
def add (r : Report) (d : Diagnostic) : Report :=
  match d.severity with
  | .error => { r with errors := r.errors ++ [d] }
  | .warning => { r with warnings := r.warnings ++ [d] }

def all (r : Report) : List Diagnostic := r.errors ++ r.warnings

def hasErrors (r : Report) : Bool := !r.errors.isEmpty

end Report

end Trance
