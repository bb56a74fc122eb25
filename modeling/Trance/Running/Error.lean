import Trance.Location

/-!
# Errors of a run

An error ends a run. It has a cause and the position it arose at, except that writing output
can fail anywhere. A run can also break off without an error of the language. A failed
assertion is no error: it is noted, and the run goes on.
-/

namespace Trance

/-- Why a run can end early at a position. -/
inductive RuntimeError.Cause where
  | undefinedVariable (name : String)
  | undefinedFunction (name : String)
  | typeError (expected got : String)
  | missingMember (typeName member : String)
  | concealedMember (typeName member : String)
  | notCallable (name : String)
  | argumentCount (name : String) (expected got : Nat)
  | divisionByZero
  | redefinition (name : String)
  | invalidAssignment (target : String)
  | notAValue (name : String)
  | unresolvedLabel (label : String)
  | jumpOutsideLoop (word : String)
  | unknownType (name : String)
  | inputUnavailable (name : String)
  | invalidInput (name input expected : String)
  | linkFailure (path message : String)
  | indexOutOfBounds (index : Int) (length : Nat)
  | callDepthExceeded (limit : Nat)
deriving DecidableEq, Repr, Inhabited

def RuntimeError.Cause.message (cause : RuntimeError.Cause) (line : Nat) : String :=
  match cause with
  | undefinedVariable name => s!"Undefined variable '{name}' at line {line}"
  | undefinedFunction name => s!"Undefined function '{name}' at line {line}"
  | typeError expected got => s!"Type error at line {line}: expected {expected}, got {got}"
  | missingMember typeName member => s!"'{typeName}' has no member '{member}' (line {line})"
  | concealedMember typeName member =>
    s!"Member '{member}' of session '{typeName}' is concealed (line {line})"
  | notCallable name => s!"'{name}' is not callable (line {line})"
  | argumentCount name expected got =>
    s!"'{name}' expects {expected} arguments, got {got} (line {line})"
  | divisionByZero => s!"Division by zero at line {line}"
  | redefinition name => s!"'{name}' is already defined in this scope (line {line})"
  | invalidAssignment target => s!"Cannot assign to {target} (line {line})"
  | notAValue name => s!"'{name}' is a type, not a value (line {line})"
  | unresolvedLabel label => s!"Label '{label}' not found (sinkTo at line {line})"
  | jumpOutsideLoop word => s!"'{word}' outside of a loop at line {line}"
  | unknownType name => s!"Unknown type '{name}' at line {line}"
  | inputUnavailable name => s!"No input available for '{name}' (line {line})"
  | invalidInput name input expected =>
    s!"Invalid input '{input}' for '{name}': expected {expected} (line {line})"
  | linkFailure path message => s!"Cannot link '{path}': {message} (line {line})"
  | indexOutOfBounds index length =>
    s!"Index {index} out of bounds for length {length} at line {line}"
  | callDepthExceeded limit => s!"Maximum call depth of {limit} exceeded at line {line}"

/-- Why a run ended early: for a cause at a position, or because output could not be written. A run
that panics breaks off for want of an error: it has asked a session for its type while a field of
this session was being changed. -/
inductive RuntimeError where
  | raised (cause : RuntimeError.Cause) (loc : Location)
  | output (message : String)
  | panicked
deriving DecidableEq, Repr, Inhabited

namespace RuntimeError

def location? : RuntimeError → Option Location
  | raised _ loc => some loc
  | output _ | panicked => none

def message : RuntimeError → String
  | raised cause loc => cause.message loc.line
  | output message => "Output error: " ++ message
  | panicked => "already mutably borrowed: BorrowError"

end RuntimeError

/-- An assertion that did not hold when it was met. -/
structure AssertionFailure where
  message : String
  location : Location
deriving DecidableEq, Repr, Inhabited

namespace AssertionFailure

/-- The message of an assertion that states none. -/
def defaultMessage : String := "Assertion failed"

def text (f : AssertionFailure) : String :=
  s!"Assertion failed at line {f.location.line}, column {f.location.column}: {f.message}"

end AssertionFailure

end Trance
