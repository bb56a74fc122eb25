import Trance.Expr
import Trance.Files
import Trance.Checking.Diagnostic
import Trance.Checking.Ty
import Trance.Parsing.Basic

/-!
# Findings

What the checker can find, each with what the message about it needs to know. Every finding
has one code and one wording.
-/

namespace Trance

/-- What the checker can find. -/
inductive Finding where
  | undefinedVariable (name : String)
  | variableMismatch (name : String) (declared actual : Ty)
  | fieldMismatch (owner field : String) (declared actual : Ty)
  | returnMismatch (name : String) (expected actual : Ty)
  | argumentMismatch (position : Nat) (name : String) (expected actual : Ty)
  | assignMismatch (value : Ty) (name : String) (target : Ty)
  | placeMismatch (value target : Ty)
  | givenFieldMismatch (typeName field : String) (expected actual : Ty)
  | cannotInfer (name : String)
  | untyped (name : String)
  | redeclaredSession (name : String)
  | redeclaredTranceify (name : String)
  | redeclaredSuggestion (name : String)
  | redeclaredVariable (name : String)
  | redeclaredLabel (name : String)
  | redeclaredParam (param name : String)
  | arithmeticOperands (op : BinaryOp) (left right : Ty)
  | comparisonOperands (op : BinaryOp) (left right : Ty)
  | logicalOperands (op : BinaryOp) (left right : Ty)
  | notOperand (operand : Ty)
  | signOperand (op : UnaryOp) (operand : Ty)
  | indexNotNumeric (index : Ty)
  | notIndexable (object : Ty)
  | unknownType (name : String)
  | unknownTranceify (name : String)
  | noSessionMember (session member : String)
  | notDominant (member session : String)
  | noTranceifyField (typeName field : String)
  | noMember (type : Ty) (member : String)
  | concealed (member session : String)
  | suggestionArguments (name : String) (expected given : Nat)
  | constructorArguments (session : String) (expected given : Nat)
  | duplicateMember (member session : String)
  | duplicateField (field typeName : String)
  | givenTwice (field : String)
  | imperativeReturnType (name : String)
  | imperativeValue (name : String)
  | voidValue (name : String) (actual : Ty)
  | missingValue (name : String) (expected : Ty)
  | unknownLabel (name : String)
  | jumpOutsideLoop (word : String)
  | labelAsValue (name : String)
  | memberNotCallable (member : String) (type : Ty)
  | valueNotCallable (type : Ty)
  | nameNotCallable (name : String) (type : Ty)
  | tranceifyCalled (name : String)
  | cannotAssign (name : String)
  | invalidTarget
  | unreadableLink (path : String) (error : FileError)
  | unparsableLink (path : String) (error : ParseError)
  | unknownFunction (name : String)
  | linkCollision (name path : String)
  | conditionType (context : String) (type : Ty)
deriving DecidableEq, Repr, Inhabited

namespace Finding

def code : Finding → Code
  | undefinedVariable _ => .undefinedVariable
  | variableMismatch .. | fieldMismatch .. | returnMismatch .. | argumentMismatch ..
  | assignMismatch .. | placeMismatch .. | givenFieldMismatch .. => .typeMismatch
  | cannotInfer _ | untyped _ => .cannotInferType
  | redeclaredSession _ | redeclaredTranceify _ | redeclaredSuggestion _ | redeclaredVariable _
  | redeclaredLabel _ | redeclaredParam .. => .redeclaration
  | arithmeticOperands .. | comparisonOperands .. | logicalOperands .. | notOperand _
  | signOperand .. | indexNotNumeric _ | notIndexable _ => .invalidOperands
  | unknownType _ | unknownTranceify _ => .unknownType
  | noSessionMember .. | notDominant .. | noTranceifyField .. | noMember .. => .unknownMember
  | concealed .. => .concealedMember
  | suggestionArguments .. | constructorArguments .. => .argumentCount
  | duplicateMember .. | duplicateField .. | givenTwice _ => .duplicateMember
  | imperativeReturnType _ | imperativeValue _ | voidValue .. | missingValue .. => .invalidReturn
  | unknownLabel _ => .unknownLabel
  | jumpOutsideLoop _ => .jumpOutsideLoop
  | labelAsValue _ | memberNotCallable .. | valueNotCallable _ | nameNotCallable ..
  | tranceifyCalled _ => .notCallable
  | cannotAssign _ | invalidTarget => .invalidAssignment
  | unreadableLink .. | unparsableLink .. => .linkFailure
  | unknownFunction _ => .unknownFunction
  | linkCollision .. => .linkCollision
  | conditionType .. => .nonBooleanCondition

def message : Finding → String
  | undefinedVariable name => s!"Undefined variable '{name}'"
  | variableMismatch name declared actual =>
    s!"Type mismatch for variable '{name}': declared {declared.name}, got {actual.name}"
  | fieldMismatch owner field declared actual =>
    s!"Type mismatch for field '{owner}.{field}': declared {declared.name}, got {actual.name}"
  | returnMismatch name expected actual =>
    s!"Return type mismatch in '{name}': expected {expected.name}, got {actual.name}"
  | argumentMismatch position name expected actual =>
    s!"Argument {position} of '{name}' expects {expected.name}, got {actual.name}"
  | assignMismatch value name target =>
    s!"Cannot assign {value.name} to '{name}' of type {target.name}"
  | placeMismatch value target => s!"Cannot assign {value.name} to a member of type {target.name}"
  | givenFieldMismatch typeName field expected actual =>
    s!"Field '{typeName}.{field}' expects {expected.name}, got {actual.name}"
  | cannotInfer name => s!"Cannot infer type of variable '{name}' from its initializer"
  | untyped name => s!"Type of '{name}' is unknown; declare a type or initialize it"
  | redeclaredSession name => s!"Session '{name}' is already declared"
  | redeclaredTranceify name => s!"Tranceify '{name}' is already declared"
  | redeclaredSuggestion name => s!"Suggestion '{name}' is already declared"
  | redeclaredVariable name => s!"Variable '{name}' is already declared in this scope"
  | redeclaredLabel name => s!"Label '{name}' is already declared in this scope"
  | redeclaredParam param name => s!"Parameter '{param}' is declared twice in '{name}'"
  | arithmeticOperands op left right =>
    s!"Operator '{op.symbol}' cannot be applied to {left.name} and {right.name}"
  | comparisonOperands op left right =>
    s!"Comparison '{op.symbol}' requires numeric operands, got {left.name} and {right.name}"
  | logicalOperands op left right =>
    s!"Logical '{op.symbol}' requires boolean operands, got {left.name} and {right.name}"
  | notOperand operand => s!"Operator '!' requires a boolean operand, got {operand.name}"
  | signOperand op operand =>
    s!"Operator '{op.symbol}' requires a numeric operand, got {operand.name}"
  | indexNotNumeric index => s!"Index must be numeric, got {index.name}"
  | notIndexable object => s!"Cannot index into a value of type {object.name}"
  | unknownType name => s!"Unknown type '{name}'"
  | unknownTranceify name => s!"Unknown tranceify type '{name}'"
  | noSessionMember session member => s!"Session '{session}' has no member '{member}'"
  | notDominant member session => s!"'{member}' is not a dominant member of session '{session}'"
  | noTranceifyField typeName field => s!"Tranceify '{typeName}' has no field '{field}'"
  | noMember type member => s!"Type {type.name} has no member '{member}'"
  | concealed member session => s!"Member '{member}' of session '{session}' is concealed"
  | suggestionArguments name expected given =>
    s!"Suggestion '{name}' expects {expected} arguments, got {given}"
  | constructorArguments session expected given =>
    s!"Session '{session}' constructor expects {expected} arguments, got {given}"
  | duplicateMember member session => s!"Duplicate member '{member}' in session '{session}'"
  | duplicateField field typeName => s!"Duplicate field '{field}' in tranceify '{typeName}'"
  | givenTwice field => s!"Field '{field}' is given twice"
  | imperativeReturnType name => s!"Imperative suggestion '{name}' cannot declare a return type"
  | imperativeValue name => s!"Imperative suggestion '{name}' cannot awaken with a value"
  | voidValue name actual => s!"Suggestion '{name}' returns void but awakens with {actual.name}"
  | missingValue name expected =>
    s!"Suggestion '{name}' must awaken with a value of type {expected.name}"
  | unknownLabel name => s!"Label '{name}' is not defined in an enclosing block"
  | jumpOutsideLoop word => s!"'{word}' used outside of a loop"
  | labelAsValue name => s!"Label '{name}' cannot be used as a value"
  | memberNotCallable member type => s!"Member '{member}' of type {type.name} is not callable"
  | valueNotCallable type => s!"Value of type {type.name} is not callable"
  | nameNotCallable name type => s!"'{name}' of type {type.name} is not callable"
  | tranceifyCalled name => s!"Tranceify '{name}' is built with a record literal, not called"
  | cannotAssign name => s!"Cannot assign to '{name}'"
  | invalidTarget => "Invalid assignment target"
  | unreadableLink path error => s!"Cannot read linked file '{path}': {error.message}"
  | unparsableLink path error => s!"Cannot parse linked file '{path}': {error.message}"
  | unknownFunction name => s!"Unknown function '{name}'"
  | linkCollision name path =>
    s!"'{name}' from linked file '{path}' collides with an existing declaration and is skipped"
  | conditionType context type => s!"{context} condition should be boolean, got {type.name}"

/-- The diagnostic for a finding at a position. -/
def diagnose (finding : Finding) (loc : Location) : Diagnostic :=
  ⟨finding.code, finding.message, loc⟩

end Finding

end Trance
