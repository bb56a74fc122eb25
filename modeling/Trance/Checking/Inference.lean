import Trance.Checking.Builtin
import Trance.Checking.Checker

/-!
# Types of expressions

Every expression gets a type, and what is wrong with it is reported on the way. An operand of
type `unknown` has been reported where it arose, so the expression around it stays silent.
-/

namespace Trance.Check

/-! ## Names and operators -/

def nameType (name : String) (loc : Location) : Check Ty := do
  match ← resolve? name with
  | none =>
    report (.undefinedVariable name) loc
    return .unknown
  | some symbol =>
    match symbol.kind with
    | .suggestion | .builtin | .module => return .any
    | .label =>
      report (.labelAsValue name) loc
      return .unknown
    | .variable | .session | .record | .parameter =>
      match symbol.typeName with
      | some typeName => typeNamed typeName
      | none =>
        report (.untyped name) loc
        return .unknown

/-- The type of an arithmetic operation on operands of numeric type. Integers stay integers
except under division. -/
def arithmeticType (op : BinaryOp) (left right : Ty) : Ty :=
  match left, right with
  | .int, .int => if op = .div then .number else .int
  | .any, .any => .any
  | _, _ => .number

def arithmetic (op : BinaryOp) (left right : Ty) (loc : Location) : Check Ty := do
  if left = .unknown || right = .unknown then
    return .unknown
  else if left.isNumeric && right.isNumeric then
    return arithmeticType op left right
  else
    report (.arithmeticOperands op left right) loc
    return .unknown

/-- The type of an operation with a binary operator. Adding to a text makes a text. -/
def binaryType (op : BinaryOp) (left right : Ty) (loc : Location) : Check Ty := do
  let silent := left = .unknown || right = .unknown
  match op with
  | .eq | .ne => return .boolean
  | .add => if left = .text || right = .text then return .text else arithmetic op left right loc
  | .sub | .mul | .div | .mod => arithmetic op left right loc
  | .lt | .le | .gt | .ge =>
    reportIf (!silent && !(left.isNumeric && right.isNumeric)) (.comparisonOperands op left right)
      loc
    return .boolean
  | .conj | .disj =>
    reportIf (!silent && !(left.isBoolean && right.isBoolean)) (.logicalOperands op left right) loc
    return .boolean

/-- The type of an operation with a unary operator. -/
def unaryType (op : UnaryOp) (operand : Ty) (loc : Location) : Check Ty := do
  match op with
  | .not =>
    reportIf (operand ≠ .unknown && !operand.isBoolean) (.notOperand operand) loc
    return .boolean
  | .neg | .plus =>
    if operand = .unknown then
      return .unknown
    else if operand.isNumeric then
      return operand
    else
      report (.signOperand op operand) loc
      return .unknown

/-- The type of an element of an indexed value. -/
def indexType (object index : Ty) (loc : Location) : Check Ty := do
  reportIf (!index.isNumeric && index ≠ .unknown) (.indexNotNumeric index) loc
  match object with
  | .array | .any => return .any
  | .text => return .text
  | .unknown => return .unknown
  | other =>
    report (.notIndexable other) loc
    return .unknown

/-! ## Members -/

/-- A member of a session, reached through an expression. Through the name of the session only
dominant members can be reached, and concealed ones only through `this`; a concealed member
that is reached otherwise is reported and used all the same. -/
def sessionMember? (object : Expr) (session member : String) (loc : Location) :
    Check (Option MemberKind) := do
  let info? := ((← get).sessions.find? session).bind (·.members.find? member)
  match info? with
  | none =>
    report (.noSessionMember session member) loc
    return none
  | some info =>
    let byName ←
      match object with
      | .name name _ => do pure (decide ((← resolve? name).map (·.kind) = some .session))
      | _ => pure false
    if byName && !info.dominant then
      report (.notDominant member session) loc
      return none
    else
      reportIf (!info.exposed && !object.isThis) (.concealed member session) loc
      return some info.kind

/-- A member of a value of a type, reached through an expression. On values of type `any` and
`unknown` nothing is known and nothing reported. -/
def member? (object : Expr) (type : Ty) (member : String) (loc : Location) :
    Check (Option MemberKind) := do
  match type with
  | .session session => sessionMember? object session member loc
  | .record record =>
    match ((← get).records.find? record).bind (Table.find? · member) with
    | some type => return some (.field type)
    | none =>
      report (.noTranceifyField record member) loc
      return none
  | .any | .unknown => return none
  | other =>
    report (.noMember other member) loc
    return none

/-- What stands for a member that nothing is known about. -/
def unknownMember (object : Ty) : Ty :=
  if object = .any then .any else .unknown

def memberType (object : Expr) (type : Ty) (member : String) (loc : Location) : Check Ty := do
  match ← member? object type member loc with
  | some (.field type) => return type
  | some (.method _) => return .any
  | none => return unknownMember type

/-! ## Calls -/

/-- Report the arguments that do not fit their parameters, counting from a position. -/
def argumentTypes (name : String) (loc : Location) : Nat → List (Param × Ty) → Check Unit
  | _, [] => return ()
  | position, (param, actual) :: rest => do
    let expected ← paramType param
    reportIf (!expected.compatible actual) (.argumentMismatch position name expected actual) loc
    argumentTypes name loc (position + 1) rest

/-- The type of a call of a suggestion, whose arguments are checked in number and type. -/
def suggestionCall (decl : Suggestion) (args : List Ty) (loc : Location) : Check Ty := do
  if decl.params.length = args.length then
    argumentTypes decl.name loc 1 (decl.params.zip args)
  else
    report (.suggestionArguments decl.name decl.params.length args.length) loc
  returnType decl

/-- The type of a call of something that is neither a suggestion nor a declared type. Whether
it can be called is only known if its type is. -/
def valueCall (finding : Ty → Finding) (type : Ty) (loc : Location) : Check Ty := do
  reportIf (type ≠ .any && type ≠ .unknown) (finding type) loc
  return .any

/-- The type of a call of a session, which makes a new one. -/
def sessionCall (name : String) (args : List Ty) (loc : Location) : Check Ty := do
  let expected := (((← get).sessions.find? name).map (·.constructorParams)).getD 0
  reportIf (expected ≠ args.length) (.constructorArguments name expected args.length) loc
  return .session name

/-- The type of a call by name. A name that stands for nothing may still be a built-in. -/
def namedCall (name : String) (args : List Ty) (loc : Location) : Check Ty := do
  match ← resolve? name with
  | none =>
    match Builtin.returnType? name with
    | some type => return type
    | none =>
      report (.unknownFunction name) loc
      return .unknown
  | some symbol =>
    match symbol.kind, symbol.value with
    | .suggestion, some (.suggestion decl) => suggestionCall decl args loc
    | .session, _ => sessionCall name args loc
    | .record, _ =>
      report (.tranceifyCalled name) loc
      return .record name
    | _, _ =>
      let type ←
        match symbol.typeName with
        | some typeName => typeNamed typeName
        | none => pure .unknown
      valueCall (.nameNotCallable name) type loc

def memberCall (object : Expr) (type : Ty) (member : String) (args : List Ty) (loc : Location) :
    Check Ty := do
  match ← member? object type member loc with
  | some (.method decl) => suggestionCall decl args loc
  | some (.field type) =>
    if type = .any || type = .unknown then
      return type
    else
      report (.memberNotCallable member type) loc
      return .unknown
  | none => return unknownMember type

/-! ## Assignments and record literals -/

/-- Check an assignment to a name. The first assignment to a variable without a type gives it
one. -/
def assignName (name : String) (nameLoc : Location) (value : Ty) (loc : Location) : Check Unit := do
  match ← resolve? name with
  | none => report (.undefinedVariable name) nameLoc
  | some symbol =>
    if symbol.kind ≠ .variable && symbol.kind ≠ .parameter then
      report (.cannotAssign name) loc
    else
      match symbol.typeName with
      | some typeName =>
        let target ← typeNamed typeName
        reportIf (!target.compatible value) (.assignMismatch value name target) loc
      | none =>
        modify fun c =>
          let retype (symbol : Symbol) := { symbol with typeName := some value.name }
          { c with scopes := (c.scopes.update? name retype).getD c.scopes }

/-- Check a field that a record literal gives, against the fields of the type and the fields
given before it. -/
def givenField (typeName : String) (record : RecordInfo) (seen : List String) (field : String)
    (actual : Ty) (loc : Location) : Check Unit := do
  if seen.contains field then
    report (.givenTwice field) loc
  else
    match record.find? field with
    | some expected =>
      reportIf (!expected.compatible actual) (.givenFieldMismatch typeName field expected actual)
        loc
    | none => report (.noTranceifyField typeName field) loc

/-! ## Expressions -/

mutual

def infer : Expr → Check Ty
  | .number .. => return .number
  | .text .. => return .text
  | .boolean .. => return .boolean
  | .name name loc => nameType name loc
  | .array items _ => do
    let _ ← inferAll items
    return .array
  | .binary op left right loc => do
    let leftType ← infer left
    let rightType ← infer right
    binaryType op leftType rightType loc
  | .unary op operand loc => do
    let type ← infer operand
    unaryType op type loc
  | .call callee args loc => do
    let argTypes ← inferAll args
    match callee with
    | .name name _ => namedCall name argTypes loc
    | .field object member _ =>
      let type ← infer object
      memberCall object type member argTypes loc
    | other =>
      let type ← infer other
      valueCall .valueNotCallable type loc
  | .field object member loc => do
    let type ← infer object
    memberType object type member loc
  | .index object index loc => do
    let objectType ← infer object
    let type ← infer index
    indexType objectType type loc
  | .assign target value loc => do
    let valueType ← infer value
    match target.asName? with
    | some (name, nameLoc) => assignName name nameLoc valueType loc
    | none =>
      if target.isPlace then
        let targetType ← infer target
        reportIf (!targetType.compatible valueType) (.placeMismatch valueType targetType) loc
      else
        report .invalidTarget loc
    return valueType
  | .record typeName fields loc => do
    match (← get).records.find? typeName with
    | some record =>
      inferFields (some (typeName, record)) [] fields
      return .record typeName
    | none =>
      inferFields none [] fields
      report (.unknownTranceify typeName) loc
      return .unknown
termination_by structural expr => expr

def inferAll : List Expr → Check (List Ty)
  | [] => return []
  | expr :: rest => do
    let type ← infer expr
    return type :: (← inferAll rest)
termination_by structural exprs => exprs

/-- Check the fields that a record literal gives, against the type of the record if it is
known. -/
def inferFields (record? : Option (String × RecordInfo)) (seen : List String) :
    List (String × Expr) → Check Unit
  | [] => return ()
  | (field, value) :: rest => do
    let actual ← infer value
    match record? with
    | some (typeName, record) => givenField typeName record seen field actual value.location
    | none => pure ()
    inferFields record? (field :: seen) rest
termination_by structural fields => fields

end

end Trance.Check
