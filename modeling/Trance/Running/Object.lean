import Trance.Running.Place

/-!
# Records, sessions and declarations

How values of declared types are built, and how declarations take effect. Every function here
takes the evaluation of expressions as a parameter. An expression that a field starts with is
evaluated where only global names are visible.
-/

namespace Trance.Exec

section

variable (eval : Expr → Exec Value)

/-- Evaluate an expression where only global names are visible. -/
def evalDetached (expr : Expr) : Exec Value :=
  inFrame .call (eval expr)

/-! ## Records -/

/-- The value of a field of a new record: the one given, or else the one its declaration starts
with. -/
def recordField (given : List (String × Expr)) (member : Variable) : Exec (String × Value) := do
  match Table.find? given member.name with
  | some expr => return (member.name, ← eval expr)
  | none =>
    match member.start with
    | .value init => return (member.name, ← evalDetached eval init)
    | _ => return (member.name, .null)

/-- A record of a declared type with some fields given. Its fields stand in the order of their
declaration. -/
def buildRecord (typeName : String) (given : List (String × Expr)) (loc : Location) :
    Exec Value := do
  match (← machine).records.find? typeName with
  | none => fail (.unknownType typeName) loc
  | some decl =>
    match given.find? fun (name, _) => !decl.members.any (·.name == name) with
    | some (name, _) => fail (.missingMember typeName name) loc
    | none => return .record typeName (← decl.members.mapM (recordField eval given))

/-- What a declaration without a first value starts with: a record if its type is a record type,
and nothing otherwise. -/
def defaultValue (typeName : Option String) (loc : Location) : Exec Value := do
  match typeName with
  | some name =>
    if (← machine).records.has name then buildRecord eval name [] loc else return .null
  | none => return .null

/-! ## Sessions -/

/-- Add a dominant member to the object of a session's name. -/
def addStatic (object : Instance) (member : Member) : Exec Instance := do
  let object := object.mark member
  match member.decl with
  | .field field =>
    match field.start with
    | .value init => return object.setField field.name (← evalDetached eval init)
    | _ => return object.setField field.name .null
  | .method decl => return object.setMethod decl

/-- The object that the name of a session stands for. It has the dominant members. -/
def buildStatic (decl : Session) : Exec Instance :=
  (decl.members.filter (·.dominant)).foldlM (addStatic eval) (Instance.empty decl.name)

/-- Add a member to a new object. A constructor is no member of the object. -/
def addMember (loc : Location) (object : Instance) (member : Member) : Exec Instance := do
  let object := object.mark member
  match member.decl with
  | .field field =>
    match field.start with
    | .value init => return object.setField field.name (← evalDetached eval init)
    | _ => return object.setField field.name (← defaultValue eval field.typeName loc)
  | .method decl =>
    if decl.name = constructorName then return object else return object.setMethod decl

/-- A new object of a session. It has the members that are not dominant. -/
def buildInstance (decl : Session) (loc : Location) : Exec Instance :=
  (decl.members.filter (!·.dominant)).foldlM (addMember eval loc) (Instance.empty decl.name)

/-! ## Declarations -/

/-- Let the declaration of a suggestion, a session or a record type take effect. The object of a
session's name is built before the name is bound. -/
def declare : Stmt → Exec Unit
  | .suggestion decl =>
    define { name := decl.name, kind := .suggestion, value := some (.suggestion decl) }
      decl.location
  | .session decl => do
    let object ← buildStatic eval decl
    let ref ← allocate object
    let symbol : Symbol := ⟨decl.name, .session, some decl.name, some (.session ref)⟩
    define symbol decl.location
    update fun m => { m with
      sessions := m.sessions.insert decl.name decl
      statics := m.statics.insert decl.name ref }
  | .tranceify decl => do
    define { name := decl.name, kind := .record, typeName := some decl.name } decl.location
    update fun m => { m with records := m.records.insert decl.name decl }
  | _ => pure ()

/-- The value that a line of input stands for, by the declared type of its variable. -/
def inputValue (decl : Variable) (line : String) : Attempt Value :=
  let invalid (expected : String) : Attempt Value :=
    Attempt.fail (.invalidInput decl.name line expected) decl.location
  match decl.typeName with
  | some "number" | some "int" | some "float" | some "double" =>
    match Number.read? (Text.trim line.toList) with
    | some n => .ok (.number n)
    | none => invalid "number"
  | some "boolean" | some "bool" =>
    match String.ofList (Text.trim line.toList) with
    | "true" => .ok (.boolean true)
    | "false" => .ok (.boolean false)
    | _ => invalid "boolean"
  | _ => .ok (.text line)

def readExternal (decl : Variable) : Exec Value := do
  match ← readLine (decl.name ++ ": ") with
  | some line => ofExcept (inputValue decl line)
  | none => fail (.inputUnavailable decl.name) decl.location

def induce (decl : Variable) : Exec Unit := do
  let value ←
    match decl.start with
    | .external => readExternal decl
    | .value init => eval init
    | .unset => defaultValue eval decl.typeName decl.location
  define { name := decl.name, kind := .variable, typeName := decl.typeName, value := some value }
    decl.location

end

end Trance.Exec
