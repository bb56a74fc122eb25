import Trance.Running.Machine
import Trance.Running.Operator

/-!
# Places

An assignment writes to a place: a root that holds a value, and a path into that value. The
root is a variable, or a field of a session; arrays and records are values, so a write inside of
one writes a changed copy to its root.
-/

namespace Trance

/-! ## Paths into values -/

/-- A step of a path: into a field of a record, or to the item of an array at an index. -/
inductive Place.Step where
  | field (name : String)
  | index (value : Value)
deriving Inhabited

/-- What holds the value that a place is in: a variable, named at a position, or a field of a
session, which may be reached through `this`. -/
inductive Place.Root where
  | variable (name : String) (loc : Location)
  | field (ref : SessionRef) (name : String) (viaThis : Bool)
deriving Inhabited

/-- A place: a root, and a path from it, the first step first. -/
structure Place where
  root : Place.Root
  path : List Place.Step
deriving Inhabited

def Place.step (place : Place) (next : Place.Step) : Place :=
  { place with path := place.path ++ [next] }

/-- Whether a value is a session that is held, because a field of it is being changed. -/
def Value.isHeld (held : Option SessionRef) : Value → Bool
  | .session ref => held.any fun own => own.id == ref.id
  | _ => false

/-- Ask a value for its type. A session that is held cannot tell it, and the run breaks off. -/
def Value.askType (held : Option SessionRef) (value : Value) : Attempt Unit :=
  if value.isHeld held then .error .panicked else .ok ()

/-- A value with the part that a path leads to changed, while a session may be held. A field must
be there, and an index must lie within bounds. What is no record, no array or no index is asked
for its type. -/
def Value.modifyAt (held : Option SessionRef) (loc : Location) (change : Value → Attempt Value) :
    List Place.Step → Value → Attempt Value
  | [], value => change value
  | .field name :: rest, .record typeName fields =>
    match Table.modify? fields name (modifyAt held loc change rest) with
    | some fields => do return .record typeName (← fields)
    | none => Attempt.fail (.missingMember typeName name) loc
  | .field _ :: _, other => do
    other.askType held
    Attempt.fail (.typeError "record or session" other.typeName) loc
  | .index index :: rest, .array items => do
    index.askType held
    let i ← index.position items.length loc
    let item ← modifyAt held loc change rest (items[i]?.getD .null)
    return .array (items.set i item)
  | .index _ :: _, other => do
    other.askType held
    Attempt.fail (.typeError "array" other.typeName) loc

namespace Exec

/-! ## Members -/

/-- The object that the name of a session stands for, in which its dominant members are. Without
one, no member of the name can be found. -/
def staticObject (session member : String) (loc : Location) : Exec (SessionRef × Instance) := do
  match (← machine).statics.find? session with
  | some ref => return (ref, ← object ref)
  | none => fail (.missingMember session member) loc

/-- Fail if a member of an object is concealed and not reached through `this`. -/
def requireVisible (object : Instance) (session member : String) (viaThis : Bool) (loc : Location) :
    Exec Unit :=
  if object.conceals member && !viaThis then fail (.concealedMember session member) loc
  else pure ()

/-- The value of a member of a session. What the object itself does not have is looked for among
the dominant members. -/
def sessionMember (ref : SessionRef) (member : String) (viaThis : Bool) (loc : Location) :
    Exec Value := do
  let own ← object ref
  requireVisible own own.name member viaThis loc
  match own.member? member with
  | some value => return value
  | none =>
    let (_, shared) ← staticObject own.name member loc
    requireVisible shared own.name member viaThis loc
    match shared.member? member with
    | some value => return value
    | none => fail (.missingMember own.name member) loc

/-- The value of a member of a record or a session. -/
def memberValue (target : Value) (member : String) (viaThis : Bool) (loc : Location) : Exec Value :=
  match target with
  | .record typeName fields =>
    match Table.find? fields member with
    | some value => return value
    | none => fail (.missingMember typeName member) loc
  | .session ref => sessionMember ref member viaThis loc
  | other => fail (.typeError "record or session" other.typeName) loc

/-! ## Places of expressions -/

/-- How a message calls an expression that is no place. -/
def describeTarget : Expr → String
  | .call .. => "a call result"
  | .number .. | .text .. | .boolean .. => "a literal"
  | _ => "this expression"

/-- The place that an expression stands for, given how expressions are evaluated. The object of a
field access is evaluated as a whole, and is a place itself only if it is no session. -/
def place (eval : Expr → Exec Value) (loc : Location) : Expr → Exec Place
  | .name name nameLoc => return ⟨.variable name nameLoc, []⟩
  | .field object member _ => do
    match ← eval object with
    | .session ref => return ⟨.field ref member object.isThis, []⟩
    | _ => return (← place eval loc object).step (.field member)
  | .index object index _ => do
    let selected ← eval index
    return (← place eval loc object).step (.index selected)
  | other => fail (.invalidAssignment (describeTarget other)) loc

/-! ## Changing a place -/

/-- Change the value of a variable. Only variables and parameters can be changed. -/
def modifyVariable (name : String) (nameLoc loc : Location) (change : Value → Attempt Value) :
    Exec Unit := do
  match ← resolve? name with
  | none => fail (.undefinedVariable name) nameLoc
  | some symbol =>
    if symbol.kind ≠ .variable && symbol.kind ≠ .parameter then
      fail (.invalidAssignment ("'" ++ name ++ "'")) loc
    else
      let value ← ofExcept (change (symbol.value.getD .null))
      update fun m => { m with scopes := (m.scopes.assign? name value).getD m.scopes }

/-- Change the value of a field that an object has; tell whether it has it. -/
def modifyField (ref : SessionRef) (object : Instance) (name : String)
    (change : Value → Attempt Value) : Exec Bool := do
  match object.fields.modify? name change with
  | some fields =>
    let fields ← ofExcept fields
    setObject ref { object with fields }
    return true
  | none => return false

/-- Change the value of a field of a session, of its own or among the dominant members. The session
that has the field is held while its value is changed. -/
def modifySession (ref : SessionRef) (name : String) (viaThis : Bool) (loc : Location)
    (change : SessionRef → Value → Attempt Value) : Exec Unit := do
  let own ← object ref
  requireVisible own own.name name viaThis loc
  if ← modifyField ref own name (change ref) then
    pure ()
  else
    let (sharedRef, shared) ← staticObject own.name name loc
    requireVisible shared own.name name viaThis loc
    if ← modifyField sharedRef shared name (change sharedRef) then
      pure ()
    else
      fail (.missingMember own.name name) loc

def modifyPlace (place : Place) (loc : Location) (change : Value → Attempt Value) : Exec Unit :=
  let inside := fun held => Value.modifyAt held loc change place.path
  match place.root with
  | .variable name nameLoc => modifyVariable name nameLoc loc (inside none)
  | .field ref name viaThis => modifySession ref name viaThis loc fun held => inside (some held)

/-- Write a value to the place that an expression stands for. -/
def assign (eval : Expr → Exec Value) (target : Expr) (value : Value) (loc : Location) :
    Exec Unit := do
  let place ← place eval loc target
  modifyPlace place loc fun _ => .ok value

end Exec

end Trance
