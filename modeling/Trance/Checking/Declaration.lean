import Trance.Checking.Inference

/-!
# Checking declarations

Names of sessions, record types and suggestions are declared before anything is checked against
them; what is known about members follows once all names are there. The bodies come last.
-/

namespace Trance.Check

/-! ## Names -/

/-- Declare the name of a session. About its members nothing is known yet. -/
def declareSession (decl : Session) : Check Unit := do
  if ← define { name := decl.name, kind := .session, typeName := some decl.name } then
    modify fun c => { c with sessions := c.sessions.insert decl.name ⟨[], 0⟩ }
  else
    report (.redeclaredSession decl.name) decl.location

/-- Declare the name of a record type. About its fields nothing is known yet. -/
def declareTranceify (decl : Tranceify) : Check Unit := do
  if ← define { name := decl.name, kind := .record, typeName := some decl.name } then
    modify fun c => { c with records := c.records.insert decl.name [] }
  else
    report (.redeclaredTranceify decl.name) decl.location

def declareSuggestion (decl : Suggestion) : Check Unit :=
  defineOr { name := decl.name, kind := .suggestion, value := some (.suggestion decl) }
    (.redeclaredSuggestion decl.name) decl.location

/-! ## Members -/

/-- The type of a field: the declared one, or else that of a literal it starts with. -/
def fieldType (field : Variable) : Check Ty := do
  match field.typeName with
  | some name => resolveType name field.location
  | none =>
    match field.start with
    | .value (.number ..) => return .number
    | .value (.text ..) => return .text
    | .value (.boolean ..) => return .boolean
    | .value (.array ..) => return .array
    | .value (.record name ..) => return if (← get).records.has name then .record name else .any
    | _ => return .any

/-- What is known about a session after one more member. The first member of a name counts, and
later ones are reported. -/
def collectMember (session : String) (info : SessionInfo) (member : Member) :
    Check SessionInfo := do
  if info.members.has member.name then
    report (.duplicateMember member.name session) member.location
    return info
  else
    match member.decl with
    | .field field =>
      let type ← fieldType field
      return { info with
        members := info.members.insert member.name ⟨.field type, member.exposed, member.dominant⟩ }
    | .method decl =>
      return {
        members := info.members.insert member.name ⟨.method decl, member.exposed, member.dominant⟩
        constructorParams :=
          if decl.name = constructorName then decl.params.length else info.constructorParams }

def collectMembers (decl : Session) : Check Unit := do
  let info ← decl.members.foldlM (collectMember decl.name) ⟨[], 0⟩
  modify fun c => { c with sessions := c.sessions.insert decl.name info }

/-- What is known about a record type after one more field. -/
def collectField (typeName : String) (info : RecordInfo) (field : Variable) : Check RecordInfo := do
  if info.has field.name then
    report (.duplicateField field.name typeName) field.location
    return info
  else
    let type ← fieldType field
    return info.insert field.name type

def collectFields (decl : Tranceify) : Check Unit := do
  let info ← decl.members.foldlM (collectField decl.name) []
  modify fun c => { c with records := c.records.insert decl.name info }

/-- Check the expression that a field starts with, in a frame of its own, because that is where
it will be evaluated. -/
def fieldStart (owner : String) (field : Variable) : Check Unit := do
  match field.start with
  | .value init =>
    let actual ← inFrame .call (infer init)
    match field.typeName with
    | some name =>
      let declared ← typeNamed name
      reportIf (!declared.compatible actual) (.fieldMismatch owner field.name declared actual)
        field.location
    | none => pure ()
  | _ => pure ()

/-- Check the expressions that the fields of a record type start with. -/
def fieldStarts (decl : Tranceify) : Check Unit :=
  decl.members.forM (fieldStart decl.name)

/-! ## Suggestions -/

/-- Check the types that a suggestion is declared with. -/
def signature (decl : Suggestion) : Check Unit := do
  decl.params.forM fun param =>
    match param.typeName with
    | some name => do let _ ← resolveType name decl.location
    | none => pure ()
  match decl.returnType with
  | some name =>
    let _ ← resolveType name decl.location
    reportIf decl.imperative (.imperativeReturnType decl.name) decl.location
  | none => pure ()

def bindParams (decl : Suggestion) : Check Unit :=
  decl.params.forM fun param => do
    let type ← paramType param
    defineOr { name := param.name, kind := .parameter, typeName := some type.name }
      (.redeclaredParam param.name decl.name) decl.location

/-- Check a suggestion whose body is checked by a given step. The step runs in a frame and a
context of its own, with `this` bound for a method of a session; the context before is put
back. -/
def inSuggestion (decl : Suggestion) (owner : Option String) (body : Check Unit) : Check Unit := do
  signature decl
  let type ← returnType decl
  inContext (fun _ => ⟨some ⟨decl.name, type, decl.imperative⟩, 0, []⟩) (fun saved _ => saved) do
    inFrame .call do
      match owner with
      | some session =>
        let _ ← define { name := Expr.thisName, kind := .parameter, typeName := some session }
      | none => pure ()
      bindParams decl
      body

/-! ## Variables -/

/-- The type of a variable that has no declared type, from what it starts with. -/
def inferredType (name : String) (actual : Ty) (loc : Location) : Check Ty := do
  if actual = .unknown || actual = .void then
    report (.cannotInfer name) loc
    return .unknown
  else
    return actual

/-- The type of a declared variable. Without a declared type and a first value it has none
yet. Input from outside is text unless a type says otherwise. -/
def variableType (decl : Variable) (declared : Option Ty) : Check (Option Ty) := do
  match decl.start, declared with
  | .external, declared => return some (declared.getD .text)
  | .unset, declared => return declared
  | .value init, some declared =>
    let actual ← infer init
    reportIf (!declared.compatible actual) (.variableMismatch decl.name declared actual)
      decl.location
    return some declared
  | .value init, none =>
    let actual ← infer init
    return some (← inferredType decl.name actual decl.location)

def induce (decl : Variable) : Check Unit := do
  let declared ←
    match decl.typeName with
    | some name => do pure (some (← resolveType name decl.location))
    | none => pure none
  let type ← variableType decl declared
  defineOr { name := decl.name, kind := .variable, typeName := type.map Ty.name }
    (.redeclaredVariable decl.name) decl.location

end Trance.Check
