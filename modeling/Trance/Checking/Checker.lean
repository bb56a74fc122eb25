import Trance.Scope
import Trance.Checking.Finding

/-!
# The state of a check

A check walks over a program and never stops at a finding. What it carries along are the names
in scope, what is known about sessions and record types, the report, and where in the
program it is: in which suggestion, under how many loops, and within reach of which labels.
-/

namespace Trance

/-! ## What is known about declared types -/

/-- What a member of a session is to the checker. -/
inductive MemberKind where
  | field (type : Ty)
  | method (decl : Suggestion)
deriving Inhabited

/-- What is known about a member of a session. -/
structure MemberInfo where
  kind : MemberKind
  exposed : Bool
  dominant : Bool
deriving Inhabited

/-- What is known about a session. -/
structure SessionInfo where
  members : Table MemberInfo
  constructorParams : Nat
deriving Inhabited

/-- The fields of a record type with their types. -/
abbrev RecordInfo := Table Ty

/-! ## The state -/

/-- The suggestion whose body is being checked. -/
structure Enclosing where
  name : String
  returnType : Ty
  imperative : Bool
deriving DecidableEq, Repr, Inhabited

/-- Where in a program the check is: the suggestion around, the number of loops around, and the
labels of every list of statements around, the innermost first. -/
structure Context where
  enclosing : Option Enclosing
  loops : Nat
  labels : List (List String)
deriving DecidableEq, Repr, Inhabited

def Context.top : Context := ⟨none, 0, []⟩

/-- A declaration whose body is checked after the main list. -/
inductive Deferred where
  | suggestion (decl : Suggestion)
  | session (decl : Session)
  | tranceify (decl : Tranceify)

/-- The state of a check. `linked` holds the files that have been linked so far, by this check
and by the checks of linked files around it; `deferred` holds what has been put off. -/
structure Checker where
  scopes : Scopes
  sessions : Table SessionInfo
  records : Table RecordInfo
  report : Report
  baseDir : String
  linked : List FileKey
  context : Context
  deferred : List Deferred
deriving Inhabited

/-- The state before anything has been checked. -/
def Checker.new (baseDir : String) : Checker :=
  ⟨Scopes.empty, [], [], Report.empty, baseDir, [], Context.top, []⟩

abbrev Check (α : Type) := StateM Checker α

/-- How a link is followed, given its path and its position. -/
abbrev Follower := String → Location → Check Unit

namespace Check

variable {α : Type}

def report (finding : Finding) (loc : Location) : Check Unit :=
  modify fun c => { c with report := c.report.add (finding.diagnose loc) }

def reportIf (cond : Bool) (finding : Finding) (loc : Location) : Check Unit :=
  if cond then report finding loc else pure ()

/-! ## Scopes and context -/

def resolve? (name : String) : Check (Option Symbol) := do
  return (← get).scopes.resolve? name

/-- Bind a name in the innermost frame, and tell whether it was free there. -/
def define (symbol : Symbol) : Check Bool := do
  match (← get).scopes.define? symbol with
  | some scopes =>
    modify fun c => { c with scopes }
    return true
  | none => return false

/-- Bind a name in the innermost frame, or report that it is taken. -/
def defineOr (symbol : Symbol) (finding : Finding) (loc : Location) : Check Unit := do
  if ← define symbol then pure () else report finding loc

def inFrame (kind : Frame.Kind) (step : Check α) : Check α := do
  modify fun c => { c with scopes := c.scopes.enter kind }
  let result ← step
  modify fun c => { c with scopes := c.scopes.exit }
  return result

/-- Do a step in another context. The context behind the step is made from the one before it
and the one in which the step ends. -/
def inContext (enter : Context → Context) (leave : Context → Context → Context)
    (step : Check α) : Check α := do
  let saved := (← get).context
  modify fun c => { c with context := enter saved }
  let result ← step
  modify fun c => { c with context := leave saved c.context }
  return result

/-! ## Type names -/

/-- The type that a name stands for: a built-in type, a session or a record type, in this
order. -/
def lookupType (name : String) : Check (Option Ty) := do
  let c ← get
  match Ty.builtin? name with
  | some type => return some type
  | none =>
    if c.sessions.has name then return some (.session name)
    else if c.records.has name then return some (.record name)
    else return none

/-- The type that a name stands for, or `unknown`. -/
def typeNamed (name : String) : Check Ty := do
  return (← lookupType name).getD .unknown

/-- The type that a written name stands for. A name that stands for none is reported. -/
def resolveType (name : String) (loc : Location) : Check Ty := do
  match ← lookupType name with
  | some type => return type
  | none =>
    report (.unknownType name) loc
    return .unknown

/-- The type that a call of a suggestion has. Without a declared type it is `any`. -/
def returnType (decl : Suggestion) : Check Ty := do
  if decl.imperative then
    return .void
  else
    match decl.returnType with
    | some name => typeNamed name
    | none => return .any

/-- The type of a parameter. Without a declared type it is `any`. -/
def paramType (param : Param) : Check Ty :=
  match param.typeName with
  | some name => typeNamed name
  | none => return .any

end Check

end Trance
