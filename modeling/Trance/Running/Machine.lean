import Trance.Files
import Trance.Scope
import Trance.Running.Error

/-!
# The machine

Everything that a run can see or change: names in scope, the sessions that exist, the
declarations known by name, what has been written and asked so far, and the input that is
left. A step of a run takes a machine to an outcome. Three outcomes are kept apart: a step
is done, it has failed with an error of the language, or it was cut short because it was
given too few steps.
-/

namespace Trance

/-! ## State -/

/-- A session as an object. Concealed members can be reached through `this` only. -/
structure Instance where
  name : String
  fields : Table Value
  methods : Table Suggestion
  concealed : List String
deriving Inhabited

namespace Instance

def empty (name : String) : Instance := ⟨name, [], [], []⟩

/-- Whether a member may only be reached through `this`. -/
def conceals (object : Instance) (member : String) : Bool := object.concealed.contains member

/-- The object with a member marked as concealed unless it is exposed. -/
def mark (object : Instance) (member : Member) : Instance :=
  if member.exposed || object.conceals member.name then object
  else { object with concealed := member.name :: object.concealed }

/-- The object with the value of a field set. -/
def setField (object : Instance) (name : String) (value : Value) : Instance :=
  { object with fields := object.fields.insert name value }

def setMethod (object : Instance) (decl : Suggestion) : Instance :=
  { object with methods := object.methods.insert decl.name decl }

/-- The value of a member: of a field, or else of a method. -/
def member? (object : Instance) (name : String) : Option Value :=
  match object.fields.find? name with
  | some value => some value
  | none => (object.methods.find? name).map .suggestion

end Instance

/-- What a run shows to the outside: a line that it writes, a prompt for a line of input, a pause
of some milliseconds. -/
inductive Event where
  | line (text : String)
  | prompt (text : String)
  | pause (milliseconds : Nat)
deriving DecidableEq, Repr, Inhabited

namespace Event

/-- The rows that an event takes on a terminal: a line is broken where its text has a line break. -/
def rows : Event → List String
  | line text => (text.toList.splitOn '\n').map String.ofList
  | prompt _ | pause _ => []

/-- The text that an event asks for input with. -/
def prompt? : Event → Option String
  | prompt text => some text
  | line _ | pause _ => none

end Event

/-- The state of a run.

Sessions and record types are known by name as they were last declared, wherever that was;
`statics` holds the object that the name of a session stands for. `capacity` is the number of
lines that can still be written, if it is limited. `signal` is the position of the last jump that
was run, in this program or in one before it. -/
structure Machine where
  scopes : Scopes
  heap : Array Instance
  sessions : Table Session
  statics : Table SessionRef
  records : Table Tranceify
  events : Array Event
  input : List String
  capacity : Option Nat
  failures : List AssertionFailure
  linked : List FileKey
  baseDir : String
  depth : Nat
  signal : Location
deriving Inhabited

namespace Machine

def new (baseDir : String) (input : List String) (capacity : Option Nat) : Machine :=
  ⟨Scopes.empty, #[], [], [], [], #[], input, capacity, [], [], baseDir, 0, Location.start⟩

/-- The machine at the start of a program. Of what ran before it the outside remains: what has been
shown, the input that is left, the capacity, and the base directory. The position of the last jump
is left as it is, too. -/
def reset (m : Machine) : Machine :=
  { new m.baseDir m.input m.capacity with events := m.events, signal := m.signal }

def global? (m : Machine) (name : String) : Option Value :=
  if m.scopes.globals.has name then (m.scopes.resolve? name).bind (·.value) else none

end Machine

/-- What holds for a whole run: the files that can be linked, and the limit on nested calls. -/
structure Settings where
  files : Store
  maxDepth : Nat
deriving Inhabited

namespace Settings

/-- The limit on nested calls unless another one is set. -/
def defaultDepth : Nat := 256

end Settings

/-! ## Outcomes and steps -/

/-- The outcome of a step. -/
inductive Outcome (α : Type) where
  | done (result : α) (machine : Machine)
  | failed (error : RuntimeError) (machine : Machine)
  | exhausted
deriving Inhabited

def Exec (α : Type) := Machine → Outcome α

namespace Exec

variable {α β : Type}

/-- The step that does nothing and has a given result. -/
@[always_inline, inline]
protected def pure (a : α) : Exec α := fun m => .done a m

/-- One step after another, unless the first fails. -/
@[always_inline, inline]
protected def bind (x : Exec α) (f : α → Exec β) : Exec β := fun m =>
  match x m with
  | .done a m => f a m
  | .failed e m => .failed e m
  | .exhausted => .exhausted

instance : Monad Exec where
  pure := Exec.pure
  bind := Exec.bind

instance : Inhabited (Exec α) := ⟨fun _ => .exhausted⟩

def exhausted : Exec α := fun _ => .exhausted

@[always_inline, inline]
def machine : Exec Machine := fun m => .done m m

@[always_inline, inline]
def update (change : Machine → Machine) : Exec Unit := fun m => .done () (change m)

def throw (error : RuntimeError) : Exec α := fun m => .failed error m

def fail (cause : RuntimeError.Cause) (loc : Location) : Exec α := throw (.raised cause loc)

/-- The step that has a result or fails, without changing the machine. -/
def ofExcept : Except RuntimeError α → Exec α
  | .ok a => pure a
  | .error e => throw e

/-- Do a step on a changed machine, and change it again afterwards, also when the step fails. -/
def between (before after : Machine → Machine) (step : Exec α) : Exec α := fun m =>
  match step (before m) with
  | .done a m => .done a (after m)
  | .failed e m => .failed e (after m)
  | .exhausted => .exhausted

def inFrame (kind : Frame.Kind) (step : Exec α) : Exec α :=
  between (fun m => { m with scopes := m.scopes.enter kind })
    (fun m => { m with scopes := m.scopes.exit }) step

def deeper (step : Exec α) : Exec α :=
  between (fun m => { m with depth := m.depth + 1 }) (fun m => { m with depth := m.depth - 1 }) step

def inDirectory (dir : String) (step : Exec α) : Exec α := fun m =>
  between (fun m => { m with baseDir := dir }) (fun after => { after with baseDir := m.baseDir })
    step m

/-! ## Names and objects -/

def resolve? (name : String) : Exec (Option Symbol) := do
  return (← machine).scopes.resolve? name

def define (symbol : Symbol) (loc : Location) : Exec Unit := do
  match (← machine).scopes.define? symbol with
  | some scopes => update fun m => { m with scopes }
  | none => fail (.redefinition symbol.name) loc

/-- Make an object known, and give the reference to it. -/
def allocate (object : Instance) : Exec SessionRef := do
  let id := (← machine).heap.size
  update fun m => { m with heap := m.heap.push object }
  return ⟨id, object.name⟩

def object (ref : SessionRef) : Exec Instance := do
  return (← machine).heap[ref.id]?.getD (Instance.empty ref.name)

/-- Set the object that a reference leads to. -/
def setObject (ref : SessionRef) (object : Instance) : Exec Unit :=
  update fun m => { m with heap := m.heap.setIfInBounds ref.id object }

/-! ## Output and input -/

/-- Write a line. This fails once the capacity is used up. -/
def writeLine (text : String) : Exec Unit := do
  match (← machine).capacity with
  | none => update fun m => { m with events := m.events.push (.line text) }
  | some 0 => throw (.output "sink closed")
  | some (left + 1) =>
    update fun m => { m with events := m.events.push (.line text), capacity := some left }

/-- Ask for a line of input, if there is any left. -/
def readLine (prompt : String) : Exec (Option String) := do
  update fun m => { m with events := m.events.push (.prompt prompt) }
  match (← machine).input with
  | [] => return none
  | line :: rest =>
    update fun m => { m with input := rest }
    return some line

end Exec

end Trance
