import Trance.Running.Control

/-!
# Calls

A call runs a body in a frame that sees only global names, one call deeper. New sessions are
made by a call of their name: first the fields, then the constructor.
-/

namespace Trance

/-- How a suggestion is called: with arguments, perhaps on a session, from a position. -/
abbrev Caller := Suggestion → List Value → Option SessionRef → Location → Exec Value

namespace Exec

/-! ## Suggestions -/

/-- Fail if another call would be nested too deep. -/
def requireDepth (limit : Nat) (loc : Location) : Exec Unit := do
  if limit ≤ (← machine).depth then fail (.callDepthExceeded limit) loc else pure ()

/-- Bind the session that a method is called on. -/
def bindThis : Option SessionRef → Exec Unit
  | none => pure ()
  | some ref => do
    let symbol : Symbol := ⟨Expr.thisName, .parameter, none, some (.session ref)⟩
    update fun m => { m with scopes := (m.scopes.define? symbol).getD m.scopes }

def bindParams (loc : Location) : List (Param × Value) → Exec Unit
  | [] => pure ()
  | (param, value) :: rest => do
    define ⟨param.name, .parameter, param.typeName, some value⟩ loc
    bindParams loc rest

/-- Call a suggestion. Its value is that of the first `awaken`, and nothing if it is
imperative. -/
def callBody (limit : Nat) (exec : Stmt → Exec Flow) (bound : Nat) (decl : Suggestion)
    (args : List Value) (receiver : Option SessionRef) (loc : Location) : Exec Value := do
  if args.length ≠ decl.params.length then
    fail (.argumentCount decl.name decl.params.length args.length) loc
  else
    requireDepth limit loc
    let flow ← deeper <| inFrame .call do
      bindThis receiver
      bindParams decl.location (decl.params.zip args)
      sequence exec decl.body bound decl.body
    match flow with
    | .awaken value => return if decl.imperative then .null else value
    | flow => do
      rejectEscape flow
      return .null

/-! ## Sessions -/

/-- The session that a method runs on: for a dominant method the one that the name of the session
stands for. -/
def receiver (ref : SessionRef) (method : Suggestion) : Exec SessionRef := do
  if method.dominant then
    return ((← machine).statics.find? ref.name).getD ref
  else
    return ref

/-- Make a new session: build its fields, and run its constructor with the arguments. Without a
constructor there may be no arguments. -/
def instantiate (limit : Nat) (eval : Expr → Exec Value) (call : Caller) (name : String)
    (args : List Value) (loc : Location) : Exec Value := do
  match (← machine).sessions.find? name with
  | none => fail (.undefinedFunction name) loc
  | some decl =>
    requireDepth limit loc
    let object ← deeper (buildInstance eval decl loc)
    let ref ← allocate object
    match decl.constructor? with
    | some init =>
      let _ ← call init args (some ref) loc
      return .session ref
    | none =>
      if args.isEmpty then return .session ref
      else fail (.argumentCount name 0 args.length) loc

/-! ## Built-ins -/

def onlyArgument (name : String) (args : List Value) (loc : Location) : Exec Value :=
  match args with
  | [arg] => return arg
  | _ => fail (.argumentCount name 1 args.length) loc

/-- Call a built-in: pause for a time, or write a line. -/
def intrinsic (name : String) (args : List Value) (loc : Location) : Exec Value := do
  if name = "drift" || name = "Drift" then
    let arg ← onlyArgument name args loc
    let time ← ofExcept (arg.asNumber loc)
    update fun m => { m with events := m.events.push (.pause (Number.floorNat time)) }
    return .null
  else if name = "Observe" then
    let arg ← onlyArgument name args loc
    writeLine arg.toText
    return .null
  else
    fail (.undefinedFunction name) loc

/-! ## Call expressions -/

section

variable (limit : Nat) (eval : Expr → Exec Value) (call : Caller)

def callMember (object : Expr) (member : String) (args : List Expr) (loc : Location) :
    Exec Value := do
  let target ← eval object
  let method ← memberValue target member object.isThis loc
  let values ← args.mapM eval
  match method, target with
  | .suggestion decl, .session ref => do
    let ref ← receiver ref decl
    call decl values (some ref) loc
  | .suggestion decl, _ => call decl values none loc
  | _, _ => fail (.notCallable member) loc

/-- Call what a name stands for. If it stands for nothing it may still be a built-in. -/
def callName (name : String) (args : List Expr) (loc : Location) : Exec Value := do
  match ← resolve? name with
  | none => do
    let values ← args.mapM eval
    intrinsic name values loc
  | some symbol =>
    match symbol.value, symbol.kind with
    | some (.suggestion decl), _ => do
      let values ← args.mapM eval
      call decl values none loc
    | _, .session => do
      let values ← args.mapM eval
      instantiate limit eval call name values loc
    | _, _ => fail (.notCallable name) loc

def callValue (callee : Expr) (args : List Expr) (loc : Location) : Exec Value := do
  match ← eval callee with
  | .suggestion decl => do
    let values ← args.mapM eval
    call decl values none loc
  | other => fail (.notCallable other.typeName) loc

def callExpr (callee : Expr) (args : List Expr) (loc : Location) : Exec Value :=
  match callee with
  | .field object member _ => callMember eval call object member args loc
  | .name name _ => callName limit eval call name args loc
  | other => callValue eval call other args loc

end

end Exec

end Trance
