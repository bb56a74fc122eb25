import Trance.Running.Object

/-!
# Control flow

How a statement ends says where the run goes on. A statement that does not end normally leaves
one list after the other until a loop, a list with the label that it jumps to, or the end of a
call takes it up.

Lists and loops are described over any way of running statements, with a bound on the number
of their rounds.
-/

namespace Trance

/-- How a statement ends: normally, or with a jump out of what is around it. A jump carries the
position of the statement that made it. -/
inductive Flow where
  | normal
  | snap (loc : Location)
  | sink (loc : Location)
  | jump (label : String) (loc : Location)
  | awaken (value : Value)
deriving Inhabited

namespace Stmt

/-- Whether a statement has its effect before the main list of a program is run. -/
def isHoisted : Stmt → Bool
  | mindLink .. | suggestion _ | session _ | tranceify _ | entrance .. => true
  | _ => false

/-- The statements behind the first label of a name in a list. -/
def afterLabel? (label : String) : List Stmt → Option (List Stmt)
  | [] => none
  | .label name _ :: rest => if name = label then some rest else afterLabel? label rest
  | _ :: rest => afterLabel? label rest

end Stmt

namespace Exec

/-- Run the rest of a list of statements. A jump to a label of the list continues behind the
label, wherever in the list it stands; every other jump leaves the list. -/
def sequence (exec : Stmt → Exec Flow) (all : List Stmt) : Nat → List Stmt → Exec Flow
  | 0, _ => exhausted
  | _ + 1, [] => return .normal
  | bound + 1, first :: rest => do
    match ← exec first with
    | .normal => sequence exec all bound rest
    | .jump label loc =>
      match Stmt.afterLabel? label all with
      | some rest => sequence exec all bound rest
      | none => return .jump label loc
    | flow => return flow

/-- Run the statements of a block in a frame of its own. -/
def block (exec : Stmt → Exec Flow) (bound : Nat) (body : List Stmt) : Exec Flow :=
  inFrame .block (sequence exec body bound body)

/-- Run rounds of a loop: while a condition holds, a body and then a step. -/
def iterate (cond : Exec Bool) (body : Exec Flow) (step : Exec Unit) : Nat → Exec Flow
  | 0 => exhausted
  | bound + 1 => do
    if ← cond then
      match ← body with
      | .normal | .sink _ => do
        step
        iterate cond body step bound
      | .snap _ => return .normal
      | flow => return flow
    else
      return .normal

/-- Note the position of a jump, and make it. -/
def makeJump (flow : Flow) (loc : Location) : Exec Flow := do
  update fun m => { m with signal := loc }
  return flow

/-- Fail for a jump that has left everything that could take it up. The error has the position of
the last jump that was run. -/
def rejectEscape (flow : Flow) : Exec Unit := do
  let loc := (← machine).signal
  match flow with
  | .normal | .awaken _ => return ()
  | .snap _ => fail (.jumpOutsideLoop "snap") loc
  | .sink _ => fail (.jumpOutsideLoop "sink") loc
  | .jump label _ => fail (.unresolvedLabel label) loc

end Exec

end Trance
