import Trance.Value
import Trance.Running.Error

/-!
# Operators on values

Arithmetic and ordering take both operands as numbers; adding joins texts if one operand is a
text. A value at a position, and a member of a record, are looked up here too, because they
need nothing but the value.
-/

namespace Trance

/-- The result of an operation that can fail. -/
abbrev Attempt (α : Type) := Except RuntimeError α

namespace Attempt

variable {α : Type}

def fail (cause : RuntimeError.Cause) (loc : Location) : Attempt α :=
  .error (.raised cause loc)

end Attempt

def Value.asNumber (value : Value) (loc : Location) : Attempt Float :=
  match value.number? with
  | some n => .ok n
  | none => Attempt.fail (.typeError "number" value.typeName) loc

namespace BinaryOp

/-- An operation on two operands taken as numbers, the left one first. -/
def onNumbers (left right : Value) (loc : Location) (f : Float → Float → Attempt Value) :
    Attempt Value := do
  let l ← left.asNumber loc
  let r ← right.asNumber loc
  f l r

/-- A division, which has no result for a zero divisor. -/
def divide (f : Float → Float → Float) (loc : Location) (l r : Float) : Attempt Value :=
  if r == 0.0 then Attempt.fail .divisionByZero loc else .ok (.number (f l r))

/-- The value of an operation. The two logical operators are applied to operands that have both
been evaluated. -/
def apply (op : BinaryOp) (left right : Value) (loc : Location) : Attempt Value :=
  match op with
  | add =>
    match left, right with
    | .text _, _ | _, .text _ => .ok (.text (left.toText ++ right.toText))
    | _, _ => onNumbers left right loc fun l r => .ok (.number (l + r))
  | sub => onNumbers left right loc fun l r => .ok (.number (l - r))
  | mul => onNumbers left right loc fun l r => .ok (.number (l * r))
  | div => onNumbers left right loc (divide (· / ·) loc)
  | mod => onNumbers left right loc (divide Number.remainder loc)
  | eq => .ok (.boolean (left.same right))
  | ne => .ok (.boolean (!left.same right))
  | lt => onNumbers left right loc fun l r => .ok (.boolean (decide (l < r)))
  | le => onNumbers left right loc fun l r => .ok (.boolean (decide (l ≤ r)))
  | gt => onNumbers left right loc fun l r => .ok (.boolean (decide (r < l)))
  | ge => onNumbers left right loc fun l r => .ok (.boolean (decide (r ≤ l)))
  | conj => .ok (.boolean (left.truthy && right.truthy))
  | disj => .ok (.boolean (left.truthy || right.truthy))

end BinaryOp

def UnaryOp.apply (op : UnaryOp) (operand : Value) (loc : Location) : Attempt Value :=
  match op with
  | not => .ok (.boolean (!operand.truthy))
  | neg => do return .number (-(← operand.asNumber loc))
  | plus => do return .number (← operand.asNumber loc)

namespace Value

/-! ## Positions -/

/-- The position that an index selects among a number of items. It must be a whole number within
bounds, and is brought into the range of 64 bits before it is compared. -/
def position (index : Value) (length : Nat) (loc : Location) : Attempt Nat := do
  let raw ← index.asNumber loc
  match Number.whole? raw with
  | none => Attempt.fail (.typeError "integer index" (Number.text raw)) loc
  | some whole =>
    let at64 := Number.saturate whole
    if at64 < 0 || length ≤ at64.toNat then
      Attempt.fail (.indexOutOfBounds at64 length) loc
    else
      .ok at64.toNat

/-- The item of an array, or the character of a text, at an index. -/
def at? (target index : Value) (loc : Location) : Attempt Value :=
  match target with
  | array items => do
    let i ← index.position items.length loc
    return items[i]?.getD null
  | text s => do
    let i ← index.position s.length loc
    return (s.toList[i]?.map fun c => text (String.singleton c)).getD null
  | other => Attempt.fail (.typeError "array" other.typeName) loc

end Value

end Trance
