import Trance.Number.Reading
import Trance.Number.Shortest
import Trance.Stmt
import Trance.Table
import Trance.Text.Blank

/-!
# Values

Arrays and records are plain data: an assignment copies them. A session is a reference to
an object that lives elsewhere, and a suggestion is its declaration; both compare by identity.
-/

namespace Trance

/-- A reference to a session: its number among all sessions made, and the name of its
declaration. -/
structure SessionRef where
  id : Nat
  name : String
deriving DecidableEq, Repr, Inhabited

/-- Values. -/
inductive Value where
  | number (value : Float)
  | text (value : String)
  | boolean (value : Bool)
  | array (items : List Value)
  | record (typeName : String) (fields : List (String × Value))
  | session (ref : SessionRef)
  | suggestion (decl : Suggestion)
  | null
deriving Inhabited

/-- Whether two declarations are the same one: read from the same text at the same place. -/
def SuggestionOf.isSame {σ : Type} (a b : SuggestionOf σ) : Bool :=
  a.origin = b.origin && a.location = b.location

namespace Value

/-! ## Equality -/

mutual

/-- Whether two values are equal. Numbers compare as numbers, so NaN differs from itself, and
values of different kinds are never equal. -/
def same : Value → Value → Bool
  | number a, number b => a == b
  | text a, text b => a == b
  | boolean a, boolean b => a == b
  | array a, array b => sameItems a b
  | record s a, record t b => s == t && sameFields a b
  | session a, session b => a.id == b.id
  | suggestion a, suggestion b => a.isSame b
  | null, null => true
  | _, _ => false
termination_by structural value => value

/-- Whether two lists of values are equal one by one. -/
def sameItems : List Value → List Value → Bool
  | [], [] => true
  | a :: as, b :: bs => same a b && sameItems as bs
  | _, _ => false
termination_by structural items => items

/-- Whether two lists of fields agree in names and values one by one. -/
def sameFields : List (String × Value) → List (String × Value) → Bool
  | [], [] => true
  | (m, a) :: as, (n, b) :: bs => m == n && same a b && sameFields as bs
  | _, _ => false
termination_by structural fields => fields

end

/-! ## Views -/

/-- The name of the type of a value, as messages give it. -/
def typeName : Value → String
  | number _ => "number"
  | text _ => "string"
  | boolean _ => "boolean"
  | array _ => "array"
  | record name _ => name
  | session ref => ref.name
  | suggestion _ => "suggestion"
  | null => "null"

/-- The number that arithmetic takes a value for. A text counts as the number that it spells
between blanks. -/
def number? : Value → Option Float
  | number n => some n
  | boolean b => some (if b then 1.0 else 0.0)
  | text s => Number.read? (Text.trim s.toList)
  | _ => none

/-- Whether a condition with this value holds. -/
def truthy : Value → Bool
  | boolean b => b
  | number n => n != 0.0
  | text s => !s.isEmpty
  | null => false
  | array _ | record .. | session _ | suggestion _ => true

/-! ## Text -/

/-- The text of a number as a value: a whole number of moderate size is written as an integer,
so that zero has no sign. -/
def numberText (n : Float) : String :=
  match Number.whole? n with
  | some i => if i.natAbs < Nat.pow 10 15 then toString i else Number.text n
  | none => Number.text n

mutual

def toText : Value → String
  | number n => numberText n
  | text s => s
  | boolean b => if b then "true" else "false"
  | array items => "[" ++ ", ".intercalate (itemTexts items) ++ "]"
  | record name fields => name ++ " \x7b " ++ ", ".intercalate (fieldTexts fields) ++ " \x7d"
  | session ref => "<session " ++ ref.name ++ ">"
  | suggestion decl => "<suggestion " ++ decl.name ++ ">"
  | null => "null"
termination_by structural value => value

def itemTexts : List Value → List String
  | [] => []
  | item :: rest => toText item :: itemTexts rest
termination_by structural items => items

def fieldTexts : List (String × Value) → List String
  | [] => []
  | (name, value) :: rest => (name ++ ": " ++ toText value) :: fieldTexts rest
termination_by structural fields => fields

end

end Value

end Trance
