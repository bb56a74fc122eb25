/-!
# Types

The types that the checker assigns to expressions. `any` accepts everything and is accepted by
everything; `unknown` is the type of an expression about which something has been reported
already, and keeps further reports about it away.
-/

namespace Trance

/-- Types. -/
inductive Ty where
  | number | int | text | boolean | array | void
  | any
  | unknown
  | session (name : String)
  | record (name : String)
deriving DecidableEq, Repr, Inhabited

namespace Ty

def name : Ty → String
  | number => "number"
  | int => "int"
  | text => "string"
  | boolean => "boolean"
  | array => "array"
  | void => "void"
  | any => "any"
  | unknown => "unknown"
  | session name | record name => name

/-- The built-in type of a name. Some have more than one name. -/
def builtin? : String → Option Ty
  | "number" | "float" | "double" => some number
  | "int" => some int
  | "string" => some text
  | "boolean" | "bool" => some boolean
  | "array" => some array
  | "void" => some void
  | "any" => some any
  | "unknown" => some unknown
  | _ => none

/-- Whether a value of a type may be calculated with. -/
def isNumeric : Ty → Bool
  | number | int | any => true
  | _ => false

/-- Whether a value of a type may be a condition. -/
def isBoolean : Ty → Bool
  | boolean | any => true
  | _ => false

/-- Whether values of two types may stand for each other. -/
def compatible (s t : Ty) : Bool :=
  match s, t with
  | any, _ | _, any => true
  | unknown, _ | _, unknown => true
  | number, int | int, number => true
  | s, t => s = t

end Ty

end Trance
