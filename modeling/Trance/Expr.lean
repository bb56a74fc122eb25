import Trance.Location

/-!
# Expressions

The tree of an expression. Every node carries the position that messages about it refer to:
the operator for a binary node, the bracket or dot for a call, an index or a field access,
and the first token for everything else.
-/

namespace Trance

/-- The operators that stand between two operands. -/
inductive BinaryOp where
  | add | sub | mul | div | mod
  | eq | ne
  | lt | le | gt | ge
  | conj | disj
deriving DecidableEq, Repr, Inhabited

namespace BinaryOp

def symbol : BinaryOp → String
  | add => "+"
  | sub => "-"
  | mul => "*"
  | div => "/"
  | mod => "%"
  | eq => "=="
  | ne => "!="
  | lt => "<"
  | le => "<="
  | gt => ">"
  | ge => ">="
  | conj => "&&"
  | disj => "||"

end BinaryOp

/-- The operators that stand before an operand. -/
inductive UnaryOp where
  | not | neg | plus
deriving DecidableEq, Repr, Inhabited

def UnaryOp.symbol : UnaryOp → String
  | .not => "!"
  | .neg => "-"
  | .plus => "+"

/-- Expressions. -/
inductive Expr where
  | number (value : Float) (loc : Location)
  | text (value : String) (loc : Location)
  | boolean (value : Bool) (loc : Location)
  | name (name : String) (loc : Location)
  | binary (op : BinaryOp) (left right : Expr) (loc : Location)
  | unary (op : UnaryOp) (operand : Expr) (loc : Location)
  | call (callee : Expr) (args : List Expr) (loc : Location)
  | field (object : Expr) (field : String) (loc : Location)
  | index (object index : Expr) (loc : Location)
  | assign (target value : Expr) (loc : Location)
  | record (typeName : String) (fields : List (String × Expr)) (loc : Location)
  | array (items : List Expr) (loc : Location)
deriving Inhabited

namespace Expr

/-- The position that messages about an expression refer to. -/
def location : Expr → Location
  | number _ loc | text _ loc | boolean _ loc | name _ loc | binary _ _ _ loc | unary _ _ loc
  | call _ _ loc | field _ _ loc | index _ _ loc | assign _ _ loc | record _ _ loc
  | array _ loc => loc

/-- The name under which a method sees the session it was called on. -/
def thisName : String := "this"

/-- Whether an expression is the name of the session that a method was called on. -/
def isThis : Expr → Bool
  | name n _ => n == thisName
  | _ => false

/-- The name that an expression is, with its position, if it is one. -/
def asName? : Expr → Option (String × Location)
  | name n loc => some (n, loc)
  | _ => none

/-- Whether an expression may stand on the left of an assignment. -/
def isPlace : Expr → Bool
  | name .. | field .. | index .. => true
  | _ => false

end Expr

end Trance
