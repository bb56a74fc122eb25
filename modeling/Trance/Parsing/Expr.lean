import Trance.Expr
import Trance.Number.Reading
import Trance.Parsing.Basic

/-!
# Parsing expressions

Expressions are read level by level, from assignment, which binds loosest, through the six
levels of binary operators to prefix operators, accesses and primary expressions. The two
spellings of a comparison lead to the same node.

A nested expression always stands behind a token that has been taken, so the number of
tokens bounds the nesting, and `expression` recurses on that number.
-/

namespace Trance

/-! ## Operators -/

/-- The binary operators by level, from the loosest to the tightest. Each level tells which
operator a kind of token stands for. -/
def BinaryOp.levels : List (Token.Kind → Option BinaryOp) :=
  [fun
    | .disj => some .disj
    | _ => none,
   fun
    | .conj => some .conj
    | _ => none,
   fun
    | .equal | .youAreFeelingVerySleepy => some .eq
    | .notEqual | .notSoDeep => some .ne
    | _ => none,
   fun
    | .less | .fallUnderMySpell => some .lt
    | .lessEqual | .deeplyLess => some .le
    | .greater | .lookAtTheWatch => some .gt
    | .greaterEqual | .deeplyGreater => some .ge
    | _ => none,
   fun
    | .plus => some .add
    | .minus => some .sub
    | _ => none,
   fun
    | .star => some .mul
    | .slash => some .div
    | .percent => some .mod
    | _ => none]

/-- The operator that a kind of token stands for before an operand. -/
def UnaryOp.ofKind? : Token.Kind → Option UnaryOp
  | .bang => some .not
  | .minus => some .neg
  | .plus => some .plus
  | _ => none

namespace Parser

/-! ## Primary expressions

In this section `expr` reads a nested expression. -/

/-- Whether the tokens at the cursor continue a name to a record literal: an opening brace, and
then a closing brace or a field name with its colon. -/
def opensRecord (c : Cursor) : Bool :=
  shows 0 .leftBrace && (shows 1 .rightBrace || (shows 1 .identifier && shows 2 .colon))
where
  shows (places : Nat) (kind : Token.Kind) : Bool := (c.ahead? places).any (·.kind = kind)

def recordField (expr : Parser Expr) : Parser (String × Expr) := do
  let name ← identifier "as record field name"
  let _ ← expect .colon "after record field name"
  return (name, ← expr)

/-- The fields of a record literal. The last of them may have a comma behind it. -/
def recordFields (expr : Parser Expr) : Nat → Parser (List (String × Expr))
  | 0 => exhausted
  | bound + 1 => do
    if (← peek).kind = .rightBrace then
      return []
    else
      let first ← recordField expr
      if ← accept .comma then
        return first :: (← recordFields expr bound)
      else
        return [first]

/-- A name, or a record literal if the name of its type is followed by its fields. -/
def nameOrRecord (expr : Parser Expr) (bound : Nat) (token : Token) : Parser Expr := do
  if opensRecord (← get) then
    let _ ← expect .leftBrace "to open record literal"
    let fields ← recordFields expr bound
    let _ ← expect .rightBrace "to close record literal"
    return .record token.lexeme fields token.location
  else
    return .name token.lexeme token.location

/-- A literal, a name, a record, an array, or an expression in parentheses. -/
def primary (expr : Parser Expr) (bound : Nat) : Parser Expr := do
  let token ← peek
  match token.kind with
  | .number =>
    advance
    match Number.read? token.lexeme.toList with
    | some value => return .number value token.location
    | none => fail (.invalidNumber token.lexeme) token.location
  | .text =>
    advance
    return .text token.lexeme token.location
  | .trueWord =>
    advance
    return .boolean true token.location
  | .falseWord =>
    advance
    return .boolean false token.location
  | .identifier =>
    advance
    nameOrRecord expr bound token
  | .leftParen =>
    advance
    let inner ← expr
    let _ ← expect .rightParen "after expression"
    return inner
  | .leftBracket =>
    advance
    let items ← listUntil .rightBracket expr bound
    let _ ← expect .rightBracket "after array elements"
    return .array items token.location
  | _ => fail (.expectedExpression token) token.location

/-! ## Operators around primary expressions -/

/-- Any number of calls, field accesses and indices behind an expression. -/
def accesses (expr : Parser Expr) : Nat → Expr → Parser Expr
  | 0, _ => exhausted
  | bound + 1, object => do
    let token ← peek
    match token.kind with
    | .leftParen =>
      advance
      let args ← listUntil .rightParen expr bound
      let _ ← expect .rightParen "after arguments"
      accesses expr bound (.call object args token.location)
    | .dot =>
      advance
      let field ← identifier "after '.'"
      accesses expr bound (.field object field token.location)
    | .leftBracket =>
      advance
      let index ← expr
      let _ ← expect .rightBracket "after index"
      accesses expr bound (.index object index token.location)
    | _ => return object

/-- An operand with any number of operators before it. -/
def signed (operand : Parser Expr) : Nat → Parser Expr
  | 0 => exhausted
  | bound + 1 => do
    let token ← peek
    match UnaryOp.ofKind? token.kind with
    | some op =>
      advance
      return .unary op (← signed operand bound) token.location
    | none => operand

/-- The operators of one level behind a left operand, grouped to the left. -/
def chain (op? : Token.Kind → Option BinaryOp) (operand : Parser Expr) : Nat → Expr → Parser Expr
  | 0, _ => exhausted
  | bound + 1, left => do
    let token ← peek
    match op? token.kind with
    | some op =>
      advance
      let right ← operand
      chain op? operand bound (.binary op left right token.location)
    | none => return left

/-- The binary operators of the given levels over operands. -/
def operators (operand : Parser Expr) (bound : Nat) :
    List (Token.Kind → Option BinaryOp) → Parser Expr
  | [] => operand
  | op? :: tighter => do
    let first ← operators operand bound tighter
    chain op? (operators operand bound tighter) bound first

/-- An expression without an assignment outside of parentheses. -/
def operation (expr : Parser Expr) (bound : Nat) : Parser Expr :=
  let operand := do
    let object ← primary expr bound
    accesses expr bound object
  operators (signed operand bound) bound BinaryOp.levels

/-- An expression, with an assignment at its top if an equals sign follows its first part. The
target is looked at once the equals sign has been taken. -/
def assignment (expr : Parser Expr) (bound : Nat) : Parser Expr := do
  let target ← operation expr bound
  let loc ← here
  if ← accept .assign then
    if target.isPlace then
      return .assign target (← expr) loc
    else
      fail .invalidTarget target.location
  else
    return target

/-- An expression nested to a depth below the bound. -/
def expression : Nat → Parser Expr
  | 0 => exhausted
  | bound + 1 => assignment (expression bound) (bound + 1)

end Parser

end Trance
