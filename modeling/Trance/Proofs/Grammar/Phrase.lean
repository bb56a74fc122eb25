import Trance.Parsing.Basic
import Trance.Expr
import Trance.Number.Reading

/-!
# The grammar of expressions

A grammar says which lists of tokens spell which trees, and says nothing about how a tree is
found. A derivation leads from a list of tokens to a tree and to the tokens that are left: its
own tokens are those in between, and what is left plays no part in it.

Derivations are data. Two of them over the same tokens can be compared, so that the grammar
can be said to be unambiguous.
-/

namespace Trance.Grammar

/-! ## Operators -/

/-- The levels of binary operators. -/
inductive Level where
  | disjunction | conjunction | equality | comparison | sum | product
deriving DecidableEq, Repr, Inhabited

/-- The tokens that stand for the operators of a level. Six operators have a second spelling. -/
def Level.operators : Level → List (Token.Kind × BinaryOp)
  | disjunction => [(.disj, .disj)]
  | conjunction => [(.conj, .conj)]
  | equality =>
    [(.equal, .eq), (.youAreFeelingVerySleepy, .eq), (.notEqual, .ne), (.notSoDeep, .ne)]
  | comparison =>
    [(.less, .lt), (.fallUnderMySpell, .lt), (.lessEqual, .le), (.deeplyLess, .le),
     (.greater, .gt), (.lookAtTheWatch, .gt), (.greaterEqual, .ge), (.deeplyGreater, .ge)]
  | sum => [(.plus, .add), (.minus, .sub)]
  | product => [(.star, .mul), (.slash, .div), (.percent, .mod)]

def Level.ladder : List Level :=
  [disjunction, conjunction, equality, comparison, sum, product]

def signs : List (Token.Kind × UnaryOp) :=
  [(.bang, .not), (.minus, .neg), (.plus, .plus)]

/-! ## Forms -/

/-- The forms of expressions. An operation has operators of the given levels outside of
brackets; items are one or more expressions with commas between them, and arguments may also be
none. -/
inductive Form where
  | expression
  | operation (levels : List Level)
  | signed
  | access
  | primary
  | items
  | arguments
  | fields
deriving DecidableEq, Repr, Inhabited

@[reducible] def Form.Tree : Form → Type
  | expression | operation _ | signed | access | primary => Expr
  | items | arguments => List Expr
  | fields => List (String × Expr)

/-! ## Derivations -/

/-- `Phrase form xs tree ys` derives a tree of a form from the tokens of `xs` before `ys`. -/
inductive Phrase : (form : Form) → List Token → form.Tree → List Token → Type where
  -- expression ::= operation | operation "=" expression
  | plain {xs e ys} (operation : Phrase (.operation Level.ladder) xs e ys) :
      Phrase .expression xs e ys
  | assign {xs target t ys value zs} (left : Phrase (.operation Level.ladder) xs target (t :: ys))
      (isPlace : target.isPlace = true) (equals : t.kind = .assign)
      (right : Phrase .expression ys value zs) :
      Phrase .expression xs (.assign target value t.location) zs
  -- operation ::= operand of the next level | operation operator operand
  | operand {xs e ys} (signed : Phrase .signed xs e ys) : Phrase (.operation []) xs e ys
  | single {level rest xs e ys} (tighter : Phrase (.operation rest) xs e ys) :
      Phrase (.operation (level :: rest)) xs e ys
  | binary {level rest xs left t ys op right zs}
      (first : Phrase (.operation (level :: rest)) xs left (t :: ys))
      (operator : (t.kind, op) ∈ level.operators)
      (second : Phrase (.operation rest) ys right zs) :
      Phrase (.operation (level :: rest)) xs (.binary op left right t.location) zs
  -- signed ::= access | sign signed
  | unsigned {xs e ys} (access : Phrase .access xs e ys) : Phrase .signed xs e ys
  | sign {t op xs e ys} (operator : (t.kind, op) ∈ signs) (operand : Phrase .signed xs e ys) :
      Phrase .signed (t :: xs) (.unary op e t.location) ys
  -- access ::= primary | access "(" arguments ")" | access "." name | access "[" expression "]"
  | base {xs e ys} (primary : Phrase .primary xs e ys) : Phrase .access xs e ys
  | call {xs e l ys args r zs} (callee : Phrase .access xs e (l :: ys)) (opens : l.kind = .leftParen)
      (arguments : Phrase .arguments ys args (r :: zs)) (closes : r.kind = .rightParen) :
      Phrase .access xs (.call e args l.location) zs
  | field {xs e dot name ys} (object : Phrase .access xs e (dot :: name :: ys))
      (isDot : dot.kind = .dot) (isName : name.kind = .identifier) :
      Phrase .access xs (.field e name.lexeme dot.location) ys
  | index {xs e l ys i r zs} (object : Phrase .access xs e (l :: ys)) (opens : l.kind = .leftBracket)
      (position : Phrase .expression ys i (r :: zs)) (closes : r.kind = .rightBracket) :
      Phrase .access xs (.index e i l.location) zs
  -- primary ::= number | text | "true" | "false" | name | name "{" fields "}"
  --   | "(" expression ")" | "[" arguments "]"
  | number {t value ys} (isNumber : t.kind = .number)
      (reads : Number.read? t.lexeme.toList = some value) :
      Phrase .primary (t :: ys) (.number value t.location) ys
  | text {t ys} (isText : t.kind = .text) : Phrase .primary (t :: ys) (.text t.lexeme t.location) ys
  | yes {t ys} (isTrue : t.kind = .trueWord) :
      Phrase .primary (t :: ys) (.boolean true t.location) ys
  | no {t ys} (isFalse : t.kind = .falseWord) :
      Phrase .primary (t :: ys) (.boolean false t.location) ys
  | name {t ys} (isName : t.kind = .identifier) :
      Phrase .primary (t :: ys) (.name t.lexeme t.location) ys
  | record {t l xs fields r ys} (isName : t.kind = .identifier) (opens : l.kind = .leftBrace)
      (given : Phrase .fields xs fields (r :: ys)) (closes : r.kind = .rightBrace) :
      Phrase .primary (t :: l :: xs) (.record t.lexeme fields t.location) ys
  | paren {l xs e r ys} (opens : l.kind = .leftParen) (inner : Phrase .expression xs e (r :: ys))
      (closes : r.kind = .rightParen) : Phrase .primary (l :: xs) e ys
  | array {l xs items r ys} (opens : l.kind = .leftBracket)
      (elements : Phrase .arguments xs items (r :: ys)) (closes : r.kind = .rightBracket) :
      Phrase .primary (l :: xs) (.array items l.location) ys
  -- items ::= expression | expression "," items
  | lastItem {xs e ys} (item : Phrase .expression xs e ys) : Phrase .items xs [e] ys
  | moreItems {xs e comma ys es zs} (item : Phrase .expression xs e (comma :: ys))
      (isComma : comma.kind = .comma) (more : Phrase .items ys es zs) :
      Phrase .items xs (e :: es) zs
  -- arguments ::= nothing | items
  | noArguments {xs} : Phrase .arguments xs [] xs
  | someArguments {xs es ys} (items : Phrase .items xs es ys) : Phrase .arguments xs es ys
  -- fields ::= nothing | name ":" expression | name ":" expression "," fields
  | noFields {xs} : Phrase .fields xs [] xs
  | lastField {name colon xs e ys} (isName : name.kind = .identifier)
      (isColon : colon.kind = .colon) (value : Phrase .expression xs e ys) :
      Phrase .fields (name :: colon :: xs) [(name.lexeme, e)] ys
  | moreFields {name colon xs e comma ys fields zs} (isName : name.kind = .identifier)
      (isColon : colon.kind = .colon) (value : Phrase .expression xs e (comma :: ys))
      (isComma : comma.kind = .comma) (more : Phrase .fields ys fields zs) :
      Phrase .fields (name :: colon :: xs) ((name.lexeme, e) :: fields) zs

end Trance.Grammar
