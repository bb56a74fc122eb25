import Trance.Stmt
import Trance.Parsing.Expr

/-!
# Parsing statements and declarations

One parser per form of statement, chosen by the first token. As with expressions, a nested
statement stands behind a token that has been taken, so `statement` recurses on a bound for
the number of tokens.
-/

namespace Trance.Parser

/-! ## Blocks -/

def block (stmt : Parser Stmt) (bound : Nat) (context : String) : Parser (List Stmt) := do
  let _ ← expect .leftBrace context
  let body ← untilBrace stmt bound
  let _ ← expect .rightBrace "to close block"
  return body

/-! ## Variables and record types -/

/-- Where the first value of a variable comes from: from an expression behind an equals sign, from
outside, or from nowhere yet. -/
def start (expr : Parser Expr) : Parser Start := do
  if ← accept .assign then
    return .value (← expr)
  else if ← accept .fromWord then
    let _ ← expect .external "after 'from'"
    return .external
  else
    return .unset

/-- The declaration of a variable behind its first word, up to its semicolon. -/
def variableRest (expr : Parser Expr) (loc : Location) : Parser Variable := do
  let name ← identifier "after 'induce'"
  let typeName ← typeAnnotation
  let start ← start expr
  let _ ← expect .semicolon "after variable declaration"
  return ⟨name, typeName, start, loc⟩

/-- The first value of a field of a record type, which only an expression can give. -/
def fieldStart (expr : Parser Expr) : Parser Start := do
  if ← accept .assign then
    return .value (← expr)
  else
    return .unset

def tranceifyField (expr : Parser Expr) : Parser Variable := do
  let loc ← here
  let _ ← accept .induce
  let name ← identifier "as tranceify field name"
  let _ ← expect .colon "after tranceify field name"
  let typeName ← identifier "as field type"
  let start ← fieldStart expr
  let _ ← expect .semicolon "after tranceify field"
  return ⟨name, some typeName, start, loc⟩

/-- The declaration of a record type behind its first word. -/
def tranceifyRest (expr : Parser Expr) (bound : Nat) (loc : Location) : Parser Tranceify := do
  let name ← identifier "after 'tranceify'"
  let _ ← expect .leftBrace "after tranceify name"
  let members ← untilBrace (tranceifyField expr) bound
  let _ ← expect .rightBrace "after tranceify body"
  return ⟨name, members, loc⟩

/-! ## Suggestions -/

def param : Parser Param := do
  let name ← identifier "as parameter name"
  return ⟨name, ← typeAnnotation⟩

def params (bound : Nat) : Parser (List Param) := do
  let _ ← expect .leftParen "before parameter list"
  let params ← listUntil .rightParen param bound
  let _ ← expect .rightParen "after parameters"
  return params

/-- The name of a suggestion. The word for a constructor is also a name. -/
def suggestionName : Parser String := do
  if ← accept .constructor then
    return constructorName
  else
    identifier "as suggestion name"

/-- A suggestion behind its modifiers: name, parameters, type and body. -/
def suggestionRest (stmt : Parser Stmt) (bound : Nat) (loc : Location)
    (imperative dominant : Bool) : Parser Suggestion := do
  let name ← suggestionName
  let params ← params bound
  let returnType ← typeAnnotation
  let body ← block stmt bound "before suggestion body"
  return ⟨name, params, returnType, body, imperative, dominant, loc, (← get).origin⟩

/-- A suggestion outside of a session, with at most one modifier. -/
def suggestion (stmt : Parser Stmt) (bound : Nat) : Parser Suggestion := do
  let loc ← here
  let imperative ← accept .imperative
  let dominant ← if imperative then pure false else accept .dominant
  let _ ← expect .suggestion ""
  suggestionRest stmt bound loc imperative dominant

/-! ## Sessions -/

/-- What a member of a session declares, behind the modifiers of the member. A constructor
written without the word for a suggestion is never dominant itself. -/
def memberDecl (expr : Parser Expr) (stmt : Parser Stmt) (bound : Nat) (dominant : Bool) :
    Parser MemberDecl := do
  let token ← peek
  match token.kind with
  | .induce =>
    advance
    return .field (← variableRest expr token.location)
  | .suggestion =>
    advance
    return .method (← suggestionRest stmt bound token.location false dominant)
  | .imperative =>
    advance
    let _ ← expect .suggestion "after 'imperative'"
    return .method (← suggestionRest stmt bound token.location true dominant)
  | .constructor => return .method (← suggestionRest stmt bound token.location false false)
  | _ => fail (.expectedMember token) token.location

/-- A member of a session. It is exposed unless it is marked otherwise. -/
def member (expr : Parser Expr) (stmt : Parser Stmt) (bound : Nat) : Parser Member := do
  let concealed ← accept .conceal
  let _ ← if concealed then pure false else accept .expose
  let dominant ← accept .dominant
  return ⟨← memberDecl expr stmt bound dominant, !concealed, dominant⟩

/-- The declaration of a session behind its first word. -/
def sessionRest (expr : Parser Expr) (stmt : Parser Stmt) (bound : Nat) (loc : Location) :
    Parser Session := do
  let name ← identifier "after 'session'"
  let _ ← expect .leftBrace "after session name"
  let members ← untilBrace (member expr stmt bound) bound
  let _ ← expect .rightBrace "after session body"
  return ⟨name, members, loc⟩

/-! ## Branches and loops -/

/-- What follows the word for an alternative: another branch, or a block. -/
def alternative (stmt : Parser Stmt) (bound : Nat) : Parser (List Stmt) := do
  if (← peek).kind = .ifWord then
    return [← stmt]
  else
    block stmt bound "after 'else'"

def branchRest (expr : Parser Expr) (stmt : Parser Stmt) (bound : Nat) (loc : Location) :
    Parser Stmt := do
  let _ ← expect .leftParen "after 'if'"
  let cond ← expr
  let _ ← expect .rightParen "after if condition"
  let yes ← block stmt bound "after if condition"
  if ← accept .elseWord then
    return .branch cond yes (some (← alternative stmt bound)) loc
  else
    return .branch cond yes none loc

/-- A loop with a condition alone, behind its first word. -/
def whileRest (expr : Parser Expr) (stmt : Parser Stmt) (bound : Nat) (loc : Location) :
    Parser Stmt := do
  let _ ← expect .leftParen "after 'while'"
  let cond ← expr
  let _ ← expect .rightParen "after while condition"
  return .whileLoop cond (← block stmt bound "after while condition") loc

/-- What a counted loop does first, with the semicolon behind it. -/
def loopStart (expr : Parser Expr) : Parser (Option Stmt) := do
  let loc ← here
  if ← accept .semicolon then
    return none
  else if ← accept .induce then
    return some (.induce (← variableRest expr loc))
  else
    let first ← expr
    let _ ← expect .semicolon "after loop initializer"
    return some (.expr first loc)

/-- An expression, or none if a closing token stands at the cursor. The closing token is
not taken. -/
def optionalUntil (closing : Token.Kind) (expr : Parser Expr) : Parser (Option Expr) := do
  if (← peek).kind = closing then
    return none
  else
    return some (← expr)

def loopRest (expr : Parser Expr) (stmt : Parser Stmt) (bound : Nat) (loc : Location) :
    Parser Stmt := do
  let _ ← expect .leftParen "after 'loop'"
  let init ← loopStart expr
  let cond ← optionalUntil .semicolon expr
  let _ ← expect .semicolon "after loop condition"
  let step ← optionalUntil .rightParen expr
  let _ ← expect .rightParen "after loop clauses"
  return .loop init cond step (← block stmt bound "after loop clauses") loc

/-! ## Statements -/

/-- A statement whose first token is given and has been looked at, but not taken. `stmt` reads
a nested statement. -/
def statementOf (stmt : Parser Stmt) (bound : Nat) (token : Token) : Parser Stmt := do
  let expr := expression bound
  let loc := token.location
  match token.kind with
  | .induce =>
    advance
    return .induce (← variableRest expr loc)
  | .ifWord =>
    advance
    branchRest expr stmt bound loc
  | .whileWord =>
    advance
    whileRest expr stmt bound loc
  | .loop =>
    advance
    loopRest expr stmt bound loc
  | .suggestion | .imperative | .dominant => return .suggestion (← suggestion stmt bound)
  | .session =>
    advance
    return .session (← sessionRest expr stmt bound loc)
  | .tranceify =>
    advance
    return .tranceify (← tranceifyRest expr bound loc)
  | .observe =>
    advance
    let value ← expr
    let _ ← expect .semicolon "after observe expression"
    return .observe value loc
  | .awaken =>
    advance
    let value ← optionalUntil .semicolon expr
    let _ ← expect .semicolon "after 'awaken'"
    return .awaken value loc
  | .snap =>
    advance
    let _ ← expect .semicolon "after 'snap'"
    return .snap loc
  | .sink =>
    advance
    let _ ← expect .semicolon "after 'sink'"
    return .sink loc
  | .sinkTo =>
    advance
    let label ← identifier "after 'sinkTo'"
    let _ ← expect .semicolon "after sinkTo label"
    return .sinkTo label loc
  | .label =>
    advance
    let name ← identifier "after 'label'"
    let _ ← expect .semicolon "after label name"
    return .label name loc
  | .assert =>
    advance
    let cond ← expr
    let next ← peek
    let stated ← accept .text
    let _ ← expect .semicolon "after assertion"
    return .assert cond (if stated then some next.lexeme else none) loc
  | .entrance | .mindLink => fail (.onlyTopLevel token) loc
  | _ =>
    let value ← expr
    let _ ← expect .semicolon "after expression"
    return .expr value loc

/-- A statement nested to a depth below the bound. -/
def statement : Nat → Parser Stmt
  | 0 => exhausted
  | bound + 1 => do
    let token ← peek
    statementOf (statement bound) (bound + 1) token

end Trance.Parser
