import Trance.Token

/-!
# Parsers over tokens

A parser moves a cursor over a list of tokens, and either returns a result or fails with the one
error that it meets first. The cursor stays where it is at an end marker, so no parser gets
past the first of them.

Parsers that repeat take a bound on the number of repetitions, and fail for a cause of its own
where it is used up. Every repetition takes at least one token, so this does not happen if the
bound is greater than the number of tokens before the end marker.
-/

namespace Trance

/-! ## Errors -/

/-- Why parsing failed. The last cause is that a bound was used up. -/
inductive ParseError.Cause where
  | noFocus (found : Token)
  | unclosed (closing : Token.Kind)
  | trailing (found : Token)
  | expected (kind : Token.Kind) (context : String) (found : Token)
  | expectedExpression (found : Token)
  | expectedMember (found : Token)
  | onlyTopLevel (found : Token)
  | invalidTarget
  | invalidNumber (lexeme : String)
  | exhausted
deriving DecidableEq, Repr, Inhabited

def ParseError.Cause.message : ParseError.Cause → String
  | noFocus found => "Program must start with 'Focus', found " ++ found.describe
  | unclosed closing => "Expected " ++ closing.describe ++ " before end of file"
  | trailing found => "Unexpected " ++ found.describe ++ " after 'Relax'"
  | expected kind context found =>
    "Expected " ++ kind.describe ++ (if context.isEmpty then "" else " " ++ context) ++
      ", found " ++ found.describe
  | expectedExpression found => "Expected expression, found " ++ found.describe
  | expectedMember found => "Expected session member, found " ++ found.describe
  | onlyTopLevel found => found.describe ++ " is only allowed at the top level"
  | invalidTarget => "Invalid assignment target"
  | invalidNumber lexeme => "Invalid number literal: " ++ lexeme
  | exhausted => "Bound on the number of steps used up"

/-- A parse error: its cause and the position it is reported at. -/
structure ParseError where
  cause : ParseError.Cause
  location : Location
deriving DecidableEq, Repr, Inhabited

def ParseError.message (e : ParseError) : String :=
  s!"Parse error at line {e.location.line}, column {e.location.column}: " ++ e.cause.message

/-! ## The cursor -/

/-- A place among tokens, and the text that they come from. -/
structure Cursor where
  tokens : Array Token
  position : Nat
  origin : Origin
deriving DecidableEq, Repr, Inhabited

namespace Cursor

/-- Tokens with an end marker as the last of them. Where it is missing it is added, at the position
of the last token, or at `0:0` if there is none. -/
def closed (tokens : List Token) : List Token :=
  match tokens.getLast? with
  | none => [⟨.eof, "", ⟨0, 0⟩⟩]
  | some last => if last.kind = .eof then tokens else tokens ++ [⟨.eof, "", last.location⟩]

/-- The cursor at the start of a list of tokens. -/
def ofTokens (origin : Origin) (tokens : List Token) : Cursor :=
  ⟨(closed tokens).toArray, 0, origin⟩

def ahead? (c : Cursor) (places : Nat) : Option Token :=
  c.tokens[c.position + places]?

/-- The token at the cursor. Behind the last token this is an end marker. -/
def token (c : Cursor) : Token :=
  (c.ahead? 0).getD ⟨.eof, "", ⟨0, 0⟩⟩

/-- The cursor behind its token. An end marker is never passed. -/
def advance (c : Cursor) : Cursor :=
  if c.token.kind = .eof then c else { c with position := c.position + 1 }

end Cursor

/-! ## Parsers -/

/-- A parser: it moves the cursor, and returns a result or fails. -/
abbrev Parser (α : Type) := ExceptT ParseError (StateM Cursor) α

namespace Parser

variable {α : Type}

def peek : Parser Token := do
  return (← get).token

def kind : Parser Token.Kind := do
  return (← peek).kind

def here : Parser Location := do
  return (← peek).location

def advance : Parser Unit :=
  modify Cursor.advance

def fail (cause : ParseError.Cause) (loc : Location) : Parser α :=
  throw ⟨cause, loc⟩

/-- What becomes of a parser whose bound is used up. -/
def exhausted : Parser α := do
  fail .exhausted (← here)

/-- Take the token at the cursor if it is of a kind, and tell whether it was. -/
def accept (kind : Token.Kind) : Parser Bool := do
  if (← peek).kind = kind then
    advance
    return true
  else
    return false

/-- Take the token at the cursor, which must be of a kind. The context says in the message
where the token was expected. -/
def expect (kind : Token.Kind) (context : String) : Parser Token := do
  let token ← peek
  if token.kind = kind then
    advance
    return token
  else
    fail (.expected kind context token) token.location

def identifier (context : String) : Parser String := do
  return (← expect .identifier context).lexeme

/-- An optional type annotation: a colon and the name of a type. -/
def typeAnnotation : Parser (Option String) := do
  if ← accept .colon then
    return some (← identifier "as type name")
  else
    return none

/-! ## Sequences -/

/-- Items up to a closing brace or the end of the text, neither of which is taken. -/
def untilBrace (item : Parser α) : Nat → Parser (List α)
  | 0 => exhausted
  | bound + 1 => do
    let kind ← kind
    if kind = .rightBrace || kind = .eof then
      return []
    else
      let first ← item
      return first :: (← untilBrace item bound)

/-- One or more items with commas between them. -/
def commaSeparated (item : Parser α) : Nat → Parser (List α)
  | 0 => exhausted
  | bound + 1 => do
    let first ← item
    if ← accept .comma then
      return first :: (← commaSeparated item bound)
    else
      return [first]

/-- Items with commas between them, or none if a closing token stands at the cursor. The
closing token is not taken. -/
def listUntil (closing : Token.Kind) (item : Parser α) (bound : Nat) : Parser (List α) := do
  if (← peek).kind = closing then
    return []
  else
    commaSeparated item bound

end Parser

end Trance
