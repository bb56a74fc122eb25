import Trance.Token.Lexer
import Trance.Parsing.Stmt

/-!
# Parsing programs

A program stands between its opening and its closing word, with or without braces inside.
Entrance blocks and links are read here and nowhere else.
-/

namespace Trance

namespace Parser

def topLevel (bound : Nat) : Parser Stmt := do
  let token ← peek
  match token.kind with
  | .entrance =>
    advance
    let _ ← expect .leftBrace "after 'entrance'"
    let body ← untilBrace (statement bound) bound
    let _ ← expect .rightBrace "after entrance block"
    return .entrance body token.location
  | .mindLink =>
    advance
    let path ← expect .text "after 'mindLink'"
    let _ ← expect .semicolon "after mindLink path"
    return .mindLink path.lexeme token.location
  | _ => statement bound

/-- The statements of a program up to the token that closes it, which is not taken. It is an
error if the text ends before. -/
def topLevels (closing : Token.Kind) (depth : Nat) : Nat → Parser (List Stmt)
  | 0 => exhausted
  | bound + 1 => do
    let token ← peek
    if token.kind = closing then
      return []
    else if token.kind = .eof then
      fail (.unclosed closing) token.location
    else
      let first ← topLevel depth
      return first :: (← topLevels closing depth bound)

/-- A whole program. Nothing but a semicolon may follow its closing word. -/
def program (bound : Nat) : Parser Program := do
  let first ← peek
  if first.kind = .focus then
    advance
    let braced ← accept .leftBrace
    let closing := if braced then Token.Kind.rightBrace else Token.Kind.relax
    let statements ← topLevels closing bound bound
    if braced then
      let _ ← expect .rightBrace "to close the 'Focus' block"
    let _ ← expect .relax "at end of program"
    let _ ← accept .semicolon
    let last ← peek
    if last.kind = .eof then
      return ⟨statements⟩
    else
      fail (.trailing last) last.location
  else
    fail (.noFocus first) first.location

end Parser

namespace Program

/-- The program that a list of tokens spells. Only the tokens up to the first end marker
count. -/
def ofTokens (origin : Origin) (tokens : List Token) : Except ParseError Program :=
  let cursor := Cursor.ofTokens origin tokens
  (Parser.program cursor.tokens.size cursor).1

def ofText (origin : Origin) (source : String) : Except ParseError Program :=
  ofTokens origin (Token.lex source)

end Program

end Trance
