import Trance.Location

/-!
# Tokens

A token is a kind, a lexeme and a position. Keywords, operators and punctuation are
kinds with one fixed spelling; the spelling is the only description of them that there
is, so the table of keywords and the wording of messages both follow from it.
-/

namespace Trance

namespace Token

/-- The categories of tokens. -/
inductive Kind where
  | number | text | trueWord | falseWord
  | identifier
  | focus | relax | entrance | mindLink
  | induce | fromWord | external | suggestion | imperative | dominant
  | session | constructor | expose | conceal | tranceify
  | ifWord | elseWord | whileWord | loop | snap | sink | sinkTo | label | awaken | observe | assert
  | youAreFeelingVerySleepy | notSoDeep | lookAtTheWatch | fallUnderMySpell
  | deeplyGreater | deeplyLess
  | plus | minus | star | slash | percent
  | equal | notEqual | less | lessEqual | greater | greaterEqual
  | conj | disj | bang
  | assign
  | dot | colon | comma | semicolon
  | leftParen | rightParen | leftBrace | rightBrace | leftBracket | rightBracket
  | eof
deriving DecidableEq, Repr, Inhabited

namespace Kind

/-- The keywords, among them the six operators that are spelled as words. -/
def keywords : List Kind :=
  [focus, relax, entrance, mindLink, induce, fromWord, external, suggestion, imperative, dominant,
   session, constructor, expose, conceal, tranceify, ifWord, elseWord, whileWord, loop, snap, sink,
   sinkTo, label, awaken, observe, assert, trueWord, falseWord, youAreFeelingVerySleepy, notSoDeep,
   lookAtTheWatch, fallUnderMySpell, deeplyGreater, deeplyLess]

/-- The spelling of a kind that is always spelled alike. Literals, identifiers and the end
of the text have none. -/
def spelling? : Kind → Option String
  | number | text | identifier | eof => none
  | trueWord => some "true"
  | falseWord => some "false"
  | focus => some "Focus"
  | relax => some "Relax"
  | entrance => some "entrance"
  | mindLink => some "mindLink"
  | induce => some "induce"
  | fromWord => some "from"
  | external => some "external"
  | suggestion => some "suggestion"
  | imperative => some "imperative"
  | dominant => some "dominant"
  | session => some "session"
  | constructor => some "constructor"
  | expose => some "expose"
  | conceal => some "conceal"
  | tranceify => some "tranceify"
  | ifWord => some "if"
  | elseWord => some "else"
  | whileWord => some "while"
  | loop => some "loop"
  | snap => some "snap"
  | sink => some "sink"
  | sinkTo => some "sinkTo"
  | label => some "label"
  | awaken => some "awaken"
  | observe => some "observe"
  | assert => some "assert"
  | youAreFeelingVerySleepy => some "youAreFeelingVerySleepy"
  | notSoDeep => some "notSoDeep"
  | lookAtTheWatch => some "lookAtTheWatch"
  | fallUnderMySpell => some "fallUnderMySpell"
  | deeplyGreater => some "deeplyGreater"
  | deeplyLess => some "deeplyLess"
  | plus => some "+"
  | minus => some "-"
  | star => some "*"
  | slash => some "/"
  | percent => some "%"
  | equal => some "=="
  | notEqual => some "!="
  | less => some "<"
  | lessEqual => some "<="
  | greater => some ">"
  | greaterEqual => some ">="
  | conj => some "&&"
  | disj => some "||"
  | bang => some "!"
  | assign => some "="
  | dot => some "."
  | colon => some ":"
  | comma => some ","
  | semicolon => some ";"
  | leftParen => some "("
  | rightParen => some ")"
  | leftBrace => some "\x7b"
  | rightBrace => some "\x7d"
  | leftBracket => some "["
  | rightBracket => some "]"

/-- The keyword that a word spells, if it spells one. -/
def keyword? (word : String) : Option Kind :=
  keywords.find? fun kind => kind.spelling? == some word

/-- How a message names a kind: a fixed spelling stands in quotes. -/
def describe (kind : Kind) : String :=
  match kind.spelling? with
  | some spelling => "'" ++ spelling ++ "'"
  | none =>
    match kind with
    | number => "number literal"
    | text => "string literal"
    | identifier => "identifier"
    | _ => "end of file"

end Kind

end Token

/-- A token of a text. The lexeme is the text of the token, except for a text literal, where
it is the contents between the quotes with escapes resolved. -/
structure Token where
  kind : Token.Kind
  lexeme : String
  location : Location
deriving DecidableEq, Repr, Inhabited

/-- How a message refers to a token: by its kind, and by its lexeme where the kind leaves
it open. -/
def Token.describe (token : Token) : String :=
  match token.kind with
  | .identifier => "identifier '" ++ token.lexeme ++ "'"
  | .number => "number literal " ++ token.lexeme
  | .text => "string literal \"" ++ token.lexeme ++ "\""
  | kind => kind.describe

end Trance
