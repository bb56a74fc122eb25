import Trance.Text.Letter
import Trance.Text.Numeral
import Trance.Text.Blank
import Trance.Token

/-!
# From text to tokens

A text is cut into *pieces*, one after the other and without remainder. A piece is either
a gap — a blank, a comment, or a character that starts no token — or the text of one
token. Tokens are read off the pieces, and the position of a token is the position
behind everything that stands before it. Cutting never fails: a text literal or a block
comment that is not closed runs to the end.
-/

namespace Trance.Token

/-- A stretch of text. `content` is the kind and the lexeme of the token that it spells, or
nothing for a gap. -/
structure Piece where
  text : List Char
  content : Option (Kind × List Char)
deriving DecidableEq, Repr, Inhabited

namespace Piece

def gap (text : List Char) : Piece := ⟨text, none⟩

def plain (kind : Kind) (text : List Char) : Piece := ⟨text, some (kind, text)⟩

end Piece

/-! ## Comments -/

/-- The text of a block comment behind its opening: up to and with the closing mark, or to
the end. -/
def blockComment : List Char → List Char
  | [] => []
  | '*' :: '/' :: _ => ['*', '/']
  | c :: rest => c :: blockComment rest

/-- The text of a line comment: up to the line feed, which is not part of it. -/
def lineComment (text : List Char) : List Char :=
  text.takeWhile (· ≠ '\n')

/-! ## Literals and words -/

/-- What a backslash and the character behind it stand for. An unknown escape stands for
itself, backslash included. -/
def escape (c : Char) : List Char :=
  match c with
  | 'n' => ['\n']
  | 't' => ['\t']
  | 'r' => ['\r']
  | '"' => ['"']
  | '\\' => ['\\']
  | other => ['\\', other]

/-- A text literal behind its opening quote: its text, closing quote included, and its contents
with escapes resolved. It ends at the first quote that no backslash escapes, or with the
text. -/
def quoted : List Char → List Char × List Char
  | [] => ([], [])
  | '"' :: _ => (['"'], [])
  | ['\\'] => (['\\'], ['\\'])
  | '\\' :: c :: rest =>
    let (text, contents) := quoted rest
    ('\\' :: c :: text, escape c ++ contents)
  | c :: rest =>
    let (text, contents) := quoted rest
    (c :: text, c :: contents)

/-- The text of a number at the start of a text: digits, and one dot with the digits behind
it if a dot follows. -/
def numberText (text : List Char) : List Char :=
  let whole := text.takeWhile Text.isDigit
  match text.dropWhile Text.isDigit with
  | '.' :: rest => whole ++ '.' :: rest.takeWhile Text.isDigit
  | _ => whole

def startsWord (c : Char) : Bool :=
  Text.isLetter c || c = '_'

def continuesWord (c : Char) : Bool :=
  Text.isLetter c || Text.isNumeral c || c = '_'

/-- The token that a word spells: a keyword, or else an identifier. -/
def word (text : List Char) : Piece :=
  Piece.plain ((Kind.keyword? (String.ofList text)).getD .identifier) text

/-! ## Operators and punctuation -/

/-- The kind of a character that forms a token with or without an equals sign behind it,
first without and then with it. -/
def comparison? : Char → Option (Kind × Kind)
  | '=' => some (.assign, .equal)
  | '!' => some (.bang, .notEqual)
  | '<' => some (.less, .lessEqual)
  | '>' => some (.greater, .greaterEqual)
  | _ => none

/-- The kind of a character that forms a token only when it is doubled. -/
def doubled? : Char → Option Kind
  | '&' => some .conj
  | '|' => some .disj
  | _ => none

/-- The kind of a character that always forms a token of its own. -/
def single? : Char → Option Kind
  | '+' => some .plus
  | '-' => some .minus
  | '*' => some .star
  | '/' => some .slash
  | '%' => some .percent
  | '.' => some .dot
  | ':' => some .colon
  | ',' => some .comma
  | ';' => some .semicolon
  | '(' => some .leftParen
  | ')' => some .rightParen
  | '{' => some .leftBrace
  | '}' => some .rightBrace
  | '[' => some .leftBracket
  | ']' => some .rightBracket
  | _ => none

/-- The piece that starts with a character which is no blank, no quote, no digit and no
letter, and opens no comment. -/
def symbol (c : Char) (rest : List Char) : Piece :=
  match comparison? c with
  | some (alone, withEquals) =>
    if rest.head? = some '=' then Piece.plain withEquals [c, '='] else Piece.plain alone [c]
  | none =>
    match doubled? c with
    | some kind => if rest.head? = some c then Piece.plain kind [c, c] else Piece.gap [c]
    | none =>
      match single? c with
      | some kind => Piece.plain kind [c]
      | none => Piece.gap [c]

/-! ## Cutting a text -/

/-- The piece at the start of the text `c :: rest`. -/
def Piece.first (c : Char) (rest : List Char) : Piece :=
  if Text.isBlank c then
    gap [c]
  else if c = '/' && rest.head? = some '/' then
    gap (c :: lineComment rest)
  else if c = '/' && rest.head? = some '*' then
    gap (c :: '*' :: blockComment rest.tail)
  else if c = '"' then
    let (text, contents) := quoted rest
    ⟨c :: text, some (.text, contents)⟩
  else if Text.isDigit c then
    plain .number (numberText (c :: rest))
  else if startsWord c then
    word (c :: rest.takeWhile continuesWord)
  else
    symbol c rest

/-- All pieces of a text, from its start to its end. -/
def pieces : List Char → List Piece
  | [] => []
  | c :: rest =>
    let piece := Piece.first c rest
    piece :: pieces (rest.drop (piece.text.length - 1))
termination_by text => text.length
decreasing_by rw [List.length_drop, List.length_cons]; omega

/-- The tokens that pieces spell when the first of them stands at a position, closed by the
end marker behind the last of them. -/
def tokensFrom (loc : Location) : List Piece → List Token
  | [] => [⟨.eof, "", loc⟩]
  | piece :: rest =>
    let following := tokensFrom (loc.after piece.text) rest
    match piece.content with
    | some (kind, lexeme) => ⟨kind, String.ofList lexeme, loc⟩ :: following
    | none => following

/-- The tokens of a text. The last of them is the end marker, and no other is. -/
def lex (source : String) : List Token :=
  tokensFrom Location.start (pieces source.toList)

end Trance.Token
