import Trance.Stmt
import Trance.Proofs.Grammar.Phrase

/-!
# The grammar of statements and programs

Statements, declarations and programs, over the expressions of `Grammar.Phrase`. The parts of a
declaration that hold no statements have small families of their own; everything that can hold
a statement is one form of `Clause`.
-/

namespace Trance.Grammar

/-! ## Repetition -/

/-- A keyword that may be left out, with whether it is there. -/
inductive Optional (kind : Token.Kind) : List Token → Bool → List Token → Type where
  | absent {xs} : Optional kind xs false xs
  | present {t xs} (isKind : t.kind = kind) : Optional kind (t :: xs) true xs

/-- Any number of items one after the other. -/
inductive Series {α : Type} (item : List Token → α → List Token → Type) :
    List Token → List α → List Token → Type where
  | nil {xs} : Series item xs [] xs
  | cons {xs a ys as zs} (first : item xs a ys) (rest : Series item ys as zs) :
      Series item xs (a :: as) zs

/-- One or more items with commas between them. -/
inductive Listing {α : Type} (item : List Token → α → List Token → Type) :
    List Token → List α → List Token → Type where
  | last {xs a ys} (only : item xs a ys) : Listing item xs [a] ys
  | more {xs a comma ys as zs} (first : item xs a (comma :: ys)) (isComma : comma.kind = .comma)
      (rest : Listing item ys as zs) : Listing item xs (a :: as) zs

/-- An expression that may be left out. -/
inductive OptionalPhrase : List Token → Option Expr → List Token → Type where
  | absent {xs} : OptionalPhrase xs none xs
  | present {xs e ys} (expr : Phrase .expression xs e ys) : OptionalPhrase xs (some e) ys

/-! ## Declarations without statements -/

/-- type ::= nothing | ":" name -/
inductive TypeMark : List Token → Option String → List Token → Type where
  | absent {xs} : TypeMark xs none xs
  | present {colon name xs} (isColon : colon.kind = .colon) (isName : name.kind = .identifier) :
      TypeMark (colon :: name :: xs) (some name.lexeme) xs

/-- opening ::= nothing | "=" expression | "from" "external" -/
inductive Opening : List Token → Start → List Token → Type where
  | unset {xs} : Opening xs .unset xs
  | value {equals xs e ys} (isEquals : equals.kind = .assign) (expr : Phrase .expression xs e ys) :
      Opening (equals :: xs) (.value e) ys
  | external {origin word xs} (isFrom : origin.kind = .fromWord)
      (isExternal : word.kind = .external) : Opening (origin :: word :: xs) .external xs

/-- variable ::= "induce" name type opening ";" -/
inductive VariableDecl : List Token → Variable → List Token → Type where
  | mk {word name xs type ys start stop zs} (isInduce : word.kind = .induce)
      (isName : name.kind = .identifier) (typed : TypeMark xs type ys)
      (opening : Opening ys start (stop :: zs)) (isStop : stop.kind = .semicolon) :
      VariableDecl (word :: name :: xs) ⟨name.lexeme, type, start, word.location⟩ zs

/-- parameter ::= name type -/
inductive ParamDecl : List Token → Param → List Token → Type where
  | mk {name xs type ys} (isName : name.kind = .identifier) (typed : TypeMark xs type ys) :
      ParamDecl (name :: xs) ⟨name.lexeme, type⟩ ys

/-- parameters ::= "(" ")" | "(" parameter, ... ")" -/
inductive ParamList : List Token → List Param → List Token → Type where
  | none {l r xs} (opens : l.kind = .leftParen) (closes : r.kind = .rightParen) :
      ParamList (l :: r :: xs) [] xs
  | some {l xs params r ys} (opens : l.kind = .leftParen)
      (listing : Listing ParamDecl xs params (r :: ys)) (closes : r.kind = .rightParen) :
      ParamList (l :: xs) params ys

/-- The value that a field of a record type starts with: nothing | "=" expression -/
inductive FieldOpening : List Token → Start → List Token → Type where
  | unset {xs} : FieldOpening xs .unset xs
  | value {equals xs e ys} (isEquals : equals.kind = .assign) (expr : Phrase .expression xs e ys) :
      FieldOpening (equals :: xs) (.value e) ys

/-- field ::= name ":" name opening ";", perhaps with "induce" before it. Its position is that of
its first token. -/
inductive FieldDecl : List Token → Variable → List Token → Type where
  | mk {first xs induced name colon type ys start stop zs}
      (induce : Optional .induce (first :: xs) induced (name :: colon :: type :: ys))
      (isName : name.kind = .identifier) (isColon : colon.kind = .colon)
      (isType : type.kind = .identifier) (opening : FieldOpening ys start (stop :: zs))
      (isStop : stop.kind = .semicolon) :
      FieldDecl (first :: xs) ⟨name.lexeme, .some type.lexeme, start, first.location⟩ zs

/-- record type ::= "tranceify" name "{" field ... "}" -/
inductive TranceifyDecl : List Token → Tranceify → List Token → Type where
  | mk {word name l xs fields r ys} (isTranceify : word.kind = .tranceify)
      (isName : name.kind = .identifier) (opens : l.kind = .leftBrace)
      (members : Series FieldDecl xs fields (r :: ys)) (closes : r.kind = .rightBrace) :
      TranceifyDecl (word :: name :: l :: xs) ⟨name.lexeme, fields, word.location⟩ ys

/-- The name of a suggestion, which may be the word for a constructor. -/
inductive SuggestionName : List Token → String → List Token → Type where
  | named {t xs} (isName : t.kind = .identifier) : SuggestionName (t :: xs) t.lexeme xs
  | constructor {t xs} (isConstructor : t.kind = .constructor) :
      SuggestionName (t :: xs) constructorName xs

/-- Whether a member of a session is exposed, which it is unless it is marked otherwise. -/
inductive Visibility : List Token → Bool → List Token → Type where
  | unmarked {xs} : Visibility xs true xs
  | exposed {t xs} (isExpose : t.kind = .expose) : Visibility (t :: xs) true xs
  | concealed {t xs} (isConceal : t.kind = .conceal) : Visibility (t :: xs) false xs

/-- What a counted loop does first: ";" | variable | expression ";" -/
inductive LoopOpening : List Token → Option Stmt → List Token → Type where
  | none {stop xs} (isStop : stop.kind = .semicolon) : LoopOpening (stop :: xs) none xs
  | induce {xs v ys} (decl : VariableDecl xs v ys) : LoopOpening xs (some (.induce v)) ys
  | expr {first xs e stop ys} (expr : Phrase .expression (first :: xs) e (stop :: ys))
      (isStop : stop.kind = .semicolon) :
      LoopOpening (first :: xs) (some (.expr e first.location)) ys

/-- The message of an assertion, which may be left out. -/
inductive Message : List Token → Option String → List Token → Type where
  | absent {xs} : Message xs none xs
  | present {t xs} (isText : t.kind = .text) : Message (t :: xs) (some t.lexeme) xs

/-! ## Statements -/

/-- The forms of what can hold statements. A suggestion stands behind its modifiers, which its form
records with the position that it is known by; so does a member of a session, whose declaration
behind the modifiers is `declared`. -/
inductive Shape where
  | statement
  | statements
  | block
  | branch
  | alternative
  | suggestion (loc : Location) (imperative dominant : Bool)
  | declared (dominant : Bool)
  | member
  | members
deriving DecidableEq, Repr, Inhabited

@[reducible] def Shape.Tree : Shape → Type
  | statement | branch => Stmt
  | statements | block => List Stmt
  | alternative => Option (List Stmt)
  | suggestion .. => Suggestion
  | declared _ => MemberDecl
  | member => Member
  | members => List Member

/-- `Clause origin shape xs tree ys` derives a tree from the tokens of `xs` before `ys`, which come
from the text `origin`. -/
inductive Clause (origin : Origin) :
    (shape : Shape) → List Token → shape.Tree → List Token → Type where
  -- statements ::= nothing | statement statements
  | nil {xs} : Clause origin .statements xs [] xs
  | cons {xs s ys ss zs} (first : Clause origin .statement xs s ys)
      (rest : Clause origin .statements ys ss zs) : Clause origin .statements xs (s :: ss) zs
  -- block ::= "{" statements "}"
  | block {l xs body r ys} (opens : l.kind = .leftBrace)
      (statements : Clause origin .statements xs body (r :: ys)) (closes : r.kind = .rightBrace) :
      Clause origin .block (l :: xs) body ys
  -- branch ::= "if" "(" expression ")" block alternative
  | branch {word l xs cond r ys yes zs no ws} (isIf : word.kind = .ifWord)
      (opens : l.kind = .leftParen) (condition : Phrase .expression xs cond (r :: ys))
      (closes : r.kind = .rightParen) (then_ : Clause origin .block ys yes zs)
      (else_ : Clause origin .alternative zs no ws) :
      Clause origin .branch (word :: l :: xs) (.branch cond yes no word.location) ws
  -- alternative ::= nothing | "else" block | "else" branch
  | noElse {xs} : Clause origin .alternative xs none xs
  | elseBlock {word xs body ys} (isElse : word.kind = .elseWord)
      (block : Clause origin .block xs body ys) :
      Clause origin .alternative (word :: xs) (some body) ys
  | elseBranch {word xs s ys} (isElse : word.kind = .elseWord)
      (branch : Clause origin .branch xs s ys) :
      Clause origin .alternative (word :: xs) (some [s]) ys
  -- statement ::= variable | branch | "while" "(" expression ")" block
  --   | "loop" "(" opening condition ";" step ")" block
  | induce {xs v ys} (decl : VariableDecl xs v ys) : Clause origin .statement xs (.induce v) ys
  | branching {xs s ys} (branch : Clause origin .branch xs s ys) : Clause origin .statement xs s ys
  | whileLoop {word l xs cond r ys body zs} (isWhile : word.kind = .whileWord)
      (opens : l.kind = .leftParen) (condition : Phrase .expression xs cond (r :: ys))
      (closes : r.kind = .rightParen) (block : Clause origin .block ys body zs) :
      Clause origin .statement (word :: l :: xs) (.whileLoop cond body word.location) zs
  | loop {word l xs init ys cond stop zs step r ws body us} (isLoop : word.kind = .loop)
      (opens : l.kind = .leftParen) (opening : LoopOpening xs init ys)
      (condition : OptionalPhrase ys cond (stop :: zs)) (isStop : stop.kind = .semicolon)
      (stepping : OptionalPhrase zs step (r :: ws)) (closes : r.kind = .rightParen)
      (block : Clause origin .block ws body us) :
      Clause origin .statement (word :: l :: xs) (.loop init cond step body word.location) us
  -- statement ::= "suggestion" suggestion | "imperative" "suggestion" suggestion
  --   | "dominant" "suggestion" suggestion
  | suggestion {word xs decl ys} (isSuggestion : word.kind = .suggestion)
      (declared : Clause origin (.suggestion word.location false false) xs decl ys) :
      Clause origin .statement (word :: xs) (.suggestion decl) ys
  | imperative {mark word xs decl ys} (isImperative : mark.kind = .imperative)
      (isSuggestion : word.kind = .suggestion)
      (declared : Clause origin (.suggestion mark.location true false) xs decl ys) :
      Clause origin .statement (mark :: word :: xs) (.suggestion decl) ys
  | dominant {mark word xs decl ys} (isDominant : mark.kind = .dominant)
      (isSuggestion : word.kind = .suggestion)
      (declared : Clause origin (.suggestion mark.location false true) xs decl ys) :
      Clause origin .statement (mark :: word :: xs) (.suggestion decl) ys
  -- statement ::= "session" name "{" members "}" | record type
  | session {word name l xs ms r ys} (isSession : word.kind = .session)
      (isName : name.kind = .identifier) (opens : l.kind = .leftBrace)
      (body : Clause origin .members xs ms (r :: ys)) (closes : r.kind = .rightBrace) :
      Clause origin .statement (word :: name :: l :: xs)
        (.session ⟨name.lexeme, ms, word.location⟩) ys
  | tranceify {xs decl ys} (declared : TranceifyDecl xs decl ys) :
      Clause origin .statement xs (.tranceify decl) ys
  -- statement ::= "observe" expression ";" | "awaken" ";" | "awaken" expression ";" | "snap" ";"
  --   | "sink" ";" | "sinkTo" name ";" | "label" name ";" | "assert" expression message ";"
  --   | expression ";"
  | observe {word xs e stop ys} (isObserve : word.kind = .observe)
      (expr : Phrase .expression xs e (stop :: ys)) (isStop : stop.kind = .semicolon) :
      Clause origin .statement (word :: xs) (.observe e word.location) ys
  | awaken {word xs e stop ys} (isAwaken : word.kind = .awaken)
      (value : OptionalPhrase xs e (stop :: ys)) (isStop : stop.kind = .semicolon) :
      Clause origin .statement (word :: xs) (.awaken e word.location) ys
  | snap {word stop ys} (isSnap : word.kind = .snap) (isStop : stop.kind = .semicolon) :
      Clause origin .statement (word :: stop :: ys) (.snap word.location) ys
  | sink {word stop ys} (isSink : word.kind = .sink) (isStop : stop.kind = .semicolon) :
      Clause origin .statement (word :: stop :: ys) (.sink word.location) ys
  | sinkTo {word name stop ys} (isSinkTo : word.kind = .sinkTo) (isName : name.kind = .identifier)
      (isStop : stop.kind = .semicolon) :
      Clause origin .statement (word :: name :: stop :: ys) (.sinkTo name.lexeme word.location) ys
  | label {word name stop ys} (isLabel : word.kind = .label) (isName : name.kind = .identifier)
      (isStop : stop.kind = .semicolon) :
      Clause origin .statement (word :: name :: stop :: ys) (.label name.lexeme word.location) ys
  | assert {word xs cond ys message stop zs} (isAssert : word.kind = .assert)
      (condition : Phrase .expression xs cond ys) (stated : Message ys message (stop :: zs))
      (isStop : stop.kind = .semicolon) :
      Clause origin .statement (word :: xs) (.assert cond message word.location) zs
  | expr {first xs e stop ys} (expr : Phrase .expression (first :: xs) e (stop :: ys))
      (isStop : stop.kind = .semicolon) :
      Clause origin .statement (first :: xs) (.expr e first.location) ys
  -- suggestion ::= name parameters type block
  | signature {loc imperative dominant xs name ys params zs type ws body us}
      (named : SuggestionName xs name ys) (parameters : ParamList ys params zs)
      (typed : TypeMark zs type ws) (block : Clause origin .block ws body us) :
      Clause origin (.suggestion loc imperative dominant) xs
        ⟨name, params, type, body, imperative, dominant, loc, origin⟩ us
  -- declared ::= variable | "suggestion" suggestion | "imperative" "suggestion" suggestion
  --   | a suggestion whose name is the word for a constructor, which is never dominant
  | field {dominant xs v ys} (decl : VariableDecl xs v ys) :
      Clause origin (.declared dominant) xs (.field v) ys
  | method {dominant word xs decl ys} (isSuggestion : word.kind = .suggestion)
      (declared : Clause origin (.suggestion word.location false dominant) xs decl ys) :
      Clause origin (.declared dominant) (word :: xs) (.method decl) ys
  | imperativeMethod {dominant mark word xs decl ys} (isImperative : mark.kind = .imperative)
      (isSuggestion : word.kind = .suggestion)
      (declared : Clause origin (.suggestion mark.location true dominant) xs decl ys) :
      Clause origin (.declared dominant) (mark :: word :: xs) (.method decl) ys
  | constructor {dominant word xs decl ys} (isConstructor : word.kind = .constructor)
      (declared : Clause origin (.suggestion word.location false false) (word :: xs) decl ys) :
      Clause origin (.declared dominant) (word :: xs) (.method decl) ys
  -- member ::= visibility declared | visibility "dominant" declared
  | member {xs exposed ys dominant zs decl ws} (visibility : Visibility xs exposed ys)
      (dominance : Optional .dominant ys dominant zs)
      (declared : Clause origin (.declared dominant) zs decl ws) :
      Clause origin .member xs ⟨decl, exposed, dominant⟩ ws
  -- members ::= nothing | member members
  | noMembers {xs} : Clause origin .members xs [] xs
  | moreMembers {xs m ys ms zs} (first : Clause origin .member xs m ys)
      (rest : Clause origin .members ys ms zs) : Clause origin .members xs (m :: ms) zs

/-! ## Programs -/

/-- top ::= "entrance" block | "mindLink" text ";" | statement -/
inductive Top (origin : Origin) : List Token → Stmt → List Token → Type where
  | entrance {word xs body ys} (isEntrance : word.kind = .entrance)
      (block : Clause origin .block xs body ys) :
      Top origin (word :: xs) (.entrance body word.location) ys
  | mindLink {word path stop xs} (isMindLink : word.kind = .mindLink) (isPath : path.kind = .text)
      (isStop : stop.kind = .semicolon) :
      Top origin (word :: path :: stop :: xs) (.mindLink path.lexeme word.location) xs
  | statement {xs s ys} (statement : Clause origin .statement xs s ys) : Top origin xs s ys

/-- program ::= "Focus" top ... "Relax" | "Focus" "{" top ... "}" "Relax", perhaps with ";" at the
end. A derivation of a program takes all tokens. -/
inductive Sentence (origin : Origin) : List Token → Program → Type where
  | bare {focus xs body relax ys stopped} (isFocus : focus.kind = .focus)
      (tops : Series (Top origin) xs body (relax :: ys)) (isRelax : relax.kind = .relax)
      (stop : Optional .semicolon ys stopped []) : Sentence origin (focus :: xs) ⟨body⟩
  | braced {focus l xs body r relax ys stopped} (isFocus : focus.kind = .focus)
      (opens : l.kind = .leftBrace) (tops : Series (Top origin) xs body (r :: relax :: ys))
      (closes : r.kind = .rightBrace) (isRelax : relax.kind = .relax)
      (stop : Optional .semicolon ys stopped []) : Sentence origin (focus :: l :: xs) ⟨body⟩

end Trance.Grammar
