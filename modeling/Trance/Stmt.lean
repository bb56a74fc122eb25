import Trance.Expr

/-!
# Statements and programs

The tree of a program. Declarations that hold statements take the type of statements as a
parameter, so that the tree is one nested inductive type and each declaration is still an
ordinary structure.
-/

namespace Trance

/-- Where the first value of a variable comes from. -/
inductive Start where
  | unset
  | value (expr : Expr)
  | external
deriving Inhabited

namespace Start

/-- The expression that gives the first value, if one does. -/
def expr? : Start → Option Expr
  | value e => some e
  | _ => none

/-- Whether the first value is asked for from outside. -/
def isExternal : Start → Bool
  | external => true
  | _ => false

end Start

/-- The declaration of a variable, of a field of a session, or of a field of a record type. -/
structure Variable where
  name : String
  typeName : Option String
  start : Start
  location : Location
deriving Inhabited

/-- A parameter of a suggestion. -/
structure Param where
  name : String
  typeName : Option String
deriving DecidableEq, Repr, Inhabited

/-- A suggestion over a type `σ` of statements. Its origin and its position tell it from every
other suggestion of a program and its linked files. -/
structure SuggestionOf (σ : Type) where
  name : String
  params : List Param
  returnType : Option String
  body : List σ
  imperative : Bool
  dominant : Bool
  location : Location
  origin : Origin
deriving Inhabited

/-- What a member of a session declares. -/
inductive MemberDeclOf (σ : Type) where
  | field (decl : Variable)
  | method (decl : SuggestionOf σ)
deriving Inhabited

/-- A member of a session. -/
structure MemberOf (σ : Type) where
  decl : MemberDeclOf σ
  exposed : Bool
  dominant : Bool
deriving Inhabited

/-- A session over a type `σ` of statements. -/
structure SessionOf (σ : Type) where
  name : String
  members : List (MemberOf σ)
  location : Location
deriving Inhabited

/-- The declaration of a record type. -/
structure Tranceify where
  name : String
  members : List Variable
  location : Location
deriving Inhabited

/-- Statements. -/
inductive Stmt where
  | induce (decl : Variable)
  | branch (cond : Expr) (yes : List Stmt) (no : Option (List Stmt)) (loc : Location)
  | whileLoop (cond : Expr) (body : List Stmt) (loc : Location)
  | loop (init : Option Stmt) (cond step : Option Expr) (body : List Stmt) (loc : Location)
  | suggestion (decl : SuggestionOf Stmt)
  | session (decl : SessionOf Stmt)
  | tranceify (decl : Tranceify)
  | observe (expr : Expr) (loc : Location)
  | awaken (expr : Option Expr) (loc : Location)
  | snap (loc : Location)
  | sink (loc : Location)
  | sinkTo (label : String) (loc : Location)
  | label (name : String) (loc : Location)
  | assert (cond : Expr) (message : Option String) (loc : Location)
  | entrance (body : List Stmt) (loc : Location)
  | mindLink (path : String) (loc : Location)
  | expr (expr : Expr) (loc : Location)
deriving Inhabited

abbrev Suggestion := SuggestionOf Stmt

/-- The declaration of a member of a session. -/
abbrev MemberDecl := MemberDeclOf Stmt

abbrev Member := MemberOf Stmt

abbrev Session := SessionOf Stmt

namespace MemberOf

variable {σ : Type}

def name (member : MemberOf σ) : String :=
  match member.decl with
  | .field decl => decl.name
  | .method decl => decl.name

/-- The position of the declaration of a member, behind its modifiers. -/
def location (member : MemberOf σ) : Location :=
  match member.decl with
  | .field decl => decl.location
  | .method decl => decl.location

end MemberOf

/-- The name of the suggestion that initializes a new session. -/
def constructorName : String := "constructor"

/-- The suggestion that initializes a new session: the first method that has its name. -/
def SessionOf.constructor? {σ : Type} (session : SessionOf σ) : Option (SuggestionOf σ) :=
  session.members.findSome? fun member =>
    match member.decl with
    | .method decl => if decl.name == constructorName then some decl else none
    | .field _ => none

namespace Stmt

/-- The position of a statement, which is that of its first token. -/
def location : Stmt → Location
  | induce decl => decl.location
  | suggestion decl => decl.location
  | session decl => decl.location
  | tranceify decl => decl.location
  | branch _ _ _ loc | whileLoop _ _ loc | loop _ _ _ _ loc | observe _ loc | awaken _ loc
  | snap loc | sink loc | sinkTo _ loc | label _ loc | assert _ _ loc | entrance _ loc
  | mindLink _ loc | expr _ loc => loc

def declaredName? : Stmt → Option String
  | induce decl => some decl.name
  | suggestion decl => some decl.name
  | session decl => some decl.name
  | tranceify decl => some decl.name
  | _ => none

end Stmt

/-- A program: the statements between its opening and its closing word. -/
structure Program where
  statements : List Stmt
deriving Inhabited

/-- The paths of the files that a program links, in order. -/
def Program.links (p : Program) : List String :=
  p.statements.filterMap fun
    | .mindLink path _ => some path
    | _ => none

end Trance
