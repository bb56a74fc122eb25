import Trance.Checking.Declaration

/-!
# Checking statements

Blocks have frames of their own. The context keeps count of the loops around a statement and
of the labels that a jump from it can reach; both start anew inside a suggestion.

Links occur only at the top level of a program, where they are handled before anything else;
the step that follows a link is a parameter here.
-/

namespace Trance.Check

/-- The labels that stand directly in a list of statements. -/
def labelsOf (body : List Stmt) : List String :=
  body.filterMap fun
    | .label name _ => some name
    | _ => none

/-! ## Single statements -/

/-- Check a condition. It should be of boolean type, and anything else is only warned of. -/
def condition (cond : Expr) (word : String) : Check Unit := do
  let type ← infer cond
  reportIf (!type.isBoolean && type ≠ .unknown) (.conditionType word type) cond.location

/-- Check the value that a suggestion awakens with. -/
def awakenValue (enclosing : Enclosing) (actual : Option Ty) (loc : Location) : Check Unit :=
  match actual with
  | some actual =>
    if enclosing.imperative then
      report (.imperativeValue enclosing.name) loc
    else if enclosing.returnType = .void then
      report (.voidValue enclosing.name actual) loc
    else
      reportIf (!enclosing.returnType.compatible actual)
        (.returnMismatch enclosing.name enclosing.returnType actual) loc
  | none =>
    match enclosing.returnType with
    | .void | .any | .unknown => pure ()
    | expected => report (.missingValue enclosing.name expected) loc

/-- Check an `awaken`. Outside of suggestions it ends the program and takes any value. -/
def awaken (value : Option Expr) (loc : Location) : Check Unit := do
  let actual ←
    match value with
    | some value => do pure (some (← infer value))
    | none => pure none
  match (← get).context.enclosing with
  | some enclosing => awakenValue enclosing actual loc
  | none => pure ()

def insideLoop (word : String) (loc : Location) : Check Unit := do
  reportIf ((← get).context.loops = 0) (.jumpOutsideLoop word) loc

def jump (label : String) (loc : Location) : Check Unit := do
  reportIf (!(← get).context.labels.any (·.contains label)) (.unknownLabel label) loc

/-- Count one more loop, do a step, and count one loop less. -/
def inLoop (step : Check Unit) : Check Unit :=
  inContext (fun context => { context with loops := context.loops + 1 })
    (fun _ context => { context with loops := context.loops - 1 }) step

/-- Put labels on the stack, do a step, and take the topmost labels off the stack. -/
def withLabels (labels : List String) (step : Check Unit) : Check Unit :=
  inContext (fun context => { context with labels := labels :: context.labels })
    (fun _ context => { context with labels := context.labels.tail }) step

/-- Check the statements of a block by a given step, in a frame of its own. -/
def inBlock (body : List Stmt) (step : Check Unit) : Check Unit :=
  inFrame .block (withLabels (labelsOf body) step)

/-! ## Statements

In this section `link` follows a link. -/

mutual

def stmt (link : Follower) : Stmt → Check Unit
  | .induce decl => induce decl
  | .branch cond yes no _ => do
    condition cond "if"
    inBlock yes (stmts link yes)
    match no with
    | some no => inBlock no (stmts link no)
    | none => pure ()
  | .whileLoop cond body _ => do
    condition cond "while"
    inLoop (inBlock body (stmts link body))
  | .loop init cond step body _ =>
    inFrame .block do
      match init with
      | some init => stmt link init
      | none => pure ()
      match cond with
      | some cond => condition cond "loop"
      | none => pure ()
      match step with
      | some step => let _ ← infer step
      | none => pure ()
      inLoop (inBlock body (stmts link body))
  | .suggestion decl => do
    declareSuggestion decl
    suggestion link none decl
  | .session decl => do
    declareSession decl
    collectMembers decl
    session link decl
  | .tranceify decl => do
    declareTranceify decl
    collectFields decl
    fieldStarts decl
  | .observe expr _ | .expr expr _ => do let _ ← infer expr
  | .awaken value loc => awaken value loc
  | .snap loc => insideLoop "snap" loc
  | .sink loc => insideLoop "sink" loc
  | .sinkTo label loc => jump label loc
  | .label name loc => defineOr { name, kind := .label } (.redeclaredLabel name) loc
  | .assert cond _ _ => condition cond "assert"
  | .entrance body _ => inBlock body (stmts link body)
  | .mindLink path loc => link path loc
termination_by structural stmt => stmt

def stmts (link : Follower) : List Stmt → Check Unit
  | [] => pure ()
  | first :: rest => do
    stmt link first
    stmts link rest
termination_by structural body => body

/-- Check a suggestion, which is a method if it has an owner. -/
def suggestion (link : Follower) (owner : Option String) :
    Suggestion → Check Unit
  | decl@⟨_, _, _, body, _, _, _, _⟩ =>
    inSuggestion decl owner (withLabels (labelsOf body) (stmts link body))
termination_by structural decl => decl

/-- Check what the members of a session start with and do. -/
def session (link : Follower) : Session → Check Unit
  | ⟨name, all, _⟩ => members link name all
termination_by structural decl => decl

def members (link : Follower) (owner : String) : List Member → Check Unit
  | [] => pure ()
  | first :: rest => do
    member link owner first
    members link owner rest
termination_by structural all => all

def member (link : Follower) (owner : String) : Member → Check Unit
  | ⟨decl, _, _⟩ => memberDecl link owner decl
termination_by structural decl => decl

/-- Check what a member of a session declares. -/
def memberDecl (link : Follower) (owner : String) : MemberDecl → Check Unit
  | .field field => fieldStart owner field
  | .method decl => suggestion link (some owner) decl
termination_by structural decl => decl

end

/-- Check a block: its statements in a frame of its own. -/
def block (link : Follower) (body : List Stmt) : Check Unit :=
  inBlock body (stmts link body)

end Trance.Check
