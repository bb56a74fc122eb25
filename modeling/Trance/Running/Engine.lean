import Trance.Parsing.Program
import Trance.Running.Call

/-!
# Running programs

Expressions, statements, calls and links refer to each other. Each of them is given as one step
over all of them, and the steps are tied together by a bound on their nesting. A run that
needs more than the bound is cut short, which is no outcome of the language.
-/

namespace Trance

namespace Exec

/-! ## One step -/

def nameValue (name : String) (loc : Location) : Exec Value := do
  match ← resolve? name with
  | none => fail (.undefinedVariable name) loc
  | some symbol =>
    match symbol.value, symbol.kind with
    | some value, _ => return value
    | none, .record => fail (.notAValue name) loc
    | none, _ => return .null

/-- The value of an expression, given how expressions are evaluated and suggestions called. The
second operand of a logical operator is evaluated only if it decides. -/
def evalStep (limit : Nat) (eval : Expr → Exec Value) (call : Caller) : Expr → Exec Value
  | .number n _ => return .number n
  | .text s _ => return .text s
  | .boolean b _ => return .boolean b
  | .name name loc => nameValue name loc
  | .binary .conj left right _ => do
    if (← eval left).truthy then return .boolean (← eval right).truthy else return .boolean false
  | .binary .disj left right _ => do
    if (← eval left).truthy then return .boolean true else return .boolean (← eval right).truthy
  | .binary op left right loc => do
    let l ← eval left
    let r ← eval right
    ofExcept (op.apply l r loc)
  | .unary op operand loc => do
    let value ← eval operand
    ofExcept (op.apply value loc)
  | .call callee args loc => callExpr limit eval call callee args loc
  | .field object member loc => do
    let target ← eval object
    memberValue target member object.isThis loc
  | .index object index loc => do
    let target ← eval object
    let selected ← eval index
    ofExcept (target.at? selected loc)
  | .assign target value loc => do
    let value ← eval value
    assign eval target value loc
    return value
  | .record typeName fields loc => buildRecord eval typeName fields loc
  | .array items _ => do return .array (← items.mapM eval)

/-- Whether a condition holds; no condition always does. -/
def holds (eval : Expr → Exec Value) : Option Expr → Exec Bool
  | some cond => do return (← eval cond).truthy
  | none => return true

/-- Evaluate an expression for its effect, if there is one. -/
def perform (eval : Expr → Exec Value) : Option Expr → Exec Unit
  | some expr => do let _ ← eval expr
  | none => pure ()

/-- Note an assertion unless its condition holds. -/
def checkAssertion (holds : Bool) (message : Option String) (loc : Location) : Exec Unit :=
  if holds then pure ()
  else
    let failure := ⟨message.getD AssertionFailure.defaultMessage, loc⟩
    update fun m => { m with failures := m.failures ++ [failure] }

/-- Run a statement, given how expressions are evaluated, statements run and links followed. -/
def execStep (bound : Nat) (eval : Expr → Exec Value) (exec : Stmt → Exec Flow)
    (link : String → Location → Exec Unit) : Stmt → Exec Flow
  | .induce decl => do
    induce eval decl
    return .normal
  | .branch cond yes no _ => do
    if (← eval cond).truthy then
      block exec bound yes
    else
      match no with
      | some no => block exec bound no
      | none => return .normal
  | .whileLoop cond body _ =>
    iterate (holds eval (some cond)) (block exec bound body) (pure ()) bound
  | .loop init cond step body _ =>
    inFrame .block do
      let first ←
        match init with
        | some init => exec init
        | none => pure .normal
      match first with
      | .normal => iterate (holds eval cond) (block exec bound body) (perform eval step) bound
      | flow => return flow
  | decl@(.suggestion _) | decl@(.session _) | decl@(.tranceify _) => do
    declare eval decl
    return .normal
  | .observe expr _ => do
    let value ← eval expr
    writeLine value.toText
    return .normal
  | .awaken none _ => return .awaken .null
  | .awaken (some expr) _ => do return .awaken (← eval expr)
  | .snap loc => makeJump (.snap loc) loc
  | .sink loc => makeJump (.sink loc) loc
  | .sinkTo label loc => makeJump (.jump label loc) loc
  | .label .. => return .normal
  | .assert cond message loc => do
    checkAssertion (← eval cond).truthy message loc
    return .normal
  | .entrance body _ => block exec bound body
  | .mindLink path loc => do
    link path loc
    return .normal
  | .expr expr _ => do
    let _ ← eval expr
    return .normal

/-! ## Links -/

/-- Take over a statement of a linked file. Only declarations and links have an effect, and only
declarations of names that are still free. -/
def mergeStmt (eval : Expr → Exec Value) (link : String → Location → Exec Unit) (stmt : Stmt) :
    Exec Unit := do
  let globals := (← machine).scopes.globals
  if (stmt.declaredName?.map globals.has).getD false then
    pure ()
  else
    match stmt with
    | .mindLink path loc => link path loc
    | .induce decl => induce eval decl
    | other => declare eval other

/-- Follow a link to a file unless it has been followed before: take over its statements in order,
with the directory of the file as base directory. -/
def linkStep (files : Store) (eval : Expr → Exec Value) (link : String → Location → Exec Unit)
    (path : String) (loc : Location) : Exec Unit := do
  let m ← machine
  let target := Path.join m.baseDir path
  let key := files.key target
  if m.linked.contains key then
    pure ()
  else
    update fun m => { m with linked := key :: m.linked }
    match files.read target with
    | .error e => fail (.linkFailure path e.message) loc
    | .ok source =>
      match Program.ofText key.origin source with
      | .error e => fail (.linkFailure path e.message) loc
      | .ok program =>
        inDirectory (Path.parent target) (program.statements.forM (mergeStmt eval link))

/-! ## The steps tied together -/

mutual

def eval (cfg : Settings) : Nat → Expr → Exec Value
  | 0, _ => exhausted
  | bound + 1, expr =>
    evalStep cfg.maxDepth (eval cfg bound) (call cfg bound) expr

def exec (cfg : Settings) : Nat → Stmt → Exec Flow
  | 0, _ => exhausted
  | bound + 1, stmt =>
    execStep bound (eval cfg bound) (exec cfg bound) (link cfg bound) stmt

def call (cfg : Settings) : Nat → Caller
  | 0, _, _, _, _ => exhausted
  | bound + 1, decl, args, receiver, loc =>
    callBody cfg.maxDepth (exec cfg bound) bound decl args receiver loc

def link (cfg : Settings) : Nat → String → Location → Exec Unit
  | 0, _, _ => exhausted
  | bound + 1, path, loc =>
    linkStep cfg.files (eval cfg bound) (link cfg bound) path loc

end

/-! ## Programs -/

def followLink (link : String → Location → Exec Unit) : Stmt → Exec Unit
  | .mindLink path loc => link path loc
  | _ => pure ()

/-- Run the entrance blocks. The first that awakens ends the program. -/
def entrances (exec : Stmt → Exec Flow) (bound : Nat) : List Stmt → Exec Flow
  | [] => return .normal
  | .entrance body _ :: rest => do
    match ← block exec bound body with
    | .awaken value => return .awaken value
    | flow => do
      rejectEscape flow
      entrances exec bound rest
  | _ :: rest => entrances exec bound rest

/-- Run a statement of the main list, unless it has had its effect before. -/
def mainStmt (exec : Stmt → Exec Flow) (stmt : Stmt) : Exec Flow :=
  if stmt.isHoisted then return .normal else exec stmt

/-- Run a program, given how expressions are evaluated, statements run and links followed:
declarations, links, entrance blocks, and then the main list. -/
def programStep (bound : Nat) (eval : Expr → Exec Value) (exec : Stmt → Exec Flow)
    (link : String → Location → Exec Unit) (p : Program) : Exec Unit := do
  p.statements.forM (declare eval)
  p.statements.forM (followLink link)
  match ← entrances exec bound p.statements with
  | .awaken _ => pure ()
  | _ => do
    let flow ← sequence (mainStmt exec) p.statements bound p.statements
    rejectEscape flow

def program (cfg : Settings) (bound : Nat) (p : Program) : Exec Unit :=
  programStep bound (eval cfg bound) (exec cfg bound) (link cfg bound) p

end Exec

def Program.ampleBound : Nat := Nat.pow 2 62

/-- Run a program on a machine, which starts afresh but for what the outside has seen. -/
def Program.run (cfg : Settings) (bound : Nat) (p : Program) (m : Machine) : Outcome Unit :=
  Exec.program cfg bound p m.reset

end Trance
