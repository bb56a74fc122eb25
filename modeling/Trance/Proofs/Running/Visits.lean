import Mathlib.Logic.Relation
import Trance.Running.Engine

/-!
# What a run comes to

A run is busy with many things, one inside the other: a program with its entrance blocks, a block
with its statements, a statement with its expressions, an expression with its calls, a call with the
body of a suggestion. Each of them is a task. A visit is a task that is started on a machine; a
visit starts other visits, each on the machine that what came before has left. -/

namespace Trance

open Exec

/-! ## Tasks -/

/-- What a run can be busy with. Lists and loops have a bound on the rounds that are left. -/
inductive Task where
  -- expressions: one, several in order, a place, and one that sees only global names
  | eval (expr : Expr)
  | values (exprs : List Expr)
  | place (loc : Location) (target : Expr)
  | detached (expr : Expr)
  -- records: a record with some fields given, the rest of its fields, and what a type starts with
  | record (typeName : String) (given : List (String × Expr)) (loc : Location)
  | fields (given : List (String × Expr)) (rest : List Variable)
  | default (typeName : Option String) (loc : Location)
  -- sessions: the rest of the members of an object, and a new session
  | statics (object : Instance) (rest : List Member)
  | members (loc : Location) (object : Instance) (rest : List Member)
  | instantiate (name : String) (args : List Value) (loc : Location)
  -- calls, and what is done in the frame of a call
  | call (decl : Suggestion) (args : List Value) (receiver : Option SessionRef) (loc : Location)
  | body (decl : Suggestion) (args : List Value) (receiver : Option SessionRef)
  -- statements: one, declarations, a block, the rest of a list, and the rounds of a loop
  | exec (stmt : Stmt)
  | declare (stmt : Stmt)
  | induce (decl : Variable)
  | block (body : List Stmt)
  | list (all rest : List Stmt) (left : Nat)
  | rounds (cond step : Option Expr) (body : List Stmt) (left : Nat)
  -- links, and the rest of the statements of a linked file
  | link (path : String) (loc : Location)
  | merge (rest : List Stmt)
  -- a program, and the rest of each of its phases
  | program (p : Program)
  | hoist (rest : List Stmt)
  | follow (rest : List Stmt)
  | entrances (rest : List Stmt)
  | main (all rest : List Stmt) (left : Nat)

/-- What a task results in. -/
def Task.Result : Task → Type
  | eval _ | detached _ | record .. | default .. | instantiate .. | call .. => Value
  | values _ => List Value
  | place .. => Place
  | fields .. => List (String × Value)
  | statics .. | members .. => Instance
  | body .. | exec _ | block _ | list .. | rounds .. | entrances _ | main .. => Flow
  | declare _ | induce _ | link .. | merge _ | program _ | hoist _ | follow _ => Unit

/-- What the interpreter does for a task. -/
def Task.step (cfg : Settings) (n : Nat) : (task : Task) → Exec task.Result
  | eval expr => Exec.eval cfg n expr
  | values exprs => exprs.mapM (Exec.eval cfg n)
  | place loc target => Exec.place (Exec.eval cfg n) loc target
  | detached expr => evalDetached (Exec.eval cfg n) expr
  | record typeName given loc => buildRecord (Exec.eval cfg n) typeName given loc
  | fields given rest => rest.mapM (recordField (Exec.eval cfg n) given)
  | default typeName loc => defaultValue (Exec.eval cfg n) typeName loc
  | statics object rest => rest.foldlM (addStatic (Exec.eval cfg n)) object
  | members loc object rest => rest.foldlM (addMember (Exec.eval cfg n) loc) object
  | instantiate name args loc =>
    Exec.instantiate cfg.maxDepth (Exec.eval cfg n) (Exec.call cfg n) name args loc
  | call decl args receiver loc => Exec.call cfg n decl args receiver loc
  | body decl args receiver => do
    bindThis receiver
    bindParams decl.location (decl.params.zip args)
    Exec.sequence (Exec.exec cfg n) decl.body n decl.body
  | exec stmt => Exec.exec cfg n stmt
  | declare stmt => Exec.declare (Exec.eval cfg n) stmt
  | induce decl => Exec.induce (Exec.eval cfg n) decl
  | block stmts => Exec.block (Exec.exec cfg n) n stmts
  | list all rest left => Exec.sequence (Exec.exec cfg n) all left rest
  | rounds cond next stmts left =>
    iterate (holds (Exec.eval cfg n) cond) (Exec.block (Exec.exec cfg n) n stmts)
      (perform (Exec.eval cfg n) next) left
  | link path loc => Exec.link cfg n path loc
  | merge rest => rest.forM (mergeStmt (Exec.eval cfg n) (Exec.link cfg n))
  | program p => Exec.program cfg n p
  | hoist rest => rest.forM (Exec.declare (Exec.eval cfg n))
  | follow rest => rest.forM (followLink (Exec.link cfg n))
  | entrances rest => Exec.entrances (Exec.exec cfg n) n rest
  | main all rest left => Exec.sequence (mainStmt (Exec.exec cfg n)) all left rest

/-! ## Visits -/

/-- A task that is started, with the bound on its nesting and the machine that it is started on. -/
structure Visit where
  bound : Nat
  task : Task
  machine : Machine

namespace Machine

def push (kind : Frame.Kind) (m : Machine) : Machine := { m with scopes := m.scopes.enter kind }

def pop (m : Machine) : Machine := { m with scopes := m.scopes.exit }

def deepen (m : Machine) : Machine := { m with depth := m.depth + 1 }

def rise (m : Machine) : Machine := { m with depth := m.depth - 1 }

def moved (dir : String) (m : Machine) : Machine := { m with baseDir := dir }

end Machine

/-- Whether an expression that is called is evaluated first. Names and members are looked up. -/
def Expr.calledByValue : Expr → Bool
  | .name .. | .field .. => false
  | _ => true

/-- Whether a statement declares a suggestion, a session or a record type. -/
def Stmt.isDeclaration : Stmt → Bool
  | .suggestion _ | .session _ | .tranceify _ => true
  | _ => false

section

variable (cfg : Settings)

open Exec in
/-- `Starts v w`: while `v` is busy with its task it starts `w`. What has to be done before is done
with the outcome that leads to `w`. -/
inductive Visit.Starts : Visit → Visit → Prop where
  -- operators; the second operand of a logical operator only if it decides
  | first {n op l r loc m} : Starts ⟨n + 1, .eval (.binary op l r loc), m⟩ ⟨n, .eval l, m⟩
  | second {n op l r loc m v m₁} (done : eval cfg n l m = .done v m₁)
      (conj : op = .conj → v.truthy = true) (disj : op = .disj → v.truthy = false) :
      Starts ⟨n + 1, .eval (.binary op l r loc), m⟩ ⟨n, .eval r, m₁⟩
  | operand {n op e loc m} : Starts ⟨n + 1, .eval (.unary op e loc), m⟩ ⟨n, .eval e, m⟩
  -- the call of a member
  | receiver {n object member at' args loc m} :
      Starts ⟨n + 1, .eval (.call (.field object member at') args loc), m⟩ ⟨n, .eval object, m⟩
  | memberArgs {n object member at' args loc m target m₁ method m₂}
      (done : eval cfg n object m = .done target m₁)
      (found : memberValue target member object.isThis loc m₁ = .done method m₂) :
      Starts ⟨n + 1, .eval (.call (.field object member at') args loc), m⟩ ⟨n, .values args, m₂⟩
  | methodCall {n object member at' args loc m ref m₁ decl m₂ values m₃ own m₄}
      (done : eval cfg n object m = .done (.session ref) m₁)
      (found : memberValue (.session ref) member object.isThis loc m₁ = .done (.suggestion decl) m₂)
      (given : args.mapM (eval cfg n) m₂ = .done values m₃)
      (chosen : receiver ref decl m₃ = .done own m₄) :
      Starts ⟨n + 1, .eval (.call (.field object member at') args loc), m⟩
        ⟨n, .call decl values (some own) loc, m₄⟩
  | fieldCall {n object member at' args loc m target m₁ decl m₂ values m₃}
      (done : eval cfg n object m = .done target m₁) (plain : ∀ ref, target ≠ .session ref)
      (found : memberValue target member object.isThis loc m₁ = .done (.suggestion decl) m₂)
      (given : args.mapM (eval cfg n) m₂ = .done values m₃) :
      Starts ⟨n + 1, .eval (.call (.field object member at') args loc), m⟩
        ⟨n, .call decl values none loc, m₃⟩
  -- the call of a name: a built-in, a suggestion, or a session
  | builtinArgs {n name at' args loc m} (free : m.scopes.resolve? name = none) :
      Starts ⟨n + 1, .eval (.call (.name name at') args loc), m⟩ ⟨n, .values args, m⟩
  | nameArgs {n name at' args loc m symbol decl} (found : m.scopes.resolve? name = some symbol)
      (value : symbol.value = some (.suggestion decl)) :
      Starts ⟨n + 1, .eval (.call (.name name at') args loc), m⟩ ⟨n, .values args, m⟩
  | nameCall {n name at' args loc m symbol decl values m₁}
      (found : m.scopes.resolve? name = some symbol) (value : symbol.value = some (.suggestion decl))
      (given : args.mapM (eval cfg n) m = .done values m₁) :
      Starts ⟨n + 1, .eval (.call (.name name at') args loc), m⟩ ⟨n, .call decl values none loc, m₁⟩
  | sessionArgs {n name at' args loc m symbol} (found : m.scopes.resolve? name = some symbol)
      (kind : symbol.kind = .session) :
      Starts ⟨n + 1, .eval (.call (.name name at') args loc), m⟩ ⟨n, .values args, m⟩
  | sessionCall {n name at' args loc m symbol values m₁}
      (found : m.scopes.resolve? name = some symbol) (kind : symbol.kind = .session)
      (value : ∀ decl, symbol.value ≠ some (.suggestion decl))
      (given : args.mapM (eval cfg n) m = .done values m₁) :
      Starts ⟨n + 1, .eval (.call (.name name at') args loc), m⟩
        ⟨n, .instantiate name values loc, m₁⟩
  -- the call of any other value
  | callee {n callee args loc m} (other : callee.calledByValue = true) :
      Starts ⟨n + 1, .eval (.call callee args loc), m⟩ ⟨n, .eval callee, m⟩
  | valueArgs {n callee args loc m decl m₁} (other : callee.calledByValue = true)
      (done : eval cfg n callee m = .done (.suggestion decl) m₁) :
      Starts ⟨n + 1, .eval (.call callee args loc), m⟩ ⟨n, .values args, m₁⟩
  | valueCall {n callee args loc m decl m₁ values m₂} (other : callee.calledByValue = true)
      (done : eval cfg n callee m = .done (.suggestion decl) m₁)
      (given : args.mapM (eval cfg n) m₁ = .done values m₂) :
      Starts ⟨n + 1, .eval (.call callee args loc), m⟩ ⟨n, .call decl values none loc, m₂⟩
  -- the other expressions
  | object {n object member loc m} :
      Starts ⟨n + 1, .eval (.field object member loc), m⟩ ⟨n, .eval object, m⟩
  | indexed {n object index loc m} :
      Starts ⟨n + 1, .eval (.index object index loc), m⟩ ⟨n, .eval object, m⟩
  | index {n object index loc m v m₁} (done : eval cfg n object m = .done v m₁) :
      Starts ⟨n + 1, .eval (.index object index loc), m⟩ ⟨n, .eval index, m₁⟩
  | assigned {n target e loc m} : Starts ⟨n + 1, .eval (.assign target e loc), m⟩ ⟨n, .eval e, m⟩
  | target {n target e loc m v m₁} (done : eval cfg n e m = .done v m₁) :
      Starts ⟨n + 1, .eval (.assign target e loc), m⟩ ⟨n, .place loc target, m₁⟩
  | literal {n typeName given loc m} :
      Starts ⟨n + 1, .eval (.record typeName given loc), m⟩ ⟨n, .record typeName given loc, m⟩
  | items {n items loc m} : Starts ⟨n + 1, .eval (.array items loc), m⟩ ⟨n, .values items, m⟩
  -- several expressions in order
  | value {n e rest m} : Starts ⟨n, .values (e :: rest), m⟩ ⟨n, .eval e, m⟩
  | moreValues {n e rest m v m₁} (done : eval cfg n e m = .done v m₁) :
      Starts ⟨n, .values (e :: rest), m⟩ ⟨n, .values rest, m₁⟩
  -- places; the object of a field is evaluated, and is a place itself if it is no session
  | placeObject {n loc object member at' m} :
      Starts ⟨n, .place loc (.field object member at'), m⟩ ⟨n, .eval object, m⟩
  | placeInside {n loc object member at' m v m₁} (done : eval cfg n object m = .done v m₁)
      (plain : ∀ ref, v ≠ .session ref) :
      Starts ⟨n, .place loc (.field object member at'), m⟩ ⟨n, .place loc object, m₁⟩
  | placeIndex {n loc object index at' m} :
      Starts ⟨n, .place loc (.index object index at'), m⟩ ⟨n, .eval index, m⟩
  | placeIndexed {n loc object index at' m v m₁} (done : eval cfg n index m = .done v m₁) :
      Starts ⟨n, .place loc (.index object index at'), m⟩ ⟨n, .place loc object, m₁⟩
  | detached {n e m} : Starts ⟨n, .detached e, m⟩ ⟨n, .eval e, m.push .call⟩
  -- records
  | recordFields {n typeName given loc m decl} (found : m.records.find? typeName = some decl)
      (fit : (given.find? fun (name, _) => !decl.members.any (·.name == name)) = none) :
      Starts ⟨n, .record typeName given loc, m⟩ ⟨n, .fields given decl.members, m⟩
  | fieldGiven {n given member rest m e} (found : Table.find? given member.name = some e) :
      Starts ⟨n, .fields given (member :: rest), m⟩ ⟨n, .eval e, m⟩
  | fieldStart {n given member rest m init} (missing : Table.find? given member.name = none)
      (start : member.start = .value init) :
      Starts ⟨n, .fields given (member :: rest), m⟩ ⟨n, .detached init, m⟩
  | moreFields {n given member rest m field m₁}
      (done : recordField (eval cfg n) given member m = .done field m₁) :
      Starts ⟨n, .fields given (member :: rest), m⟩ ⟨n, .fields given rest, m₁⟩
  | defaultRecord {n name loc m} (known : m.records.has name = true) :
      Starts ⟨n, .default (some name) loc, m⟩ ⟨n, .record name [] loc, m⟩
  -- sessions
  | staticStart {n object member rest m field init} (decl : member.decl = .field field)
      (start : field.start = .value init) :
      Starts ⟨n, .statics object (member :: rest), m⟩ ⟨n, .detached init, m⟩
  | moreStatics {n object member rest m object' m₁}
      (done : addStatic (eval cfg n) object member m = .done object' m₁) :
      Starts ⟨n, .statics object (member :: rest), m⟩ ⟨n, .statics object' rest, m₁⟩
  | memberStart {n loc object member rest m field init} (decl : member.decl = .field field)
      (start : field.start = .value init) :
      Starts ⟨n, .members loc object (member :: rest), m⟩ ⟨n, .detached init, m⟩
  | memberDefault {n loc object member rest m field} (decl : member.decl = .field field)
      (start : ∀ init, field.start ≠ .value init) :
      Starts ⟨n, .members loc object (member :: rest), m⟩ ⟨n, .default field.typeName loc, m⟩
  | moreMembers {n loc object member rest m object' m₁}
      (done : addMember (eval cfg n) loc object member m = .done object' m₁) :
      Starts ⟨n, .members loc object (member :: rest), m⟩ ⟨n, .members loc object' rest, m₁⟩
  | build {n name args loc m decl m₁} (found : m.sessions.find? name = some decl)
      (allowed : requireDepth cfg.maxDepth loc m = .done () m₁) :
      Starts ⟨n, .instantiate name args loc, m⟩
        ⟨n, .members loc (.empty decl.name) (decl.members.filter (!·.dominant)), m₁.deepen⟩
  | construct {n name args loc m decl m₁ object m₂ ref m₃ init}
      (found : m.sessions.find? name = some decl)
      (allowed : requireDepth cfg.maxDepth loc m = .done () m₁)
      (built : deeper (buildInstance (eval cfg n) decl loc) m₁ = .done object m₂)
      (known : allocate object m₂ = .done ref m₃) (constructor : decl.constructor? = some init) :
      Starts ⟨n, .instantiate name args loc, m⟩ ⟨n, .call init args (some ref) loc, m₃⟩
  -- calls
  | called {n decl args receiver loc m m₁} (count : args.length = decl.params.length)
      (allowed : requireDepth cfg.maxDepth loc m = .done () m₁) :
      Starts ⟨n + 1, .call decl args receiver loc, m⟩
        ⟨n, .body decl args receiver, m₁.deepen.push .call⟩
  | bodyList {n decl args receiver m m₁ m₂} (this : bindThis receiver m = .done () m₁)
      (params : bindParams decl.location (decl.params.zip args) m₁ = .done () m₂) :
      Starts ⟨n, .body decl args receiver, m⟩ ⟨n, .list decl.body decl.body n, m₂⟩
  -- statements
  | induced {n decl m} : Starts ⟨n + 1, .exec (.induce decl), m⟩ ⟨n, .induce decl, m⟩
  | cond {n e yes no loc m} : Starts ⟨n + 1, .exec (.branch e yes no loc), m⟩ ⟨n, .eval e, m⟩
  | yes {n e yes no loc m v m₁} (done : eval cfg n e m = .done v m₁) (holds : v.truthy = true) :
      Starts ⟨n + 1, .exec (.branch e yes no loc), m⟩ ⟨n, .block yes, m₁⟩
  | no {n e yes no loc m v m₁} (done : eval cfg n e m = .done v m₁) (fails : v.truthy = false) :
      Starts ⟨n + 1, .exec (.branch e yes (some no) loc), m⟩ ⟨n, .block no, m₁⟩
  | whileLoop {n e body loc m} :
      Starts ⟨n + 1, .exec (.whileLoop e body loc), m⟩ ⟨n, .rounds (some e) none body n, m⟩
  | loop {n cond step body loc m} : Starts ⟨n + 1, .exec (.loop none cond step body loc), m⟩
        ⟨n, .rounds cond step body n, m.push .block⟩
  | loopStart {n init cond step body loc m} :
      Starts ⟨n + 1, .exec (.loop (some init) cond step body loc), m⟩ ⟨n, .exec init, m.push .block⟩
  | loopStarted {n init cond step body loc m m₁}
      (done : exec cfg n init (m.push .block) = .done .normal m₁) :
      Starts ⟨n + 1, .exec (.loop (some init) cond step body loc), m⟩
        ⟨n, .rounds cond step body n, m₁⟩
  | declared {n s m} (decl : s.isDeclaration = true) : Starts ⟨n + 1, .exec s, m⟩ ⟨n, .declare s, m⟩
  | observed {n e loc m} : Starts ⟨n + 1, .exec (.observe e loc), m⟩ ⟨n, .eval e, m⟩
  | awakened {n e loc m} : Starts ⟨n + 1, .exec (.awaken (some e) loc), m⟩ ⟨n, .eval e, m⟩
  | asserted {n e message loc m} : Starts ⟨n + 1, .exec (.assert e message loc), m⟩ ⟨n, .eval e, m⟩
  | performed {n e loc m} : Starts ⟨n + 1, .exec (.expr e loc), m⟩ ⟨n, .eval e, m⟩
  | entrance {n body loc m} : Starts ⟨n + 1, .exec (.entrance body loc), m⟩ ⟨n, .block body, m⟩
  | linked {n path loc m} : Starts ⟨n + 1, .exec (.mindLink path loc), m⟩ ⟨n, .link path loc, m⟩
  -- declarations
  | staticMembers {n decl m} : Starts ⟨n, .declare (.session decl), m⟩
        ⟨n, .statics (.empty decl.name) (decl.members.filter (·.dominant)), m⟩
  | induceValue {n decl m init} (start : decl.start = .value init) :
      Starts ⟨n, .induce decl, m⟩ ⟨n, .eval init, m⟩
  | induceDefault {n decl m} (start : decl.start = .unset) :
      Starts ⟨n, .induce decl, m⟩ ⟨n, .default decl.typeName decl.location, m⟩
  -- a block is a list in a frame of its own
  | block {n body m} : Starts ⟨n, .block body, m⟩ ⟨n, .list body body n, m.push .block⟩
  | head {n all s rest k m} : Starts ⟨n, .list all (s :: rest) (k + 1), m⟩ ⟨n, .exec s, m⟩
  | next {n all s rest k m m₁} (done : exec cfg n s m = .done .normal m₁) :
      Starts ⟨n, .list all (s :: rest) (k + 1), m⟩ ⟨n, .list all rest k, m₁⟩
  | jumped {n all s rest k m label loc m₁ behind}
      (done : exec cfg n s m = .done (.jump label loc) m₁)
      (found : Stmt.afterLabel? label all = some behind) :
      Starts ⟨n, .list all (s :: rest) (k + 1), m⟩ ⟨n, .list all behind k, m₁⟩
  -- loops
  | roundCond {n e step body k m} : Starts ⟨n, .rounds (some e) step body (k + 1), m⟩ ⟨n, .eval e, m⟩
  | roundBody {n cond step body k m m₁} (held : holds (eval cfg n) cond m = .done true m₁) :
      Starts ⟨n, .rounds cond step body (k + 1), m⟩ ⟨n, .block body, m₁⟩
  | roundStep {n cond e body k m m₁ flow m₂} (held : holds (eval cfg n) cond m = .done true m₁)
      (done : Exec.block (exec cfg n) n body m₁ = .done flow m₂)
      (goesOn : flow = .normal ∨ ∃ loc, flow = .sink loc) :
      Starts ⟨n, .rounds cond (some e) body (k + 1), m⟩ ⟨n, .eval e, m₂⟩
  | again {n cond step body k m m₁ flow m₂ m₃} (held : holds (eval cfg n) cond m = .done true m₁)
      (done : Exec.block (exec cfg n) n body m₁ = .done flow m₂)
      (goesOn : flow = .normal ∨ ∃ loc, flow = .sink loc)
      (stepped : perform (eval cfg n) step m₂ = .done () m₃) :
      Starts ⟨n, .rounds cond step body (k + 1), m⟩ ⟨n, .rounds cond step body k, m₃⟩
  -- links
  | linkedFile {n path loc m source p}
      (new : m.linked.contains (cfg.files.key (Path.join m.baseDir path)) = false)
      (read : cfg.files.read (Path.join m.baseDir path) = .ok source)
      (parsed : Program.ofText (cfg.files.key (Path.join m.baseDir path)).origin source = .ok p) :
      Starts ⟨n + 1, .link path loc, m⟩ ⟨n, .merge p.statements,
          { m with linked := cfg.files.key (Path.join m.baseDir path) :: m.linked }.moved
            (Path.parent (Path.join m.baseDir path))⟩
  | mergeLink {n path loc rest m} :
      Starts ⟨n, .merge (.mindLink path loc :: rest), m⟩ ⟨n, .link path loc, m⟩
  | mergeVariable {n decl rest m} (free : m.scopes.globals.has decl.name = false) :
      Starts ⟨n, .merge (.induce decl :: rest), m⟩ ⟨n, .induce decl, m⟩
  | mergeDeclaration {n s rest m} (decl : s.isDeclaration = true)
      (free : (s.declaredName?.map m.scopes.globals.has).getD false = false) :
      Starts ⟨n, .merge (s :: rest), m⟩ ⟨n, .declare s, m⟩
  | moreMerged {n s rest m m₁} (done : mergeStmt (eval cfg n) (link cfg n) s m = .done () m₁) :
      Starts ⟨n, .merge (s :: rest), m⟩ ⟨n, .merge rest, m₁⟩
  -- the phases of a program
  | hoisting {n p m} : Starts ⟨n, .program p, m⟩ ⟨n, .hoist p.statements, m⟩
  | following {n p m m₁} (hoisted : p.statements.forM (declare (eval cfg n)) m = .done () m₁) :
      Starts ⟨n, .program p, m⟩ ⟨n, .follow p.statements, m₁⟩
  | entering {n p m m₁ m₂} (hoisted : p.statements.forM (declare (eval cfg n)) m = .done () m₁)
      (followed : p.statements.forM (followLink (link cfg n)) m₁ = .done () m₂) :
      Starts ⟨n, .program p, m⟩ ⟨n, .entrances p.statements, m₂⟩
  | starting {n p m m₁ m₂ flow m₃} (hoisted : p.statements.forM (declare (eval cfg n)) m =
      .done () m₁)
      (followed : p.statements.forM (followLink (link cfg n)) m₁ = .done () m₂)
      (entered : entrances (exec cfg n) n p.statements m₂ = .done flow m₃)
      (goesOn : ∀ value, flow ≠ .awaken value) :
      Starts ⟨n, .program p, m⟩ ⟨n, .main p.statements p.statements n, m₃⟩
  | hoisted {n s rest m} : Starts ⟨n, .hoist (s :: rest), m⟩ ⟨n, .declare s, m⟩
  | moreHoisted {n s rest m m₁} (done : declare (eval cfg n) s m = .done () m₁) :
      Starts ⟨n, .hoist (s :: rest), m⟩ ⟨n, .hoist rest, m₁⟩
  | followed {n path loc rest m} :
      Starts ⟨n, .follow (.mindLink path loc :: rest), m⟩ ⟨n, .link path loc, m⟩
  | moreFollowed {n s rest m m₁} (done : followLink (link cfg n) s m = .done () m₁) :
      Starts ⟨n, .follow (s :: rest), m⟩ ⟨n, .follow rest, m₁⟩
  | entered {n body loc rest m} :
      Starts ⟨n, .entrances (.entrance body loc :: rest), m⟩ ⟨n, .block body, m⟩
  | moreEntered {n body loc rest m m₁} (done : Exec.block (exec cfg n) n body m = .done .normal m₁) :
      Starts ⟨n, .entrances (.entrance body loc :: rest), m⟩ ⟨n, .entrances rest, m₁⟩
  | passed {n s rest m} (other : ∀ body loc, s ≠ .entrance body loc) :
      Starts ⟨n, .entrances (s :: rest), m⟩ ⟨n, .entrances rest, m⟩
  | mainHead {n all s rest k m} (here : s.isHoisted = false) :
      Starts ⟨n, .main all (s :: rest) (k + 1), m⟩ ⟨n, .exec s, m⟩
  | mainNext {n all s rest k m m₁} (done : mainStmt (exec cfg n) s m = .done .normal m₁) :
      Starts ⟨n, .main all (s :: rest) (k + 1), m⟩ ⟨n, .main all rest k, m₁⟩
  | mainJumped {n all s rest k m label loc m₁ behind}
      (done : mainStmt (exec cfg n) s m = .done (.jump label loc) m₁)
      (found : Stmt.afterLabel? label all = some behind) :
      Starts ⟨n, .main all (s :: rest) (k + 1), m⟩ ⟨n, .main all behind k, m₁⟩

/-- `Reaches v w`: on the way of `v` the visit `w` is started, by `v` or by what has been started
before. -/
abbrev Visit.Reaches : Visit → Visit → Prop := Relation.ReflTransGen (Visit.Starts cfg)

end

end Trance
