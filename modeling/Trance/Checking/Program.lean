import Trance.Checking.Statement
import Trance.Parsing.Program

/-!
# Checking programs

A program is checked in the order in which it would run. First its declarations become known,
with those of the files it links; then come the entrance blocks, the other statements, and
last the bodies of suggestions and sessions. A linked file is checked as a program of its
own, once; what it reports is passed on, and what it declares is taken over where the name is
free.
-/

namespace Trance

namespace Check

/-! ## One program -/

def declareTypeName : Stmt → Check Unit
  | .session decl => declareSession decl
  | .tranceify decl => declareTranceify decl
  | _ => pure ()

def declareSuggestionName : Stmt → Check Unit
  | .suggestion decl => declareSuggestion decl
  | _ => pure ()

def followLink (link : Follower) : Stmt → Check Unit
  | .mindLink path loc => link path loc
  | _ => pure ()

def collectType : Stmt → Check Unit
  | .session decl => collectMembers decl
  | .tranceify decl => collectFields decl
  | _ => pure ()

/-- Make the declarations of a program known: the names of types, the suggestions, what is
linked, and then what the types consist of, so that types may refer to each other in any
order. -/
def collect (link : Follower) (body : List Stmt) : Check Unit := do
  body.forM declareTypeName
  body.forM declareSuggestionName
  body.forM (followLink link)
  body.forM collectType

def entrance (link : Follower) : Stmt → Check Unit
  | .entrance body _ => block link body
  | _ => pure ()

def defer (decl : Deferred) : Check Unit :=
  modify fun c => { c with deferred := c.deferred ++ [decl] }

def takeDeferred : Check (List Deferred) := do
  let later := (← get).deferred
  modify fun c => { c with deferred := [] }
  return later

/-- Check a statement of the main list. What has been checked before is passed over, and the
bodies of declarations are put off. -/
def mainStmt (link : Follower) : Stmt → Check Unit
  | .entrance .. | .mindLink .. => pure ()
  | .suggestion decl => defer (.suggestion decl)
  | .session decl => defer (.session decl)
  | .tranceify decl => defer (.tranceify decl)
  | other => stmt link other

/-- Check the body of a declaration that has been put off. -/
def deferredBody (link : Follower) : Deferred → Check Unit
  | .suggestion decl => suggestion link none decl
  | .session decl => session link decl
  | .tranceify decl => fieldStarts decl

def program (link : Follower) (p : Program) : Check Unit := do
  collect link p.statements
  p.statements.forM (entrance link)
  withLabels (labelsOf p.statements) (p.statements.forM (mainStmt link))
  let later ← takeDeferred
  later.forM (deferredBody link)

/-! ## Linked files -/

/-- Take over a symbol from a linked file, with what is known about it. If its name is taken
the symbol is skipped with a warning. -/
def merge (nested : Checker) (path : String) (loc : Location) (symbol : Symbol) : Check Unit := do
  match (← get).scopes.defineGlobal? symbol with
  | none => report (.linkCollision symbol.name path) loc
  | some scopes =>
    modify fun c => { c with scopes }
    match symbol.kind with
    | .session =>
      match nested.sessions.find? symbol.name with
      | some info => modify fun c => { c with sessions := c.sessions.insert symbol.name info }
      | none => pure ()
    | .record =>
      match nested.records.find? symbol.name with
      | some info => modify fun c => { c with records := c.records.insert symbol.name info }
      | none => pure ()
    | _ => pure ()

/-- Take over what the check of a linked file reported and declared, given the symbols in the
order in which they are taken over. Labels stay behind. -/
def mergeAll (nested : Checker) (symbols : List Symbol) (path : String) (loc : Location) :
    Check Unit := do
  modify fun c => { c with
    report := nested.report.all.foldl (fun report d => report.add (d.within path)) c.report
    linked := nested.linked }
  (symbols.filter (·.kind ≠ .label)).forM (merge nested path loc)

end Check

/-- What links are followed with: the files, and the order in which the symbols of a linked file
are taken over. The order decides only about the order of warnings. -/
structure Linker where
  files : Store
  arrange : FileKey → List Symbol → List Symbol

namespace Linker

/-- Take symbols over in the order of their declaration. -/
def ofFiles (files : Store) : Linker := ⟨files, fun _ symbols => symbols⟩

/-- Follow a link to a file unless it has been followed before. The bound is on the nesting of
links. -/
def link (linker : Linker) : Nat → String → Location → Check Unit
  | 0, _, _ => pure ()
  | bound + 1, path, loc => do
    let c ← get
    let target := Path.join c.baseDir path
    let key := linker.files.key target
    if c.linked.contains key then
      pure ()
    else
      modify fun c => { c with linked := key :: c.linked }
      match linker.files.read target with
      | .error e => Check.report (.unreadableLink path e) loc
      | .ok source =>
        match Program.ofText key.origin source with
        | .error e => Check.report (.unparsableLink path e) loc
        | .ok program =>
          let start := { Checker.new (Path.parent target) with linked := key :: c.linked }
          let nested := ((Check.program (linker.link bound) program).run start).2
          Check.mergeAll nested (linker.arrange key nested.scopes.globals) path loc

/-- A bound on the nesting of links that no chain of links exceeds: each link inside a linked file
comes after one more file has been read, and a file is read once. -/
def bound (linker : Linker) : Nat := linker.files.nodes.length + 1

/-- Check a program and the files that it links. -/
def check (linker : Linker) (program : Program) (c : Checker) : Checker :=
  ((Check.program (linker.link linker.bound) program).run c).2

end Linker

end Trance
