import Mathlib.Logic.Relation
import Trance.Proofs.Typing.Sound

/-!
# The points of a run

A check and a run walk over the same program, each with scopes of its own. A moment is a place in
the program together with the state in which the check comes to it and a state in which the run
comes to it. The check comes to a place once, the run perhaps many times, or never.

From a moment the walks go on to other moments: to a part of what is to be done, or to what comes
after it. The moments that can be reached from the start of a program are the points of its run. -/

namespace Trance

open Check

/-! ## Points -/

/-- What is to be done: an expression evaluated, a statement run, the statements of a block, the
rest of a list, the rounds of a loop, the rest of the entrance blocks, or the rest of the main list.
Lists and loops have a bound on the rounds that are left. Or something has just been done. -/
inductive Point where
  | expr (expr : Expr)
  | stmt (stmt : Stmt)
  | block (body : List Stmt)
  | list (rest : List Stmt) (left : Nat)
  | rounds (loop : Loop) (left : Nat)
  | entrances (rest : List Stmt)
  | main (rest : List Stmt) (left : Nat)
  | ended
deriving Inhabited

/-- A point, with the bound on the nesting of the run, and the states of the check and of the run.
-/
structure Moment where
  bound : Nat
  point : Point
  checker : Checker
  machine : Machine
deriving Inhabited

/-- The expression that a statement evaluates first, if it is not repeated. -/
def Stmt.subject? : Stmt → Option Expr
  | .induce decl => decl.start.expr?
  | .branch cond .. | .observe cond _ | .expr cond _ | .assert cond .. => some cond
  | .awaken value _ => value
  | _ => none

/-- Whether the second operand of an operator is evaluated, by the value of the first. -/
def BinaryOp.needsSecond (op : BinaryOp) (first : Value) : Bool :=
  match op with
  | conj => first.truthy
  | disj => !first.truthy
  | _ => true

/-- Whether a loop goes on behind a round that ends in this way. -/
def Flow.goesOn : Flow → Bool
  | normal | sink _ => true
  | _ => false

/-! ## The two walks -/

def Checker.Passes {α : Type} (c : Checker) (step : Check α) :
    Prop := (c.after step).report.errors = []

def Machine.enter (m : Machine) : Machine := { m with scopes := m.scopes.enter .block }

def Point.check (link : Follower) (p : Program) : Point → Check Unit
  | expr e => do let _ ← infer e
  | stmt s => Check.stmt link s
  | block body => Check.block link body
  | list rest _ => stmts link rest
  | rounds loop _ => loop.check link
  | entrances rest => do
    rest.forM (entrance link)
    withLabels (labelsOf p.statements) (p.statements.forM (mainStmt link))
  | main rest _ => rest.forM (mainStmt link)
  | ended => pure ()

instance (link : Follower) [∀ path loc, Growing (link path loc)] (p : Program)
    (point : Point) : Growing (point.check link p) := by
  cases point <;> unfold Point.check <;> infer_instance

section

variable (cfg : Settings) (link : Follower) (p : Program)

/-- What comes before the entrance blocks of a program: declarations and links. -/
def Exec.declarations (bound : Nat) : Exec Unit := do
  p.statements.forM (declare (eval cfg bound))
  p.statements.forM (followLink (Exec.link cfg bound))

open Exec in
/-- `Next a b`: both walks go on from `a` to `b`. -/
inductive Moment.Next : Moment → Moment → Prop where
  -- the parts of an expression, in order
  | first {n op l r loc c m} : Next ⟨n + 1, .expr (.binary op l r loc), c, m⟩ ⟨n, .expr l, c, m⟩
  | second {n op l r loc c m v m₁} (first : eval cfg n l m = .done v m₁)
      (needed : op.needsSecond v = true) :
      Next ⟨n + 1, .expr (.binary op l r loc), c, m⟩ ⟨n, .expr r, c.after (infer l), m₁⟩
  | operand {n op e loc c m} : Next ⟨n + 1, .expr (.unary op e loc), c, m⟩ ⟨n, .expr e, c, m⟩
  | assigned {n target e loc c m} :
      Next ⟨n + 1, .expr (.assign target e loc), c, m⟩ ⟨n, .expr e, c, m⟩
  | evaluated {n e c m v m₁} (done : eval cfg n e m = .done v m₁) :
      Next ⟨n, .expr e, c, m⟩ ⟨n, .ended, c.after (infer e), m₁⟩
  -- the parts of a statement
  | subject {n s e c m} (first : s.subject? = some e) :
      Next ⟨n + 1, .stmt s, c, m⟩ ⟨n, .expr e, c, m⟩
  | yes {n cond yes no loc c m v m₁} (done : eval cfg n cond m = .done v m₁)
      (holds : v.truthy = true) :
      Next ⟨n + 1, .stmt (.branch cond yes no loc), c, m⟩
        ⟨n, .block yes, c.after (condition cond "if"), m₁⟩
  | no {n cond yes no loc c m v m₁} (done : eval cfg n cond m = .done v m₁)
      (fails : v.truthy = false) : Next ⟨n + 1, .stmt (.branch cond yes (some no) loc), c, m⟩
        ⟨n, .block no, (c.after (condition cond "if")).after (Check.block link yes), m₁⟩
  | whileLoop {n cond body loc c m} : Next ⟨n + 1, .stmt (.whileLoop cond body loc), c, m⟩
        ⟨n, .rounds ⟨"while", some cond, none, body⟩ n, c, m⟩
  | loop {n cond step body loc c m} : Next ⟨n + 1, .stmt (.loop none cond step body loc), c, m⟩
        ⟨n, .rounds ⟨"loop", cond, step, body⟩ n, c.enter, m.enter⟩
  | loopStart {n init cond step body loc c m} :
      Next ⟨n + 1, .stmt (.loop (some init) cond step body loc), c, m⟩
        ⟨n, .stmt init, c.enter, m.enter⟩
  | loopStarted {n init cond step body loc c m m₁}
      (started : exec cfg n init m.enter = .done .normal m₁) :
      Next ⟨n + 1, .stmt (.loop (some init) cond step body loc), c, m⟩
        ⟨n, .rounds ⟨"loop", cond, step, body⟩ n, c.enter.after (stmt link init), m₁⟩
  | entranceBlock {n body loc c m} :
      Next ⟨n + 1, .stmt (.entrance body loc), c, m⟩ ⟨n, .block body, c, m⟩
  | executed {n s c m flow m₁} (done : exec cfg n s m = .done flow m₁) :
      Next ⟨n, .stmt s, c, m⟩ ⟨n, .ended, c.after (stmt link s), m₁⟩
  -- a block is a list in a frame of its own
  | block {n body c m} : Next ⟨n, .block body, c, m⟩
        ⟨n, .list body n, c.enter.withLabels (labelsOf body), m.enter⟩
  | closed {n body c m flow m₁} (done : block (exec cfg n) n body m = .done flow m₁) :
      Next ⟨n, .block body, c, m⟩ ⟨n, .ended, c.after (Check.block link body), m₁⟩
  | head {n s rest k c m} : Next ⟨n, .list (s :: rest) (k + 1), c, m⟩ ⟨n, .stmt s, c, m⟩
  | tail {n s rest k c m m₁} (done : exec cfg n s m = .done .normal m₁) :
      Next ⟨n, .list (s :: rest) (k + 1), c, m⟩ ⟨n, .list rest k, c.after (stmt link s), m₁⟩
  -- every round of a loop is checked in the same state
  | roundCond {n loop k cond c m} (first : loop.cond = some cond) :
      Next ⟨n, .rounds loop (k + 1), c, m⟩ ⟨n, .expr cond, c, m⟩
  | roundBody {n loop k c m m₁} (done : holds (eval cfg n) loop.cond m = .done true m₁) :
      Next ⟨n, .rounds loop (k + 1), c, m⟩
        ⟨n, .block loop.body, ((c.after loop.checkCond).after loop.checkStep).inLoop, m₁⟩
  | roundStep {n loop k step c m m₁ flow m₂} (done : holds (eval cfg n) loop.cond m = .done true m₁)
      (round : block (exec cfg n) n loop.body m₁ = .done flow m₂) (goesOn : flow.goesOn = true)
      (first : loop.step = some step) :
      Next ⟨n, .rounds loop (k + 1), c, m⟩ ⟨n, .expr step, c.after loop.checkCond, m₂⟩
  | again {n loop k c m m₁ flow m₂ m₃} (done : holds (eval cfg n) loop.cond m = .done true m₁)
      (round : block (exec cfg n) n loop.body m₁ = .done flow m₂) (goesOn : flow.goesOn = true)
      (stepped : perform (eval cfg n) loop.step m₂ = .done () m₃) :
      Next ⟨n, .rounds loop (k + 1), c, m⟩ ⟨n, .rounds loop k, c, m₃⟩
  -- the entrance blocks, and then the main list
  | enters {n body loc rest c m} :
      Next ⟨n, .entrances (.entrance body loc :: rest), c, m⟩ ⟨n, .block body, c, m⟩
  | entered {n body loc rest c m m₁} (done : block (exec cfg n) n body m = .done .normal m₁) :
      Next ⟨n, .entrances (.entrance body loc :: rest), c, m⟩
        ⟨n, .entrances rest, c.after (Check.block link body), m₁⟩
  | passes {n s rest c m} (other : s.isEntrance = false) :
      Next ⟨n, .entrances (s :: rest), c, m⟩ ⟨n, .entrances rest, c, m⟩
  | allEntered {n c m} : Next ⟨n, .entrances [], c, m⟩
        ⟨n, .main p.statements n, c.withLabels (labelsOf p.statements), m⟩
  | mainHead {n s rest k c m} (here : s.isHoisted = false) :
      Next ⟨n, .main (s :: rest) (k + 1), c, m⟩ ⟨n, .stmt s, c, m⟩
  | mainTail {n s rest k c m m₁} (done : mainStmt (exec cfg n) s m = .done .normal m₁) :
      Next ⟨n, .main (s :: rest) (k + 1), c, m⟩ ⟨n, .main rest k, c.after (mainStmt link s), m₁⟩

/-- The points of a run: the moments that are reached once the declarations are known and the links
followed. -/
def Program.Reaches (bound : Nat) (c : Checker) (m : Machine) (moment : Moment) : Prop :=
  ∃ m₁, Exec.declarations cfg p bound m.reset = .done () m₁ ∧
    Relation.ReflTransGen (Moment.Next cfg link p)
      ⟨bound, .entrances p.statements, c.after (collect link p.statements), m₁⟩ moment

end

/-! ## What the check knows -/

/-- The check knows the variables of a run: they have the same names in the same frames, and hold
values of their types. -/
structure Checker.Knows (c : Checker) (m : Machine) : Prop where
  onlyVariables : c.scopes.OnlyVariables
  hold : ∃ kinds, Scopes.Hold kinds c.scopes m.scopes

namespace Checker.Knows

variable {c c' : Checker} {m : Machine}

theorem of_scopes (h : c.Knows m) (hscopes : c'.scopes = c.scopes) : c'.Knows m :=
  ⟨hscopes ▸ h.onlyVariables, hscopes ▸ h.hold⟩

theorem enter (h : c.Knows m) : c.enter.Knows m.enter := by
  obtain ⟨kinds, hhold⟩ := h.hold
  exact ⟨h.onlyVariables.enter, .block :: kinds, hhold.enter .nil .block⟩

theorem visible (h : c.Knows m) (name : String) :
    (m.scopes.resolve? name).isSome = (c.scopes.resolve? name).isSome ∧
    ∀ symbol, c.scopes.resolve? name = some symbol → ∃ (t : Ty) (value : Value),
    symbol.typeName = some t.name ∧ (m.scopes.resolve? name).bind Symbol.value = some value ∧
    t.Has value := by
  obtain ⟨kinds, hhold⟩ := h.hold
  obtain ⟨ha, hb⟩ | ⟨static, dynamic, ha, hb, hholds⟩ :=
    relates_or_none (hhold.resolve? name) <;> rw [ha, hb]
  · exact ⟨rfl, fun _ h => nomatch h⟩
  · refine ⟨rfl, ?_⟩
    rintro _ ⟨⟩
    obtain ⟨t, value, ht, hvalue, hhas⟩ := hholds.typed
    exact ⟨t, value, ht.typeName, hvalue, hhas⟩

end Checker.Knows

variable {α : Type} {m : Machine} {c : Checker}

theorem Outcome.Fits.done_iff {kinds : List Frame.Kind} {Q : α → Scopes → Prop} {a : α} :
    Fits kinds Q (.done a m) ↔ ∃ Γ, Q a Γ ∧ Scopes.Hold kinds Γ m.scopes :=
  ⟨fun | .done result scopes => ⟨_, result, scopes⟩, fun ⟨_, result, scopes⟩ => .done result scopes⟩

theorem Checker.Knows.step {x : Exec α} {c' : Checker} {m' : Machine} {a : α}
    {Q : α → Scopes → Prop} (h : c.Knows m) (hx : Exec.Yields c.scopes x Q)
    (hrun : x m = .done a m') (hscopes : ∀ Γ, Q a Γ → Γ = c'.scopes)
    (hvariables : c'.scopes.OnlyVariables) : c'.Knows m' := by
  obtain ⟨kinds, hhold⟩ := h.hold
  obtain ⟨Γ, hQ, hhold'⟩ := Outcome.Fits.done_iff.1 (hrun ▸ hx kinds m hhold)
  exact ⟨hvariables, kinds, hscopes Γ hQ ▸ hhold'⟩

section

variable {cfg : Settings} {link : Follower} [∀ path loc, Growing (link path loc)]
  {c : Checker} {m m₁ : Machine} {n : Nat} (h : c.Knows m)

include h

theorem Checker.Knows.infer {e : Expr} (hcore : e.isCore = true) (hpasses : c.Passes (infer e)) :
    (∃ t, e.HasType c.scopes t) ∧ (c.after (infer e)).scopes = c.scopes :=
  have ⟨htype, hscopes⟩ := accepts_infer h.onlyVariables e hcore c rfl rfl hpasses
  ⟨⟨_, htype⟩, hscopes⟩

theorem Checker.Knows.eval {e : Expr} {v : Value} (hcore : e.isCore = true)
    (hpasses : c.Passes (Check.infer e)) (hrun : Exec.eval cfg n e m = .done v m₁) :
    c.Knows m₁ := by
  obtain ⟨⟨t, ht⟩, -⟩ := h.infer hcore hpasses
  exact h.step (Exec.yields_eval cfg n ht) hrun (fun _ hQ => hQ.2) h.onlyVariables

theorem Checker.Knows.checkCond {cond : Expr} {word : String} (hcore : cond.isCore = true)
    (hpasses : c.Passes (condition cond word)) :
    (c.after (condition cond word)).scopes = c.scopes :=
  (accepts_condition h.onlyVariables hcore word c rfl rfl hpasses).2

theorem Checker.Knows.exec {s : Stmt} {flow : Flow} (hcore : s.isCore = true)
    (hpasses : c.Passes (stmt link s))
    (hrun : Exec.exec cfg n s m = .done flow m₁) : (c.after (stmt link s)).Knows m₁ := by
  have htyped := accepts_stmt link s h.onlyVariables hcore c rfl rfl hpasses
  exact h.step (Exec.yields_exec cfg n htyped) hrun (fun _ hQ => hQ.2)
    (htyped.onlyVariables h.onlyVariables)

theorem Checker.Knows.checkBlock {body : List Stmt} (hcore : listIsCore body = true)
    (hpasses : c.Passes (block link body)) :
    (∃ inner, ListTyped (decide (c.context.loops ≠ 0)) (c.scopes.enter .block) body inner) ∧
      (c.after (block link body)).scopes = c.scopes :=
  accepts_block (accepts_stmts link body h.onlyVariables.enter hcore) c rfl rfl hpasses

theorem Checker.Knows.block {body : List Stmt} {flow : Flow} (hcore : listIsCore body = true)
    (hpasses : c.Passes (block link body))
    (hrun : Exec.block (Exec.exec cfg n) n body m = .done flow m₁) : c.Knows m₁ := by
  obtain ⟨⟨inner, htyped⟩, -⟩ := h.checkBlock hcore hpasses
  exact h.step (Exec.yields_block (Exec.yields_exec cfg n) n htyped) hrun
    (fun _ hQ => hQ.2) h.onlyVariables

end

/-! ## What the check accepts -/

theorem Checker.Passes.first {β : Type} {x : Check α} {y : α → Check β} [∀ a, Growing (y a)]
    (h : c.Passes (x >>= y)) : c.Passes x :=
  List.prefix_nil.1 (h ▸ (grows (y (x.run c).1) (x.run c).2).errors)

theorem Checker.Passes.second {β : Type} {x : Check α} {y : α → Check β} (h : c.Passes (x >>= y)) :
    (c.after x).Passes (y (x.run c).1) := h

namespace Checker.Passes

open Check

variable {c : Checker}

variable {loc : Location} {e : Expr}

theorem binary {op : BinaryOp} {l r : Expr} (h : c.Passes (infer (.binary op l r loc))) :
    c.Passes (infer l) ∧ (c.after (infer l)).Passes (infer r) :=
  ⟨h.first, h.second.first⟩

theorem unary {op : UnaryOp} (h : c.Passes (infer (.unary op e loc))) :
    c.Passes (infer e) :=
  h.first

theorem assign {name : String} {nameLoc : Location}
    (h : c.Passes (infer (.assign (.name name nameLoc) e loc))) : c.Passes (infer e) :=
  first (y := fun s => assignName name nameLoc s loc >>= fun _ => pure s) h

theorem condition {cond : Expr} {word : String} (h : c.Passes (condition cond word)) :
    c.Passes (infer cond) :=
  h.first

theorem awaken {value : Expr} (h : c.Passes (awaken (some value) loc)) : c.Passes (infer value) :=
  h.first

theorem variableType {decl : Variable} {init : Expr} {declared : Option Ty} (hstart :
    decl.start = .value init)
    (h : c.Passes (variableType decl declared)) : c.Passes (infer init) := by
  unfold Check.variableType at h
  rw [hstart] at h
  cases declared with
  | some t | none => exact h.first

theorem induce {decl : Variable} {init : Expr} (hcore : decl.isCore = true)
    (hstart : decl.start = .value init) (h : c.Passes (induce decl)) : c.Passes (infer init) := by
  obtain ⟨htype, -⟩ := Bool.and_eq_true_iff.1 hcore
  have hdeclared : ∀ declared, c.Passes (do
      let type ← Check.variableType decl declared
      defineOr { name := decl.name, kind := .variable, typeName := type.map Ty.name }
        (.redeclaredVariable decl.name) decl.location) → c.Passes (infer init) :=
    fun declared h => variableType hstart h.first
  unfold Check.induce at h
  cases hname : decl.typeName with
  | none =>
    rw [hname] at h
    exact hdeclared none h
  | some name =>
    rw [hname] at htype h
    obtain ⟨t, hbuiltin, -⟩ := exists_of_mem_coreTypes htype
    have hsame : c.after (resolveType name decl.location) = c :=
      congrArg Prod.snd (resolveType_run hbuiltin decl.location c)
    have hsecond := h.second
    rw [hsame] at hsecond
    exact hdeclared _ hsecond

variable {link : Follower} [∀ path loc, Growing (link path loc)]

theorem branch {cond : Expr} {yes : List Stmt} {no : Option (List Stmt)} (loc : Location)
    (h : c.Passes (stmt link (.branch cond yes no loc))) :
    c.Passes (Check.condition cond "if") ∧ (c.after (Check.condition cond "if")).Passes
      (block link yes) := by
  have hparts (other : Check Unit) [Growing other]
      (h : c.Passes (Check.condition cond "if" >>= fun _ => block link yes >>= fun _ => other)) :
      c.Passes (Check.condition cond "if") ∧
        (c.after (Check.condition cond "if")).Passes (block link yes) :=
    ⟨h.first, h.second.first⟩
  cases no with
  | none => exact hparts (pure ()) h
  | some no => exact hparts (block link no) h

theorem subject {s : Stmt} (hsubject : s.subject? = some e) (hcore : s.isCore = true)
    (h : c.Passes (stmt link s)) : e.isCore = true ∧ c.Passes (infer e) := by
  cases s with
  | induce decl =>
    obtain ⟨-, hinit⟩ := Bool.and_eq_true_iff.1 hcore
    have hstart : decl.start = .value e := by
      cases hvalue : decl.start with
      | value init => simpa [Stmt.subject?, hvalue, Start.expr?] using hsubject
      | unset | external => simp [Stmt.subject?, hvalue, Start.expr?] at hsubject
    exact ⟨by simpa [hstart, Start.expr?] using hinit, induce hcore hstart h⟩
  | branch cond yes no loc =>
    obtain ⟨hcond, -, -⟩ := Stmt.isCore_branch hcore
    obtain rfl := Option.some.inj hsubject
    exact ⟨hcond, (branch loc h).1.condition⟩
  | observe | expr =>
    obtain rfl := Option.some.inj hsubject
    exact ⟨hcore, h.first⟩
  | assert =>
    obtain rfl := Option.some.inj hsubject
    exact ⟨hcore, condition h⟩
  | awaken value loc =>
    obtain rfl : value = some e := hsubject
    exact ⟨hcore, awaken h⟩
  | _ => cases hsubject

end Checker.Passes

namespace Loop

variable {link : Follower} [∀ path loc, Growing (link path loc)] {c : Checker} {loop : Loop}

theorem isCore_cond (h : loop.isCore = true) {cond : Expr} (hcond : loop.cond = some cond) :
    cond.isCore = true := by
  simp only [isCore, hcond, Bool.and_eq_true] at h
  exact h.1.1

theorem isCore_step (h : loop.isCore = true) {step : Expr} (hstep : loop.step = some step) :
    step.isCore = true := by
  simp only [isCore, hstep, Bool.and_eq_true] at h
  exact h.1.2

theorem passes_cond {cond : Expr} (hcond : loop.cond = some cond) (h : c.Passes loop.checkCond) :
    c.Passes (infer cond) := by
  simp only [checkCond, hcond] at h
  exact h.condition

theorem passes_step {step : Expr} (hstep : loop.step = some step) (h : c.Passes loop.checkStep) :
    c.Passes (infer step) := by
  simp only [checkStep, hstep] at h
  exact h

theorem passes_parts (h : c.Passes (loop.check link)) :
    c.Passes loop.checkCond ∧ (c.after loop.checkCond).Passes loop.checkStep ∧
      ((c.after loop.checkCond).after loop.checkStep).inLoop.Passes (block link loop.body) :=
  ⟨h.first, h.second.first, h.second.second⟩

omit [∀ path loc, Growing (link path loc)] in
theorem check_of_loop {cond step : Option Expr} {body : List Stmt} (loc : Location)
    (h : c.Passes (stmt link (.loop none cond step body loc))) :
    c.enter.Passes (check link ⟨"loop", cond, step, body⟩) := by
  rw [stmt_loop] at h
  exact h

theorem check_of_loopStart {init : Stmt} {cond step : Option Expr} {body : List Stmt}
    (loc : Location) (h : c.Passes (stmt link (.loop (some init) cond step body loc))) :
    c.enter.Passes (stmt link init) ∧
      (c.enter.after (stmt link init)).Passes (check link ⟨"loop", cond, step, body⟩) := by
  have hboth : c.enter.Passes (stmt link init >>= fun _ =>
      check link ⟨"loop", cond, step, body⟩) := by
    rw [stmt_loopStart] at h
    exact h
  exact ⟨hboth.first, hboth.second⟩

end Loop

def Point.isCore : Point → Bool
  | expr e => e.isCore
  | stmt s => s.isCore
  | block body | list body _ | entrances body | main body _ => listIsCore body
  | rounds loop _ => loop.isCore
  | ended => true

/-- The check knows the variables of the run, and accepts what is to be done. -/
structure Moment.Good (link : Follower) (p : Program) (moment : Moment) :
  Prop where
  isCore : moment.point.isCore = true
  knows : moment.checker.Knows moment.machine
  passes : moment.checker.Passes (moment.point.check link p)

section

variable {cfg : Settings} {link : Follower} [∀ path loc, Growing (link path loc)]
  {loop : Loop} {c : Checker} {m m₁ m₂ m₃ : Machine} {n : Nat} (h : c.Knows m)

include h

theorem Checker.Knows.header (hcore : loop.isCore = true) (hpasses : c.Passes (loop.check link)) :
    ((∀ expr ∈ loop.cond, ∃ t, expr.HasType c.scopes t) ∧
      (c.after loop.checkCond).scopes = c.scopes) ∧
      (∀ expr ∈ loop.step, ∃ t, expr.HasType c.scopes t) ∧
      ((c.after loop.checkCond).after loop.checkStep).scopes = c.scopes := by
  obtain ⟨⟨hcond, hstep⟩, -⟩ := by simpa only [Loop.isCore, Bool.and_eq_true] using hcore
  obtain ⟨hpassesCond, hpassesStep, -⟩ := Loop.passes_parts hpasses
  have htypedCond := accepts_checkCond h.onlyVariables hcond c rfl rfl hpassesCond
  have hscopes : (c.after loop.checkCond).scopes = c.scopes := htypedCond.2
  have htypedStep := accepts_checkStep h.onlyVariables hstep
    (c.after loop.checkCond) hscopes rfl hpassesStep
  exact ⟨htypedCond, htypedStep⟩

theorem Checker.Knows.holds {b : Bool} (hcore : loop.isCore = true)
    (hpasses : c.Passes (loop.check link))
    (hrun : Exec.holds (Exec.eval cfg n) loop.cond m = .done b m₁) : c.Knows m₁ :=
  h.step (Exec.yields_holds cfg n (h.header hcore hpasses).1.1) hrun
  (fun _ hQ => hQ) h.onlyVariables

theorem Checker.Knows.perform (hcore : loop.isCore = true) (hpasses : c.Passes (loop.check link))
    (hrun : Exec.perform (Exec.eval cfg n) loop.step m = .done () m₁) : c.Knows m₁ :=
  h.step (Exec.yields_perform cfg n (h.header hcore hpasses).2.1) hrun
  (fun _ hQ => hQ) h.onlyVariables

theorem Checker.Knows.round {flow : Flow} (hcore : loop.isCore = true)
    (hpasses : c.Passes (loop.check link))
    (hrun : Exec.block (Exec.exec cfg n) n loop.body m = .done flow m₁) : c.Knows m₁ := by
  obtain ⟨-, hbody⟩ := Bool.and_eq_true_iff.1 hcore
  have hscopes := (h.header hcore hpasses).2.2
  have hinside : ((c.after loop.checkCond).after loop.checkStep).inLoop.Knows m :=
    h.of_scopes hscopes
  exact (hinside.block hbody (Loop.passes_parts hpasses).2.2 hrun).of_scopes hscopes.symm

end

/-! ## Programs -/

theorem Check.mainStmt_eq (link : Follower) {s : Stmt} (hcore : s.isCore = true) :
    mainStmt link s = if s.isHoisted then pure () else stmt link s := by
  cases s with
  | suggestion | session | tranceify => cases hcore
  | _ => rfl

theorem Checker.Knows.mainStmt {cfg : Settings} {link : Follower}
    [∀ path loc, Growing (link path loc)] {m₁ : Machine} {n : Nat} (h : c.Knows m) {s : Stmt}
    {flow : Flow} (hcore : s.isCore = true) (hpasses : c.Passes (mainStmt link s))
    (hrun : Exec.mainStmt (Exec.exec cfg n) s m = .done flow m₁) :
    (c.after (mainStmt link s)).Knows m₁ := by
  unfold Exec.mainStmt at hrun
  rw [mainStmt_eq link hcore] at hpasses ⊢
  split at hrun <;> rename_i hhoisted
  · rw [if_pos hhoisted]
    cases hrun
    exact h
  · rw [if_neg hhoisted] at hpasses ⊢
    exact h.exec hcore hpasses hrun

namespace Moment.Good

variable {cfg : Settings} {link : Follower} [∀ path loc, Growing (link path loc)]
  {p : Program}

open Check

theorem passes_entrances {s : Stmt} {rest : List Stmt}
    (h : c.Passes (Point.check link p (.entrances (s :: rest)))) :
    c.Passes (entrance link s) ∧ (c.after (entrance link s)).Passes
    (Point.check link p (.entrances rest)) := by
  have hboth : c.Passes (entrance link s >>= fun _ => Point.check link p (.entrances rest)) := h
  exact ⟨hboth.first, hboth.second⟩

theorem passes_main {s : Stmt} {rest : List Stmt} {left : Nat}
    (h : c.Passes (Point.check link p (.main (s :: rest) left))) :
    c.Passes (mainStmt link s) ∧ (c.after (mainStmt link s)).Passes
    (Point.check link p (.main rest left)) := by
  have hboth : c.Passes (mainStmt link s >>= fun _ => Point.check link p (.main rest left)) := h
  exact ⟨hboth.first, hboth.second⟩

/-- **What the check knows and accepts stays known and accepted** from a moment to the next. -/
theorem next (hp : p.isCore = true) {a b : Moment} (hnext : Moment.Next cfg link p a b)
    (h : a.Good link p) : b.Good link p := by
  obtain ⟨hcore, hknows, hpasses⟩ := h
  cases hnext with
  | first =>
    obtain ⟨hl, -⟩ := Bool.and_eq_true_iff.1 hcore
    exact ⟨hl, hknows, (Checker.Passes.binary hpasses).1⟩
  | second first needed =>
    obtain ⟨hl, hr⟩ := Bool.and_eq_true_iff.1 hcore
    obtain ⟨hfirst, hsecond⟩ := Checker.Passes.binary hpasses
    exact ⟨hr, (hknows.eval hl hfirst first).of_scopes (hknows.infer hl hfirst).2, hsecond⟩
  | operand => exact ⟨hcore, hknows, Checker.Passes.unary hpasses⟩
  | @assigned n target value loc c m =>
    cases target with
    | name => exact ⟨hcore, hknows, Checker.Passes.assign hpasses⟩
    | _ => exact nomatch hcore
  | evaluated done =>
    exact ⟨rfl, (hknows.eval hcore hpasses done).of_scopes (hknows.infer hcore hpasses).2, hpasses⟩
  | subject first =>
    obtain ⟨he, hpasses⟩ := Checker.Passes.subject first hcore hpasses
    exact ⟨he, hknows, hpasses⟩
  | @yes n cond yes no loc c m v m₁ done holds =>
    have hcore : (Stmt.branch cond yes no loc).isCore = true := hcore
    obtain ⟨hcond, hyes, -⟩ := Stmt.isCore_branch hcore
    obtain ⟨hfirst, hsecond⟩ := Checker.Passes.branch loc hpasses
    exact ⟨hyes, (hknows.eval hcond hfirst.condition done).of_scopes
      (hknows.checkCond hcond hfirst), hsecond⟩
  | @no n cond yes no loc c m v m₁ done fails =>
    have hcore : (Stmt.branch cond yes (some no) loc).isCore = true := hcore
    obtain ⟨hcond, hyes, hno⟩ := Stmt.isCore_branch hcore
    obtain ⟨hfirst, hsecond⟩ := Checker.Passes.branch loc hpasses
    have hknows' := (hknows.eval hcond hfirst.condition done).of_scopes
      (hknows.checkCond hcond hfirst)
    exact ⟨hno no rfl, hknows'.of_scopes (hknows'.checkBlock hyes hsecond).2, hpasses⟩
  | whileLoop =>
    obtain ⟨hcond, hbody⟩ := by simpa only [Point.isCore, Stmt.isCore, Bool.and_eq_true] using hcore
    exact ⟨by simp [Point.isCore, Loop.isCore, hcond, hbody], hknows, hpasses⟩
  | @loop n cond step body loc c m =>
    obtain ⟨⟨⟨-, hcond⟩, hstep⟩, hbody⟩ := by
      simpa only [Point.isCore, Stmt.isCore, Bool.and_eq_true] using hcore
    exact ⟨by simp [Point.isCore, Loop.isCore, hcond, hstep, hbody], hknows.enter,
      Loop.check_of_loop loc hpasses⟩
  | @loopStart n init cond step body loc c m =>
    obtain ⟨⟨⟨hinit, -⟩, -⟩, -⟩ := by
      simpa only [Point.isCore, Stmt.isCore, Bool.and_eq_true] using hcore
    exact ⟨hinit, hknows.enter, (Loop.check_of_loopStart loc hpasses).1⟩
  | @loopStarted n init cond step body loc c m m₁ started =>
    obtain ⟨⟨⟨hinit, hcond⟩, hstep⟩, hbody⟩ := by
      simpa only [Point.isCore, Stmt.isCore, Bool.and_eq_true] using hcore
    obtain ⟨hfirst, hsecond⟩ := Loop.check_of_loopStart loc hpasses
    exact ⟨by simp [Point.isCore, Loop.isCore, hcond, hstep, hbody],
      hknows.enter.exec hinit hfirst started, hsecond⟩
  | entranceBlock => exact ⟨hcore, hknows, hpasses⟩
  | executed done => exact ⟨rfl, hknows.exec hcore hpasses done, hpasses⟩
  | block => exact ⟨hcore, hknows.enter.of_scopes rfl, hpasses⟩
  | closed done =>
    exact ⟨rfl, (hknows.block hcore hpasses done).of_scopes (hknows.checkBlock hcore hpasses).2,
      hpasses⟩
  | head =>
    obtain ⟨hs, hrest⟩ := Bool.and_eq_true_iff.1 hcore
    exact ⟨hs, hknows, hpasses.first⟩
  | tail done =>
    obtain ⟨hs, hrest⟩ := Bool.and_eq_true_iff.1 hcore
    exact ⟨hrest, hknows.exec hs hpasses.first done, hpasses.second⟩
  | roundCond first =>
    exact ⟨Loop.isCore_cond hcore first, hknows,
      Loop.passes_cond first (Loop.passes_parts hpasses).1⟩
  | roundBody done =>
    obtain ⟨-, hbody⟩ := Bool.and_eq_true_iff.1 hcore
    exact ⟨hbody, (hknows.holds hcore hpasses done).of_scopes (hknows.header hcore hpasses).2.2,
      (Loop.passes_parts hpasses).2.2⟩
  | roundStep done round goesOn first =>
    have hround := (hknows.holds hcore hpasses done).round hcore hpasses round
    exact ⟨Loop.isCore_step hcore first, hround.of_scopes (hknows.header hcore hpasses).1.2,
      Loop.passes_step first (Loop.passes_parts hpasses).2.1⟩
  | again done round goesOn stepped =>
    exact ⟨hcore,
      ((hknows.holds hcore hpasses done).round hcore hpasses round).perform hcore hpasses stepped,
      hpasses⟩
  | enters =>
    obtain ⟨hbody, hrest⟩ := Bool.and_eq_true_iff.1 hcore
    exact ⟨hbody, hknows, (passes_entrances hpasses).1⟩
  | entered done =>
    obtain ⟨hbody, hrest⟩ := Bool.and_eq_true_iff.1 hcore
    obtain ⟨hfirst, hsecond⟩ := passes_entrances hpasses
    exact ⟨hrest, (hknows.block hbody hfirst done).of_scopes (hknows.checkBlock hbody hfirst).2,
      hsecond⟩
  | @passes n s rest c m other =>
    obtain ⟨-, hrest⟩ := Bool.and_eq_true_iff.1 hcore
    refine ⟨hrest, hknows, ?_⟩
    cases s with
    | entrance => exact nomatch other
    | _ => exact hpasses
  | allEntered => exact ⟨hp, hknows.of_scopes rfl, hpasses⟩
  | mainHead here =>
    obtain ⟨hs, hrest⟩ := Bool.and_eq_true_iff.1 hcore
    have hfirst := (passes_main hpasses).1
    rw [mainStmt_eq link hs, if_neg (by rw [here]; exact Bool.false_ne_true)] at hfirst
    exact ⟨hs, hknows, hfirst⟩
  | mainTail done =>
    obtain ⟨hs, hrest⟩ := Bool.and_eq_true_iff.1 hcore
    obtain ⟨hfirst, hsecond⟩ := passes_main hpasses
    exact ⟨hrest, hknows.mainStmt hs hfirst done, hsecond⟩

end Moment.Good

end Trance
