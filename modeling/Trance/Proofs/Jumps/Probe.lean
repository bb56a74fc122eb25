import Trance.Proofs.Jumps.Site

/-!
# Probed runs

To say that a run executes a statement, the statement is replaced by a failure: a probe catches
certain statements, and a probed run fails when it comes to one of them, with the error that the
probe gives. A run executes a statement if the probed run fails with every error that the probe
is given.

A run is compared with a probed run. They go together until the probe catches a jump; if
nothing takes the jump up, the run is then on its way out, and fails with the error of the jump.
-/

namespace Trance

open List

/-! ## Probes -/

/-- The statements that a run is to fail at, and with which errors. -/
abbrev Probe := Stmt → Option RuntimeError

/-- The error of a jump that nothing takes up. -/
def Stmt.jumpError? (stmt : Stmt) : Option RuntimeError :=
  stmt.flow?.bind Flow.error?

namespace Probe

def none : Probe := fun _ => .none

/-- The probe that catches a jump, which is known by its own error, with another error. -/
def on (jump : Stmt) (e : RuntimeError) : Probe := fun stmt =>
  if stmt.jumpError?.isSome && stmt.jumpError? = jump.jumpError? then some e else .none

theorem on_eq_none {jump stmt : Stmt} {e : RuntimeError} (h : stmt.jumpError? = .none) :
    Probe.on jump e stmt = .none := by
  simp [on, h]

theorem jumpError?_of_on {jump stmt : Stmt} {e : RuntimeError} (h : Probe.on jump e stmt ≠ .none) :
    stmt.jumpError? = jump.jumpError? := by
  unfold on at h
  split at h
  · rename_i hsame
    simp only [Bool.and_eq_true, decide_eq_true_eq] at hsame
    exact hsame.2
  · exact absurd rfl h

def watch (probe : Probe) (exec : Stmt → Exec Flow) (stmt : Stmt) : Exec Flow :=
  match probe stmt with
  | some e => Exec.throw e
  | .none => exec stmt

end Probe

namespace Exec

mutual

/-- The interpreter, but for statements that the probe catches. -/
def probedEval (cfg : Settings) (probe : Probe) : Nat → Expr → Exec Value
  | 0, _ => exhausted
  | bound + 1, expr =>
    evalStep cfg.maxDepth (probedEval cfg probe bound) (probedCall cfg probe bound) expr

def probedExec (cfg : Settings) (probe : Probe) : Nat → Stmt → Exec Flow
  | 0, _ => exhausted
  | bound + 1, stmt =>
    probe.watch (execStep bound (probedEval cfg probe bound) (probedExec cfg probe bound)
      (probedLink cfg probe bound)) stmt

def probedCall (cfg : Settings) (probe : Probe) : Nat → Caller
  | 0, _, _, _, _ => exhausted
  | bound + 1, decl, args, receiver, loc =>
    callBody cfg.maxDepth (probedExec cfg probe bound) bound decl args receiver loc

def probedLink (cfg : Settings) (probe : Probe) : Nat → String → Location → Exec Unit
  | 0, _, _ => exhausted
  | bound + 1, path, loc =>
    linkStep cfg.files (probedEval cfg probe bound) (probedLink cfg probe bound) path loc

end

instance (probe : Probe) {exec : Stmt → Exec Flow} [∀ s, Signals (exec s)] (stmt : Stmt) :
    Signals (probe.watch exec stmt) := by
  unfold Probe.watch
  cases probe stmt with
  | some e => exact ⟨fun h => by cases h⟩
  | none => infer_instance

instance (cfg : Settings) (probe : Probe) (bound : Nat) (stmt : Stmt) :
    Signals (probedExec cfg probe bound stmt) := by
  induction bound generalizing stmt with
  | zero => exact inferInstanceAs (Signals exhausted)
  | succ bound ih => exact inferInstanceAs (Signals (probe.watch (execStep bound _ _ _) stmt))

def probedProgram (cfg : Settings) (probe : Probe) (bound : Nat) (p : Program) : Exec Unit :=
  programStep bound (probedEval cfg probe bound) (probedExec cfg probe bound)
    (probedLink cfg probe bound) p

theorem probed_none (cfg : Settings) (bound : Nat) : probedEval cfg .none bound = eval cfg bound ∧
    probedExec cfg .none bound = exec cfg bound ∧
    probedCall cfg .none bound = call cfg bound ∧
    probedLink cfg .none bound = link cfg bound := by
  induction bound with
  | zero => exact ⟨rfl, rfl, rfl, rfl⟩
  | succ bound ih =>
    obtain ⟨heval, hexec, hcall, hlink⟩ := ih
    refine ⟨?_, ?_, ?_, ?_⟩
    · funext expr
      rw [probedEval, eval, heval, hcall]
    · funext stmt
      rw [probedExec, exec, heval, hexec, hlink]
      rfl
    · funext decl args receiver loc
      rw [probedCall, call, hexec]
    · funext path loc
      rw [probedLink, link, heval, hlink]

end Exec

/-- **A run of a program executes a jump**: were the jump replaced by any failure, the run would
fail in this way. -/
def Program.Executes (cfg : Settings) (bound : Nat) (p : Program) (m : Machine) (jump : Stmt) :
    Prop :=
  ∀ e, ∃ m', Exec.probedProgram cfg (.on jump e) bound p m.reset = .failed e m'

/-! ## Good sites -/

section

variable (findings : List (Code × Location)) (probe : Probe)

def Reported (e : RuntimeError) : Prop := ∀ f, e.finding? = some f → f ∈ findings

/-- An error of a jump that the probe catches with another error. -/
def Probe.Caught (e e' : RuntimeError) : Prop := ∃ stmt, stmt.jumpError? = some e ∧
    probe stmt = some e'

/-- A jump that has been reported if it is stray, and that the probe catches only if it is stray. -/
structure Site.Good (site : Site) : Prop where
  notLink : site.stmt.isLink = false
  reported : ∀ f, site.finding? = some f → f ∈ findings
  stray : probe site.stmt ≠ .none → site.finding? ≠ .none

/-- A run beside a probed run. Suggestions are the same, with good sites; errors are the same and
reported, or else that of a jump beside that of the probe. -/
def Pairing.probed : Pairing where
  matching :=
    { rel := fun a b => a = b ∧ ∀ site ∈ suggestionSites a, site.Good findings probe
      signature := fun h => h.1 ▸ rfl }
  types _ := True
  hidden₁ := []
  hidden₂ := []
  errors e e' := (e = e' ∧ Reported findings e) ∨ probe.Caught e e'
  shown := #[]
  noted := Eq
  around _ _ _ _ := True
  signals _ _ := True
  reorders := False
  lacks _ := False
  cuts := True
  lags := False
  spare := false
  errors_self h := .inl ⟨rfl, fun _ hf => nomatch (RuntimeError.finding?_eq_none h).symm.trans hf⟩
  signals_self _ := trivial
  lacks_ordinary := @Pairing.no_lacks_ordinary

/-- How a statement may end where some things are around it: a jump that nothing takes up has been
reported, and it is on its way out if the probe catches it. -/
def Reach.exits (reach : Reach) : Exits where
  allows flow := ∀ e, flow.error? = some e → reach.takes flow = true ∨ Reported findings e
  escapes flow e' := reach.takes flow = false ∧ ∃ e, flow.error? = some e ∧ probe.Caught e e'

end

namespace Jumps

variable {findings : List (Code × Location)} {probe : Probe} {reach : Reach}

theorem inside (kinds : List Frame.Kind) : (Pairing.probed findings probe).Inside kinds :=
  Pairing.inside rfl rfl rfl kinds

theorem allows_normal : (reach.exits findings probe).allows .normal := fun _ h => nomatch h

theorem pass_within (body : List Stmt) : Exits.Pass (Flow.leavesList body)
    ((reach.within body).exits findings probe) (reach.exits findings probe) where
  normal := allows_normal
  allows flow h hleaves e he := Reach.takes_within hleaves ▸ h e he
  escapes flow e h := by
    have hleaves := Reach.leavesList_of_not_takes h.1
    exact ⟨hleaves, Reach.takes_within hleaves ▸ h.1, h.2⟩

theorem pass_inLoop : Exits.Pass Flow.leavesLoop (reach.inLoop.exits findings probe)
      (reach.exits findings probe) where
  normal := allows_normal
  allows flow h hleaves e he := Reach.takes_inLoop hleaves ▸ h e he
  escapes flow e h := by
    have hleaves := Reach.leavesLoop_of_not_takes h.1
    exact ⟨hleaves, Reach.takes_inLoop hleaves ▸ h.1, h.2⟩

theorem takes_fresh {flow : Flow} {e : RuntimeError} (h : flow.error? = some e) :
    Reach.fresh.takes flow = false := by
  cases flow with
  | normal | awaken => exact nomatch h
  | snap | sink | jump => rfl

theorem rejected : Exits.Rejected (.probed findings probe) (Reach.fresh.exits findings probe) where
  allows flow e h he := by
    obtain htakes | hreported := h e he
    · rw [takes_fresh he] at htakes
      exact nomatch htakes
    · exact .inl ⟨rfl, hreported⟩
  escapes flow e' h := by
    obtain ⟨-, e, he, hcaught⟩ := h
    exact ⟨e, he, .inr hcaught⟩

/-! ## Statements -/

abbrev Runs (P : Pairing) (findings : List (Code × Location)) (probe : Probe)
    (exec exec' : Stmt → Exec Flow) :
    Prop :=
  ∀ reach stmt, (∀ site ∈ Stmt.sites reach stmt, site.Good findings probe) →
    FlowSim P P.Inside (reach.exits findings probe) (exec stmt) (exec' stmt)

variable {P : Pairing} {eval eval' : Expr → Exec Value} {exec exec' : Stmt → Exec Flow}
  {link link' : String → Location → Exec Unit}

theorem good_of_mem_list {body : List Stmt}
    (h : ∀ site ∈ listSites reach body, site.Good findings probe) :
    ∀ stmt ∈ body, ∀ site ∈ Stmt.sites reach stmt, site.Good findings probe := by
  induction body with
  | nil => exact fun _ hstmt => nomatch hstmt
  | cons first rest ih =>
    rw [listSites] at h
    obtain ⟨hfirst, hrest⟩ := forall_mem_append.1 h
    exact forall_mem_cons.2 ⟨hfirst, ih hrest⟩

theorem block (hexec : Runs (.probed findings probe) findings probe exec exec') (bound : Nat)
    {body : List Stmt} (h : ∀ site ∈ listSites (reach.within body) body, site.Good findings probe) :
    FlowSim (.probed findings probe) (Pairing.probed findings probe).Inside
      (reach.exits findings probe) (Exec.block exec bound body) (Exec.block exec' bound body) :=
  FlowSim.block (fun stmt hstmt => hexec _ stmt (good_of_mem_list h stmt hstmt)) (pass_within body)
    (.refl trivial bound)

theorem callBody [∀ s, (exec s).Signals] [∀ s, (exec' s).Signals] (limit bound : Nat)
    (hexec : Runs (.probed findings probe) findings probe exec exec') :
    Callers (.probed findings probe) (Exec.callBody limit exec bound)
      (Exec.callBody limit exec' bound) := by
  rintro a _ ⟨rfl, hgood⟩ args args' hargs receiver loc
  have hsites : ∀ site ∈ listSites (Reach.fresh.within a.body) a.body, site.Good findings probe := by
    obtain ⟨⟩ := a
    exact hgood
  have hbody := FlowSim.sequence_self
    (fun stmt hstmt => hexec _ stmt (good_of_mem_list hsites stmt hstmt)) (pass_within a.body)
    (.refl trivial bound)
  have hself : (Pairing.probed findings probe).matching.rel a a := ⟨rfl, hgood⟩
  exact .callBody limit hself hbody rejected hargs receiver loc

theorem session {decl : Session} (h : ∀ site ∈ sessionSites decl, site.Good findings probe) :
    Session.Alike (Pairing.probed findings probe).matching decl decl := by
  obtain ⟨name, members, loc⟩ := decl
  refine .self fun member hmember method hmethod => ⟨rfl, ?_⟩
  simp only [sessionSites] at h hmember
  induction members with
  | nil => exact nomatch hmember
  | cons first rest ih =>
    rw [membersSites] at h
    obtain ⟨hfirst, hrest⟩ := forall_mem_append.1 h
    obtain rfl | hmember := mem_cons.1 hmember
    · obtain ⟨decl, exposed, dominant⟩ := member
      obtain rfl : decl = .method method := hmethod
      exact hfirst
    · exact ih hrest hmember

theorem jump {stmt : Stmt} {flow : Flow} {loc : Location} {e : RuntimeError}
    (hflow : stmt.flow? = some flow)
    (herror : flow.error? = some e) (hsite : Site.Good findings probe ⟨reach, stmt⟩)
    (hexec : exec stmt = Exec.makeJump flow loc) :
    FlowSim (.probed findings probe) (Pairing.probed findings probe).Inside
      (reach.exits findings probe) (Exec.makeJump flow loc) (probe.watch exec stmt) := by
  have hfinding : Site.finding? ⟨reach, stmt⟩ = if reach.takes flow then none else e.finding? := by
    simp only [Site.finding?, hflow, herror, Option.bind_some]
  unfold Probe.watch
  cases hcaught : probe stmt with
  | none =>
    simp only
    rw [hexec]
    refine .makeJump (.of_error? herror) (fun e' he' => ?_) loc
    obtain rfl : e = e' := Option.some.inj (herror.symm.trans he')
    cases htakes : reach.takes flow with
    | true => exact .inl rfl
    | false =>
      rw [htakes] at hfinding
      exact .inr fun f hf => hsite.reported f (hfinding.trans hf)
  | some e' =>
    have hstray := hsite.stray (hcaught ▸ Option.some_ne_none e')
    have htakes : reach.takes flow = false := by
      cases htakes : reach.takes flow with
      | false => rfl
      | true =>
        rw [htakes] at hfinding
        exact absurd hfinding hstray
    have hjump : stmt.jumpError? = some e := by rw [Stmt.jumpError?, hflow, Option.bind_some, herror]
    exact fun _ _ _ _ hm => .escaped ⟨htakes, e, herror, stmt, hjump, hcaught⟩
      { hm with signal := trivial }

/-- **One step of a statement keeps statements related.** -/
theorem execStep (hprobe : ∀ stmt, stmt.jumpError? = none → probe stmt = none) (bound : Nat)
    (heval : Evaluators (.probed findings probe) eval eval')
    (hexec : Runs (.probed findings probe) findings probe exec exec') :
    Runs (.probed findings probe) findings probe (Exec.execStep bound eval exec link)
      (probe.watch (Exec.execStep bound eval' exec' link')) := by
  intro reach stmt hsites
  have hwatch : stmt.jumpError? = none →
      probe.watch (Exec.execStep bound eval' exec' link') stmt =
        Exec.execStep bound eval' exec' link' stmt := by
    intro hjump
    simp only [Probe.watch, hprobe stmt hjump]
  cases stmt with
  | snap loc | sink loc | sinkTo label loc => exact jump rfl rfl (hsites _ mem_cons_self) rfl
  | mindLink path loc => exact nomatch (hsites _ mem_cons_self).notLink
  | branch cond yes no loc =>
    rw [hwatch rfl]
    rw [Stmt.sites_branch] at hsites
    obtain ⟨hyes, hno⟩ := forall_mem_append.1 hsites
    refine .branch heval allows_normal cond loc (block hexec bound hyes) ?_
    cases no with
    | none => exact .none
    | some body => exact .some (block hexec bound hno)
  | whileLoop cond body loc =>
    rw [hwatch rfl]
    exact .whileLoop heval cond loc (.refl trivial bound) (block hexec bound hsites) pass_inLoop
  | loop init cond step body loc =>
    rw [hwatch rfl]
    rw [Stmt.sites_loop] at hsites
    obtain ⟨hinit, hbody⟩ := forall_mem_append.1 hsites
    refine .loop heval cond step loc ?_ ?_ (.refl trivial bound)
      (block hexec bound hbody) pass_inLoop
    · cases init with
      | none => exact .none
      | some stmt => exact .some (hexec reach stmt hinit)
    · rintro e ⟨-, _, h, -⟩
      exact nomatch h
  | suggestion decl =>
    rw [hwatch rfl]
    exact .andThen (.declareSuggestion ⟨rfl, hsites⟩) allows_normal
  | session decl =>
    rw [hwatch rfl]
    exact .andThen (.declareSession heval (session hsites)) allows_normal
  | entrance body loc =>
    rw [hwatch rfl]
    exact block hexec bound hsites
  | assert cond message loc =>
    rw [hwatch rfl]
    exact .assert heval allows_normal (Pairing.notes_of_eq rfl) cond message loc
  | induce | tranceify | observe | awaken | label | expr =>
    rw [hwatch rfl]
    exact .plain heval allows_normal (fun _ _ h => nomatch h) (fun _ _ => trivial) rfl

/-- **Runs and probed runs are related** as long as all sites are good. -/
theorem run (cfg : Settings) (hprobe : ∀ stmt, stmt.jumpError? = none → probe stmt = none)
    (bound : Nat) :
    Evaluators (.probed findings probe) (Exec.eval cfg bound) (Exec.probedEval cfg probe bound) ∧
    Callers (.probed findings probe) (Exec.call cfg bound) (Exec.probedCall cfg probe bound) ∧
    Runs (.probed findings probe) findings probe (Exec.exec cfg bound)
      (Exec.probedExec cfg probe bound) := by
  induction bound with
  | zero =>
    exact ⟨fun _ => .exhausted trivial, fun _ _ _ _ _ _ => .exhausted trivial, fun _ _ _ =>
      .exhausted trivial⟩
  | succ bound ih =>
    obtain ⟨heval, hcall, hexec⟩ := ih
    exact ⟨.evalStep cfg.maxDepth heval hcall, callBody cfg.maxDepth bound hexec,
      execStep hprobe bound heval hexec⟩

theorem run_none (cfg : Settings) (bound : Nat) :
    Evaluators (.probed findings .none) (Exec.eval cfg bound)
      (Exec.eval cfg bound) ∧
    Runs (.probed findings .none) findings .none (Exec.exec cfg bound)
      (Exec.exec cfg bound) := by
  have hnone : ∀ stmt : Stmt, stmt.jumpError? = none → Probe.none stmt = none := fun _ _ => rfl
  obtain ⟨heval, -, hexec⟩ := run cfg hnone bound
  rw [(Exec.probed_none cfg bound).1] at heval
  rw [(Exec.probed_none cfg bound).2.1] at hexec
  exact ⟨heval, hexec⟩

end Jumps

end Trance
