import Trance.Proofs.Jumps.Probe
import Trance.Proofs.Linking.Gathering
import Trance.Proofs.Linking.TakeOver

/-!
# Stray jumps are reported, and reported jumps are stray

A run fails for a jump that nothing takes up only if the check of the program has reported the
jump; and a reported jump makes every run that executes it fail.
-/

namespace Trance

open List Option Check Exec

def Exec.programWith (links : Exec Unit) (bound : Nat) (eval : Expr → Exec Value)
    (exec : Stmt → Exec Flow)
    (p : Program) : Exec Unit := do
  p.statements.forM (declare eval)
  links
  match ← entrances exec bound p.statements with
  | .awaken _ => pure ()
  | _ => do
    let flow ← sequence (mainStmt exec) p.statements bound p.statements
    rejectEscape flow

/-- **A run that is not cut short takes over the list of declarations that its links lead to.** -/
theorem Exec.run_eq_programWith {origin : Origin} {source : String} {p : Program}
    (hparse : Program.ofText origin source = .ok p) {cfg : Settings} {bound : Nat} {m : Machine}
    (hne : p.run cfg bound m ≠ .exhausted) :
    p.run cfg bound m =
      programWith (takeOverAll cfg (cfg.files.flatten [] (p.outset m.baseDir)) bound) bound
        (eval cfg bound) (exec cfg bound) p m.reset := by
  have hp := Program.every_of_ofText hparse
  simp only [Program.run, program, programStep, programWith, Bind.bind, Exec.bind] at hne ⊢
  cases hdeclared : p.statements.forM (declare (eval cfg bound)) m.reset with
  | failed | exhausted => rfl
  | done _ m₁ =>
    obtain ⟨hm, hdir, hlinked⟩ := (placeless_declarations cfg bound hp).keeps
      (Machine.confined_reset m) (by rw [hdeclared]; rfl)
    rw [hdeclared] at hne
    have hwithin : (followLinks cfg p bound m₁).Within _ := followLinks_within hp hm bound
    rw [hlinked, hdir] at hwithin
    obtain hcut | heq := hwithin
    · rw [followLinks] at hcut
      simp only [hcut] at hne
      exact absurd rfl hne
    · rw [followLinks] at heq
      simp only [heq]
      rfl

namespace Jumps

variable {findings : List (Code × Location)} {probe : Probe} {eval eval' : Expr → Exec Value}
  {exec exec' : Stmt → Exec Flow}

/-! ## Programs -/

variable {stmt : Stmt} {p : Program}

theorem declare (heval : Evaluators (.probed findings probe) eval eval')
    (h : ∀ site ∈ bodySites stmt, site.Good findings probe) :
    Sim (.probed findings probe) (Pairing.probed findings probe).Inside Eq (declare eval stmt)
      (declare eval' stmt) := by
  cases stmt with
  | suggestion decl => exact .declareSuggestion ⟨rfl, h⟩
  | session decl => exact .declareSession heval (session h)
  | tranceify decl => exact .declareTranceify trivial
  | _ => exact .pure rfl

theorem takeOver (heval : Evaluators (.probed findings probe) eval eval') {entry : Entry}
    (h : ∀ stmt, entry = .declaration stmt → ∀ site ∈ bodySites stmt, site.Good findings probe) :
    Sim (.probed findings probe) (Pairing.probed findings probe).Inside Eq (takeOver eval entry)
      (takeOver eval' entry) := by
  cases entry with
  | file key => exact .update fun _ _ _ _ hm => { hm with around := trivial }
  | broken path message loc => exact .fail rfl
  | declaration stmt =>
    refine sim_takeOver (fun _ h => h) ?_
    cases stmt with
    | induce decl => exact .induce heval decl
    | _ => exact declare heval (h _ rfl)

theorem mainStmt (hexec : Runs (.probed findings probe) findings probe exec exec') {reach : Reach}
    (h : ∀ site ∈ stmt.topSites reach, site.Good findings probe) :
    FlowSim (.probed findings probe) (Pairing.probed findings probe).Inside
      (reach.exits findings probe) (mainStmt exec stmt) (mainStmt exec' stmt) := by
  cases stmt with
  | entrance | mindLink | suggestion | session | tranceify => exact .normal allows_normal
  | _ => exact hexec reach _ h

/-- **A run of a program goes together with a probed run** as long as all sites are good and its
links are followed alike. -/
theorem program (h : ∀ site ∈ p.sites, site.Good findings probe)
    (heval : Evaluators (.probed findings probe) eval eval')
    (hexec : Runs (.probed findings probe) findings probe exec exec') [∀ s, (exec s).Signals]
    [∀ s, (exec' s).Signals] {links links' : Exec Unit}
    (hlinks : Sim (.probed findings probe) (Pairing.probed findings probe).Inside Eq links links')
    (bound : Nat) :
    Sim (.probed findings probe) (Pairing.probed findings probe).Inside Eq
      (programWith links bound eval exec p) (programWith links' bound eval' exec' p) := by
  have htop : ∀ stmt ∈ p.statements, ∀ site ∈ stmt.topSites (Reach.fresh.within p.statements),
      site.Good findings probe :=
    fun stmt hstmt site hsite => h site (mem_flatMap.2 ⟨stmt, hstmt, hsite⟩)
  have hdeclared := Simulates.forM fun stmt hstmt => declare heval fun site hsite =>
    htop stmt hstmt site (topSites_eq _ stmt ▸ mem_append_right _ hsite)
  refine hdeclared.bind fun _ _ _ => hlinks.bind fun _ _ _ => .blocks rejected
    (Simulates.entrances_self fun stmts loc hmem => block hexec bound (htop _ hmem))
    (FlowSim.sequence_self (fun stmt hstmt => mainStmt hexec (htop stmt hstmt)) (pass_within _)
      (.refl trivial bound))

theorem followLink {P : Pairing} {K : List Frame.Kind → Prop}
    {link link' : String → Location → Exec Unit} (h : stmt.isLink = false) :
    Sim P K Eq (followLink link stmt) (followLink link' stmt) := by
  cases stmt with
  | mindLink => exact nomatch h
  | _ => exact .pure rfl

theorem alike_reset (m : Machine) : Machine.Alike (.probed findings probe) [] m.reset m.reset :=
  Machine.alike_reset rfl rfl rfl rfl rfl m trivial

theorem failed_of_alike {kinds : List Frame.Kind} {o : Outcome Unit} {e' : RuntimeError}
    {n' : Machine} (h : Outcome.Alike (.probed findings probe) kinds Eq Never o (.failed e' n')) :
    ∃ e m', o = .failed e m' ∧ (Pairing.probed findings probe).errors e e' := by
  cases h with
  | failed error => exact ⟨_, _, rfl, error⟩
  | escaped escape => exact escape.elim
  | lagging lags => exact lags.elim
  | parted lacked => exact lacked.elim

/-! ## Links -/

variable {linker : Linker}

theorem good_of_checked (link : Follower)
    [∀ path loc, Growing (link path loc)] [∀ path loc, Blind (link path loc)]
    (hp : LinkFree p.sites) {c : Checker} (hc : c.context = .top) (hnone : c.deferred = [])
    (hjumps : ((Check.program link p).run c).2.report.jumps ⊆ findings) :
    ∀ site ∈ p.sites, site.Good findings .none := by
  intro site hsite
  obtain ⟨new, hmoves, hnew⟩ := moves_program link hp hc hnone
  refine ⟨hp site hsite, fun f hf => hjumps ?_, fun h => absurd rfl h⟩
  rw [hmoves.jumps]
  exact mem_append_right _ ((hnew f).2 (mem_filterMap.2 ⟨site, hsite, hf⟩))

/-- `Covers linker findings bound`: where a check follows a link and reports nothing but the
findings, the sites are good that are gathered for the link. -/
def Covers (linker : Linker) (findings : List (Code × Location)) (bound : Nat) : Prop :=
  ∀ path loc (c : Checker), ((linker.link bound path loc).run c).2.report.jumps ⊆ findings →
    ∀ stmt ∈ linker.gather id bound c.linked (Path.join c.baseDir path),
      ∀ site ∈ bodySites stmt, site.Good findings .none

theorem Covers.expand {bound : Nat} (h : Covers linker findings bound) {body : List Stmt}
    (hbody : ∀ stmt ∈ body, ∀ site ∈ bodySites stmt, site.Good findings .none) (c : Checker)
    (hjumps : ((body.forM (Check.followLink (linker.link bound))).run c).2.report.jumps ⊆ findings) :
    ∀ stmt ∈ Linker.expand (linker.visit bound) (linker.gather id bound) c.baseDir c.linked body,
      ∀ site ∈ bodySites stmt, site.Good findings .none := by
  induction body generalizing c with
  | nil => exact fun _ hstmt => nomatch hstmt
  | cons first rest ih =>
    obtain ⟨hfirst, hrest⟩ := forall_mem_cons.1 hbody
    cases first with
    | mindLink path loc =>
      have hlater := ih hrest ((linker.link bound path loc).run c).2 hjumps
      rw [(grows (linker.link bound path loc) c).baseDir, linker.link_linked] at hlater
      refine forall_mem_append.2 ⟨h path loc c (List.Subset.trans (Report.jumps_subset ?_) hjumps),
        hlater⟩
      exact (grows (rest.forM (Check.followLink (linker.link bound))) _).errors
    | _ => exact forall_mem_cons.2 ⟨hfirst, ih hrest c hjumps⟩

theorem Covers.program {bound : Nat} (h : Covers linker findings bound) (hp : LinkFree p.sites)
    {c : Checker} (hc : c.context = .top) (hnone : c.deferred = [])
    (hjumps : ((Check.program (linker.link bound) p).run c).2.report.jumps ⊆ findings) :
    ∀ stmt ∈ Linker.expand (linker.visit bound)
      (linker.gather id bound) c.baseDir c.linked p.statements,
      ∀ site ∈ bodySites stmt, site.Good findings .none := by
  have hgood := good_of_checked (linker.link bound) hp hc hnone hjumps
  obtain ⟨new, hmoves, -⟩ := moves_program (linker.link bound) hp hc hnone
  have hnames := silent_names p c
  rw [← hnames.stays, ← hnames.baseDir]
  refine h.expand (fun stmt hstmt site hsite => hgood site (mem_flatMap.2 ⟨stmt, hstmt, ?_⟩)) _
    (List.Subset.trans (Report.jumps_subset hmoves.errors) hjumps)
  exact topSites_eq _ stmt ▸ mem_append_right _ hsite

/-- **What a check reports covers all declarations that links lead to.** -/
theorem covers (linker : Linker) (findings : List (Code × Location)) (bound : Nat) :
    Covers linker findings bound := by
  induction bound with
  | zero => exact fun _ _ _ _ => forall_mem_nil _
  | succ bound ih =>
    intro path loc c hjumps
    generalize htarget : Path.join c.baseDir path = target
    rw [Linker.gather]
    split
    · exact forall_mem_nil _
    rename_i hnew
    cases hload : linker.load? target with
    | none => exact forall_mem_nil _
    | some p =>
      obtain ⟨source, -, hparse⟩ := Linker.load?_eq_some hload
      obtain ⟨-, -, hpassed⟩ := Linker.link_loaded bound loc htarget hnew hload
      exact ih.program (Program.linkFree_sites hparse) (c :=
        { Checker.new (Path.parent target) with
          linked := linker.files.key target :: c.linked }) rfl rfl
        (List.Subset.trans hpassed hjumps)

end Jumps

namespace Program

variable {origin : Origin} {source : String} {p : Program} {linker : Linker} {cfg : Settings}
  {bound : Nat} {m m' : Machine} {e : RuntimeError}

/-! ## Errors have been reported -/

theorem mem_jumps_iff {report : Report} {code : Code} {loc : Location} (hcode : code.isJump = true) :
    (code, loc) ∈ report.jumps ↔ ∃ d ∈ report.errors, d.code = code ∧ d.location = loc := by
  simp only [Report.jumps, List.mem_map, List.mem_filter, Prod.mk.injEq]
  constructor
  · rintro ⟨d, ⟨hd, -⟩, hdiagnostic⟩
    exact ⟨d, hd, hdiagnostic⟩
  · rintro ⟨d, hd, rfl, rfl⟩
    exact ⟨d, ⟨hd, hcode⟩, rfl, rfl⟩

variable {f : Code × Location}

theorem isJump_of_finding? (h : e.finding? = some f) : f.1.isJump = true := by
  unfold RuntimeError.finding? at h
  split at h
  · exact Option.some.inj h ▸ rfl
  · exact Option.some.inj h ▸ rfl
  · cases h

theorem reported_of_failed (hparse : Program.ofText origin source = .ok p)
    (hfiles : cfg.files = linker.files) (h : p.run cfg bound m = .failed e m') :
    Reported (linker.check p (Checker.new m.baseDir)).report.jumps e := by
  have hp := linkFree_sites hparse
  have hgood := Jumps.good_of_checked (linker.link linker.bound) hp (c := Checker.new m.baseDir) rfl
    rfl (List.Subset.refl _)
  obtain ⟨heval, hexec⟩ := Jumps.run_none cfg bound
  have hcovered := (Jumps.covers linker _ linker.bound).program hp
    (c := Checker.new m.baseDir) rfl rfl (List.Subset.refl _)
  have hlinks : ∀ entry ∈ cfg.files.flatten [] (p.outset m.baseDir), ∀ stmt,
      entry = .declaration stmt →
      ∀ site ∈ bodySites stmt,
        site.Good (linker.check p (Checker.new m.baseDir)).report.jumps .none := by
    rintro _ hentry stmt rfl
    refine hcovered stmt (Linker.expand_filter_subset _ _ ((linker.lists linker.bound m.baseDir []
      (p.statements.filter (·.isLink)) ?_).mem_expand (hfiles ▸ hentry)))
    exact Nat.lt_succ_of_le countP_le_length
  have hrun := Jumps.program hgood heval hexec (Simulates.forM fun entry hentry =>
    Jumps.takeOver heval (hlinks entry hentry)) bound [] (Jumps.inside _) _ _ (Jumps.alike_reset m)
  rw [run_eq_programWith hparse (h ▸ Outcome.failed_ne_exhausted)] at h
  rw [← takeOverAll, h] at hrun
  obtain ⟨_, _, ⟨⟩, ⟨-, hreported⟩ | ⟨stmt, -, hcaught⟩⟩ := Jumps.failed_of_alike hrun
  · exact hreported
  · exact nomatch hcaught

/-! ## Reported jumps fail -/

theorem isLink_of_links_eq_nil (h : p.links = []) : ∀ stmt ∈ p.statements, stmt.isLink = false := by
  intro stmt hstmt
  have hnone := filterMap_eq_nil_iff.1 h stmt hstmt
  cases stmt with
  | mindLink => exact nomatch hnone
  | _ => rfl

theorem jumps_check_iff (hparse : Program.ofText origin source = .ok p) (hlinks : p.links = [])
    (baseDir : String) (f : Code × Location) :
    f ∈ (linker.check p (Checker.new baseDir)).report.jumps ↔ f ∈ Site.findings p.sites := by
  obtain ⟨new, hmoves, hnew⟩ :=
    moves_program (linker.link linker.bound) (linkFree_sites hparse) (c :=
    Checker.new baseDir) rfl rfl
  have hbefore := (silent_names p (Checker.new baseDir)).trans
    (silent_followLinks (linker.link linker.bound) (isLink_of_links_eq_nil hlinks) _)
  rw [← hnew]
  exact (hbefore.trans hmoves).jumps ▸ Iff.rfl

theorem location_of_jumpError? {stmt : Stmt} (h : stmt.jumpError? = some e)
    (hf : e.finding? = some f) : stmt.location = f.2 := by
  cases stmt with
  | snap | sink | sinkTo =>
    obtain rfl := Option.some.inj h
    obtain rfl := Option.some.inj hf
    rfl
  | _ => exact nomatch h

theorem location_of_finding? {site : Site} (h : site.finding? = some f) :
    site.stmt.location = f.2 := by
  unfold Site.finding? at h
  cases hflow : site.stmt.flow? with
  | none =>
    rw [hflow] at h
    cases h
  | some flow =>
    simp only [hflow] at h
    split at h
    · cases h
    · obtain ⟨e, herror, hf⟩ := bind_eq_some_iff.1 h
      exact location_of_jumpError? (by rw [Stmt.jumpError?, hflow, bind_some, herror]) hf

theorem good_of_reported (hparse : Program.ofText origin source = .ok p) {jump : Stmt}
    (hjump : jump.jumpError? = some e) (hf : e.finding? = some f)
    (hreported : f ∈ Site.findings p.sites) :
    ∀ site ∈ p.sites, site.Good (Site.findings p.sites) (.on jump e) := by
  intro site hsite
  refine ⟨linkFree_sites hparse site hsite, fun f hf => mem_filterMap.2 ⟨site, hsite, hf⟩, ?_⟩
  intro hcaught
  obtain ⟨stray, hstray, hfinding⟩ := mem_filterMap.1 hreported
  have herror : site.stmt.jumpError? = some e := (Probe.jumpError?_of_on hcaught).trans hjump
  have hlocation : site.stmt.location = stray.stmt.location := by
    rw [location_of_jumpError? herror hf, location_of_finding? hfinding]
  rw [inj_on_of_nodup_map (nodup_sites hparse) hsite hstray hlocation, hfinding]
  exact some_ne_none f

theorem failed_of_executes (hparse : Program.ofText origin source = .ok p) (hlinks : p.links = [])
    {jump : Stmt} (hjump : jump.jumpError? = some e) (hf : e.finding? = some f)
    (hreported : f ∈ Site.findings p.sites) (h : p.Executes cfg bound m jump) :
    ∃ m', p.run cfg bound m = .failed e m' := by
  have hgood := good_of_reported hparse hjump hf hreported
  have hprobe : ∀ stmt : Stmt, stmt.jumpError? = none → Probe.on jump e stmt = none :=
    fun _ => Probe.on_eq_none
  obtain ⟨heval, -, hexec⟩ := Jumps.run cfg hprobe bound
  have hlinked : Sim (.probed (Site.findings p.sites) (.on jump e))
      (Pairing.probed (Site.findings p.sites)
        (.on jump e)).Inside Eq (p.statements.forM (followLink (link cfg bound)))
      (p.statements.forM (followLink (probedLink cfg (.on jump e) bound))) :=
    .forM fun stmt hstmt => Jumps.followLink (isLink_of_links_eq_nil hlinks stmt hstmt)
  have hrun : Outcome.Alike _ _ _ _ (p.run cfg bound m)
      (probedProgram cfg (.on jump e) bound p m.reset) :=
    Jumps.program hgood heval hexec hlinked bound [] (Jumps.inside _) _ _ (Jumps.alike_reset m)
  obtain ⟨n', hprobed⟩ := h e
  rw [hprobed] at hrun
  -- the run fails as the probed one does, or with the error of what the probe has caught
  obtain ⟨e', m', hfailed, ⟨rfl, -⟩ | ⟨stmt, herror, hcaught⟩⟩ := Jumps.failed_of_alike hrun
  · exact ⟨m', hfailed⟩
  · have hsame := Probe.jumpError?_of_on (hcaught ▸ some_ne_none e)
    rw [Option.some.inj (herror.symm.trans (hsame.trans hjump))] at hfailed
    exact ⟨m', hfailed⟩

/-! ## The check of jumps is exact -/

/-- **The check of jumps is exact.** Take a program that has been read from a text, and check and
run it with the same files and the same base directory. If a run ends because of a jump outside of a
loop or a jump to a label that is not there, then this has been reported at its position; so a
program without such reports never ends in this way. In a program without links, a run that executes
a jump that has been reported fails, and with the error of this very jump. -/
theorem run_jump_error_exact (origin : Origin) (source : String) (p : Program)
    (hparse : Program.ofText origin source = .ok p) (linker : Linker) (cfg : Settings)
    (hfiles : cfg.files = linker.files) (bound : Nat) (m : Machine) :
    (∀ word loc m', p.run cfg bound m = .failed (.raised (.jumpOutsideLoop word) loc) m' →
      ∃ d ∈ (linker.check p (Checker.new m.baseDir)).report.errors, d.code = .jumpOutsideLoop ∧
      d.location = loc) ∧
    (∀ label loc m', p.run cfg bound m = .failed (.raised (.unresolvedLabel label) loc) m' →
      ∃ d ∈ (linker.check p (Checker.new m.baseDir)).report.errors, d.code = .unknownLabel ∧
    d.location = loc) ∧ ((∀ d ∈ (linker.check p (Checker.new m.baseDir)).report.errors,
        d.code ≠ .jumpOutsideLoop ∧ d.code ≠ .unknownLabel) →
      ∀ e m', p.run cfg bound m = .failed e m' → e.isJump = false) ∧
    (p.links = [] → ∀ jump e, jump.jumpError? = some e →
      ∀ d ∈ (linker.check p (Checker.new m.baseDir)).report.errors,
        e.finding? = some (d.code, d.location) → p.Executes cfg bound m jump →
        ∃ m', p.run cfg bound m = .failed e m') := by
  refine ⟨fun word loc m' h => ?_, fun label loc m' h => ?_, fun hnone e m' h => ?_, ?_⟩
  · exact (mem_jumps_iff rfl).1 (reported_of_failed hparse hfiles h _ rfl)
  · exact (mem_jumps_iff rfl).1 (reported_of_failed hparse hfiles h _ rfl)
  · have hreported := reported_of_failed hparse hfiles h
    cases e with
    | output | panicked => rfl
    | raised cause loc =>
      cases cause with
      | jumpOutsideLoop =>
        obtain ⟨d, hd, hcode, -⟩ := (mem_jumps_iff rfl).1 (hreported _ rfl)
        exact absurd hcode (hnone d hd).1
      | unresolvedLabel =>
        obtain ⟨d, hd, hcode, -⟩ := (mem_jumps_iff rfl).1 (hreported _ rfl)
        exact absurd hcode (hnone d hd).2
      | _ => rfl
  · intro hlinks jump e hjump d hd hf hexecutes
    have hreported := (mem_jumps_iff (isJump_of_finding? hf)).2 ⟨d, hd, rfl, rfl⟩
    exact failed_of_executes hparse hlinks hjump hf
      ((jumps_check_iff hparse hlinks _ _).1 hreported) hexecutes

/-- A `snap` that is run inside of a loop but does not stand in it. -/
def straySnap : Program :=
  ⟨[.suggestion ⟨"f", [], none, [.snap ⟨1, 26⟩], false, false, ⟨1, 9⟩, .main⟩,
    .whileLoop (.boolean true ⟨1, 41⟩) [.expr (.call (.name "f" ⟨1, 49⟩) [] ⟨1, 50⟩) ⟨1, 49⟩]
      ⟨1, 34⟩]⟩

theorem straySnap_fails :
    Program.ofText .main "Focus { suggestion f() { snap; } while (true) { f(); } } Relax" =
      .ok straySnap ∧
    ((Linker.ofFiles .empty).check straySnap (Checker.new "")).report.errors =
      [(Finding.jumpOutsideLoop "snap").diagnose ⟨1, 26⟩] ∧
    straySnap.Executes ⟨.empty, 256⟩ 12 (.new "" [] none) (.snap ⟨1, 26⟩) ∧
    ∃ m', straySnap.run ⟨.empty, 256⟩ 12 (.new "" [] none) =
      .failed (.raised (.jumpOutsideLoop "snap") ⟨1, 26⟩) m' := by
  have hparse :
      Program.ofText .main "Focus { suggestion f() { snap; } while (true) { f(); } } Relax" =
      .ok straySnap := by with_unfolding_all rfl
  have hexecutes : straySnap.Executes ⟨.empty, 256⟩ 12 (.new "" [] none) (.snap ⟨1, 26⟩) :=
    fun e => ⟨_, rfl⟩
  obtain ⟨-, -, -, hfails⟩ := run_jump_error_exact .main _ straySnap hparse (Linker.ofFiles .empty)
    ⟨.empty, 256⟩ rfl 12 (.new "" [] none)
  exact ⟨hparse, rfl, hexecutes, hfails rfl _ _ rfl _ (List.mem_singleton_self _) rfl hexecutes⟩

end Program

end Trance
