import Mathlib.Data.List.Count
import Trance.Proofs.Checking.Deferring
import Trance.Proofs.Jumps.Source

/-!
# Linked files

The check of a program follows links with a list of the files linked so far. It nests links only to
a bound, and the bound is never reached: there is one file less to link each time. What the check of
a linked file reports is passed on. -/

namespace Trance

open List

/-! ## Files that are left -/

namespace Store

/-- The number of files that are not linked. -/
def unlinked (files : Store) (linked : List FileKey) : Nat :=
  files.nodes.countP fun node => !linked.contains ⟨true, node.1⟩

variable {files : Store} {linked linked' : List FileKey}

theorem unlinked_le (files : Store) (h : linked ⊆ linked') :
    files.unlinked linked' ≤ files.unlinked linked := by
  refine countP_mono_left fun node _ hnode => ?_
  simp only [Bool.not_eq_true', contains_eq_mem, decide_eq_false_iff_not] at hnode ⊢
  exact fun hmem => hnode (h hmem)

theorem mem_nodes_of_read {path source : String} (h : files.read path = .ok source) :
    ∃ names, (names, Node.file (some source)) ∈ files.nodes ∧ files.key path = ⟨true, names⟩ := by
  unfold read at h
  unfold key
  cases hresolve : files.resolve path with
  | error e =>
    rw [hresolve] at h
    exact nomatch h
  | ok names =>
    simp only [hresolve] at h
    unfold node? at h
    cases hfind : files.nodes.find? (·.1 = names) with
    | none =>
      simp only [hfind] at h
      by_cases hdirectory : (names.isEmpty || names.isPrefixOf files.workDir ||
          files.nodes.any fun node => names.isPrefixOf node.1) = true
      · rw [if_pos hdirectory] at h
        exact nomatch h
      · rw [if_neg hdirectory] at h
        exact nomatch h
    | some node =>
      obtain ⟨found, content⟩ := node
      have hnames : found = names := by simpa using List.find?_some hfind
      have hcontent : content = .file (some source) := by
        simp only [hfind] at h
        split at h <;> simp_all
      exact ⟨names, hnames ▸ hcontent ▸ mem_of_find?_eq_some hfind, rfl⟩

theorem unlinked_lt {path source : String} (h : files.read path = .ok source)
    (hnew : linked.contains (files.key path) = false) :
    files.unlinked (files.key path :: linked) < files.unlinked linked := by
  obtain ⟨names, hmem, hkey⟩ := mem_nodes_of_read h
  have hunlinked : (names, Node.file (some source)) ∈
      files.nodes.filter fun node => !linked.contains ⟨true, node.1⟩ := by
    rw [mem_filter, ← hkey, hnew]
    exact ⟨hmem, rfl⟩
  calc files.unlinked (files.key path :: linked)
      = (files.nodes.filter fun node => !linked.contains ⟨true, node.1⟩).countP
          fun node => !(⟨true, node.1⟩ == files.key path) := by
        simp only [unlinked, countP_filter, contains_cons, Bool.not_or]
    _ < (files.nodes.filter fun node => !linked.contains ⟨true, node.1⟩).length :=
        countP_lt_length_iff.2 ⟨_, hunlinked, by simp [hkey]⟩
    _ = files.unlinked linked := countP_eq_length_filter.symm

end Store

/-- The program in a file, if there is one. -/
def Linker.load? (linker : Linker) (target : String) : Option Program :=
  match linker.files.read target with
  | .error _ => none
  | .ok source => (Program.ofText (linker.files.key target).origin source).toOption

/-! ## Checks that follow links -/

namespace Report

theorem jumps_within (path : String) (passed : List Diagnostic) (r : Report) :
    (passed.foldl (fun report d => report.add (d.within path)) r).jumps =
      r.jumps ++ (passed.filter (·.code.isJump)).map fun d => (d.code, d.location) := by
  induction passed generalizing r with
  | nil => simp
  | cons d rest ih =>
    rw [foldl_cons, ih, jumps_add]
    cases hjump : d.code.isJump <;> simp [Diagnostic.within, hjump]

theorem errors_within (path : String) (passed : List Diagnostic) (r : Report) :
    r.errors <+: (passed.foldl (fun report d => report.add (d.within path)) r).errors := by
  induction passed generalizing r with
  | nil => exact prefix_rfl
  | cons d rest ih => exact (errors_add r _).trans (ih _)

theorem warnings_within (path : String) (passed : List Diagnostic) (r : Report) :
    r.warnings <+: (passed.foldl (fun report d => report.add (d.within path)) r).warnings := by
  induction passed generalizing r with
  | nil => exact prefix_rfl
  | cons d rest ih => exact (warnings_add r _).trans (ih _)

end Report

namespace Check

theorem silent_merge (nested : Checker) (path : String) (loc : Location) (symbol : Symbol) :
    Silent (merge nested path loc symbol) := by
  intro c
  unfold merge
  simp only [StateT.run_bind, StateT.run_get, pure_bind]
  cases hdefine : c.scopes.defineGlobal? symbol with
  | none => exact Notes.report rfl loc c
  | some scopes =>
    have hbound : c.Moves { c with scopes } [] :=
      ⟨.extend (Scopes.extends_defineGlobal? hdefine), rfl, (append_nil _).symm⟩
    refine Checker.Moves.trans hbound ?_
    cases symbol.kind with
    | session =>
      cases nested.sessions.find? symbol.name with
      | none => exact .refl _
      | some info =>
        exact Notes.quiet (x := modify fun c =>
          { c with sessions := c.sessions.insert symbol.name info })
          (fun _ => ⟨rfl, rfl⟩) { c with scopes }
    | record =>
      cases nested.records.find? symbol.name with
      | none => exact .refl _
      | some info =>
        exact Notes.quiet (x := modify fun c =>
          { c with records := c.records.insert symbol.name info })
          (fun _ => ⟨rfl, rfl⟩) { c with scopes }
    | _ => exact .refl _

theorem mergeAll_run (nested : Checker) (symbols : List Symbol) (path : String) (loc : Location)
    (c : Checker) :
    (c.linked ⊆ nested.linked → c.Grows ((mergeAll nested symbols path loc).run c).2) ∧
    ((mergeAll nested symbols path loc).run c).2.linked = nested.linked ∧
    nested.report.jumps ⊆ ((mergeAll nested symbols path loc).run c).2.report.jumps := by
  have hmerged := Notes.silent_forM
    (fun symbol (_ : symbol ∈ symbols.filter (·.kind ≠ .label)) =>
      silent_merge nested path loc symbol)
    { c with
      report := nested.report.all.foldl (fun report d => report.add (d.within path)) c.report
      linked := nested.linked }
  refine ⟨fun hlinked => Checker.Grows.trans ?_ hmerged.toGrows, hmerged.stays, ?_⟩
  · exact ⟨⟨Report.errors_within path _ _, Report.warnings_within path _ _, fun _ h => h⟩, rfl, rfl,
      hlinked, .refl _⟩
  · refine List.Subset.trans ?_ (Report.jumps_subset hmerged.errors)
    simp only [Report.jumps_within, Report.all, filter_append, map_append]
    exact subset_append_of_subset_right _ (subset_append_left _ _)

theorem run_followLinks (link : Follower) {body : List Stmt}
    (h : ∀ stmt ∈ body, stmt.isLink = false) (c : Checker) :
    (body.forM (followLink link)).run c = ((), c) := by
  induction body with
  | nil => rfl
  | cons stmt rest ih =>
    obtain ⟨hstmt, hrest⟩ := forall_mem_cons.1 h
    cases stmt with
    | mindLink => exact nomatch hstmt
    | _ => exact ih hrest

theorem silent_followLinks (link : Follower) {body : List Stmt}
    (h : ∀ stmt ∈ body, stmt.isLink = false) :
    Silent (body.forM (followLink link)) := by
  intro c
  rw [run_followLinks link h]
  exact .refl c

theorem moves_program (link : Follower) [∀ path loc, Growing (link path loc)]
    [∀ path loc, Blind (link path loc)] {p : Program} (hp : LinkFree p.sites) {c : Checker}
    (hc : c.context = .top) (hnone : c.deferred = []) :
    ∃ new, ((p.statements.forM (followLink link)).run ((names p).run c).2).2.Moves
      ((program link p).run c).2 new ∧ ∀ f, f ∈ new ↔ f ∈ Site.findings p.sites := by
  have hafter : ((program link p).run c).2 = _ := after_program_of_nil link p hnone
  rw [hafter]
  exact moves_bodies link hp
    (((grows (names p) c).trans (grows (p.statements.forM (followLink link)) _)).context.trans hc)

end Check

namespace Linker

variable {linker : Linker} {path target : String} {c : Checker} {p : Program}

def nested (linker : Linker) (bound : Nat) (target : String) (linked : List FileKey) (p : Program) :
    Checker :=
  ((Check.program (linker.link bound) p).run
    { Checker.new (Path.parent target) with linked := linker.files.key target :: linked }).2

theorem load?_eq_some (h : linker.load? target = some p) :
    ∃ source, linker.files.read target = .ok source ∧
    Program.ofText (linker.files.key target).origin source = .ok p := by
  unfold load? at h
  cases hread : linker.files.read target with
  | error e =>
    rw [hread] at h
    exact nomatch h
  | ok source =>
    refine ⟨source, rfl, ?_⟩
    simp only [hread] at h
    cases hparse : Program.ofText (linker.files.key target).origin source with
    | error e =>
      rw [hparse] at h
      exact nomatch h
    | ok program =>
      rw [hparse] at h
      rw [Option.some.inj h]

theorem exists_link_failed (path : String) (loc : Location) (h : linker.load? target = none) :
    ∃ finding : Finding, ∀ (bound : Nat) (c : Checker), Path.join c.baseDir path = target →
      linker.files.key target ∉ c.linked →
      ((linker.link (bound + 1) path loc).run c).2 = { c with
        report := c.report.add (finding.diagnose loc)
        linked := linker.files.key target :: c.linked } := by
  unfold load? at h
  cases hread : linker.files.read target with
  | error e =>
    refine ⟨.unreadableLink path e, fun bound c htarget hnew => ?_⟩
    simp only [link, htarget, hread, StateT.run_bind, StateT.run_get, pure_bind, contains_eq_mem,
      hnew, decide_false, Bool.false_eq_true, if_false]
    rfl
  | ok source =>
    simp only [hread] at h
    cases hparse : Program.ofText (linker.files.key target).origin source with
    | error e =>
      refine ⟨.unparsableLink path e, fun bound c htarget hnew => ?_⟩
      simp only [link, htarget, hread, hparse, StateT.run_bind, StateT.run_get, pure_bind,
        contains_eq_mem, hnew, decide_false, Bool.false_eq_true, if_false]
      rfl
    | ok program =>
      rw [hparse] at h
      exact nomatch h

section

variable (bound : Nat) (loc : Location) (htarget : Path.join c.baseDir path = target)
include htarget

theorem link_known (h : linker.files.key target ∈ c.linked) :
    ((linker.link (bound + 1) path loc).run c).2 = c := by
  have hrun : (linker.link (bound + 1) path loc).run c = (pure () : Check Unit).run c := by
    simp [link, htarget, h]
  exact congrArg Prod.snd hrun

variable (hnew : linker.files.key target ∉ c.linked)
include hnew

theorem link_merged (h : linker.load? target = some p) :
    ((linker.link (bound + 1) path loc).run c).2 =
    ((Check.mergeAll (linker.nested bound target c.linked p)
      (linker.arrange (linker.files.key target)
        (linker.nested bound target c.linked p).scopes.globals) path loc).run
      { c with linked := linker.files.key target :: c.linked }).2 := by
  obtain ⟨source, hread, hparse⟩ := load?_eq_some h
  simp [link, htarget, hnew, hread, hparse, Linker.nested]

theorem link_failed (h : linker.load? target = none) :
    c.Grows ((linker.link (bound + 1) path loc).run c).2 ∧
    ((linker.link (bound + 1) path loc).run c).2.linked = linker.files.key target :: c.linked := by
  obtain ⟨finding, hfailed⟩ := exists_link_failed path loc h
  rw [hfailed bound c htarget hnew]
  exact ⟨{ Checker.Grows.add c (finding.diagnose loc) with linked := subset_cons_self _ _ }, rfl⟩

theorem link_loaded (h : linker.load? target = some p) :
    (linker.files.key target :: c.linked ⊆ (linker.nested bound target c.linked p).linked →
      c.Grows ((linker.link (bound + 1) path loc).run c).2) ∧
    ((linker.link (bound + 1) path loc).run c).2.linked =
      (linker.nested bound target c.linked p).linked ∧
    (linker.nested bound target c.linked p).report.jumps ⊆
      ((linker.link (bound + 1) path loc).run c).2.report.jumps := by
  obtain ⟨hgrows, hlinked, hjumps⟩ := Check.mergeAll_run (linker.nested bound target c.linked p)
    (linker.arrange (linker.files.key target)
    (linker.nested bound target c.linked p).scopes.globals) path loc
    { c with linked := linker.files.key target :: c.linked }
  rw [link_merged bound loc htarget hnew h]
  exact ⟨fun hmore => { hgrows hmore with
      linked := fun _ hkey => (hgrows hmore).linked (mem_cons_of_mem _ hkey) },
    hlinked, hjumps⟩

end

/-- **A check that follows a link only adds to what it has.** -/
instance growing_link (linker : Linker) (bound : Nat) (path : String) (loc : Location) :
    Check.Growing (linker.link bound path loc) := by
  induction bound generalizing path loc with
  | zero => exact inferInstanceAs (Check.Growing (pure ()))
  | succ bound ih =>
    refine ⟨fun c => ?_⟩
    by_cases hnew : linker.files.key (Path.join c.baseDir path) ∈ c.linked
    · rw [link_known bound loc rfl hnew]
      exact .refl c
    cases hload : linker.load? (Path.join c.baseDir path) with
    | none => exact (link_failed bound loc rfl hnew hload).1
    | some p =>
      have hnested := Check.grows (Check.program (linker.link bound) p)
        { Checker.new (Path.parent (Path.join c.baseDir path)) with
          linked := linker.files.key (Path.join c.baseDir path) :: c.linked }
      exact (link_loaded bound loc rfl hnew hload).1 hnested.linked

end Linker

end Trance
