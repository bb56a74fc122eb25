import Trance.Proofs.Linking.Reports

/-!
# Linked files on their own

A linked file is checked from the start, as a program of its own, but for one thing: the check knows
which files have been linked before, and passes over links to them. So a file that links such a file
does not see what it declares, and names of it are reported as undefined. This is the only
difference. Where nothing behind a file has been linked before, and the file is not behind itself,
the check of a link to it reports the errors that the file has on its own, and no others. -/

namespace Trance

open List Check Trance.Path Store

/-! ## Files linked before -/

def Checker.besides (d : Checker) (others : List FileKey) : Checker :=
  { d with linked := d.linked ++ others }

abbrev Likeness.besides (others : List FileKey) : Likeness := .elsewhere (· ++ others) id

namespace Check

variable {others : List FileKey}

theorem besides_mergeAll (nested : Checker) (symbols : List Symbol) (path : String)
    (loc : Location) : Alike (.besides others) 0 (mergeAll (nested.besides others) symbols path loc)
      (mergeAll nested symbols path loc) := by
  refine .bind (.change fun c d h => ?_) fun _ => .forM fun symbol _ =>
    alike_merge nested path loc symbol
  obtain rfl : c = d.besides others := h
  rfl

end Check

namespace Linker

variable {linker : Linker} {others : List FileKey} {bound bound' : Nat}

/-- `Besides others bound bound'`: links that do not lead to `others` are followed as if these had
not been linked before. -/
def Besides (linker : Linker) (others : List FileKey) (bound bound' : Nat) : Prop :=
  ∀ path loc (d : Checker), linker.files.unlinked (d.linked ++ others) < bound →
    linker.files.unlinked d.linked < bound' →
    List.Disjoint ((linker.link bound' path loc).run d).2.linked others →
    ((linker.link bound path loc).run (d.besides others)).2 =
      ((linker.link bound' path loc).run d).2.besides others

theorem Besides.followLinks (hlink : linker.Besides others bound bound') (body : List Stmt)
    (d : Checker) (hbound : linker.files.unlinked (d.linked ++ others) < bound)
    (hbound' : linker.files.unlinked d.linked < bound')
    (hapart : List.Disjoint ((body.forM (followLink (linker.link bound'))).run d).2.linked others) :
    ((body.forM (followLink (linker.link bound))).run (d.besides others)).2 =
      ((body.forM (followLink (linker.link bound'))).run d).2.besides others := by
  induction body generalizing d with
  | nil => rfl
  | cons stmt rest ih =>
    cases stmt with
    | mindLink path loc =>
      have hmore := (grows (linker.link bound' path loc) d).linked
      have hrest := grows (rest.forM (followLink (linker.link bound')))
        ((linker.link bound' path loc).run d).2
      have hfirst := hlink path loc d hbound hbound' fun key hkey => hapart (hrest.linked hkey)
      have hless : linker.files.unlinked (((linker.link bound' path loc).run d).2.linked ++
          others) < bound :=
        Nat.lt_of_le_of_lt (unlinked_le _ (append_subset.2
          ⟨subset_append_of_subset_left _ hmore, subset_append_right _ _⟩)) hbound
      have hlater := ih ((linker.link bound' path loc).run d).2 hless
        (Nat.lt_of_le_of_lt (unlinked_le _ hmore) hbound') hapart
      rw [← hfirst] at hlater
      exact hlater
    | _ => exact ih d hbound hbound' hapart

theorem Besides.program (hlink : linker.Besides others bound bound') {p : Program}
    (hp : LinkFree p.sites) {d : Checker} (hd : d.context = .top) (hnone : d.deferred = [])
    (hbound : linker.files.unlinked (d.linked ++ others) < bound)
    (hbound' : linker.files.unlinked d.linked < bound')
    (hapart : List.Disjoint ((Check.program (linker.link bound') p).run d).2.linked others) :
    ((Check.program (linker.link bound) p).run (d.besides others)).2 =
      ((Check.program (linker.link bound') p).run d).2.besides others := by
  obtain ⟨new, hmoves, -⟩ := moves_program (linker.link bound') hp hd hnone
  have hnames := silent_names p d
  have hdeclared : ((Check.names p).run (d.besides others)).2 =
      ((Check.names p).run d).2.besides others :=
    (alike_names (L := .besides others) (k := 0) (fun _ => trivial) p _ d rfl).2
  rw [hmoves.stays] at hapart
  have hfollowed := hlink.followLinks p.statements ((Check.names p).run d).2 (by rwa [hnames.stays])
    (by rwa [hnames.stays]) hapart
  rw [← hdeclared] at hfollowed
  have hafter : ((Check.program (linker.link bound') p).run d).2 = _ :=
    after_program_of_nil _ p hnone
  have hbeside : ((Check.program (linker.link bound) p).run (d.besides others)).2 = _ :=
    after_program_of_nil _ p hnone
  rw [hafter, hbeside]
  exact (alike_bodies (L := .besides others) (k := 0) (fun _ => trivial) _ _ hp _ _ hfollowed).2

/-- **What a link leads to is checked in the same way, whatever other files were linked before.** -/
theorem link_besides (linker : Linker) (others : List FileKey) (bound bound' : Nat) :
    linker.Besides others bound bound' := by
  induction bound generalizing bound' with
  | zero => exact fun _ _ _ hbound => nomatch hbound
  | succ bound ih =>
    intro path loc d hbound hbound' hapart
    obtain ⟨bound', rfl⟩ : ∃ less, bound' = less + 1 := ⟨bound' - 1, by omega⟩
    generalize htarget : join d.baseDir path = target
    have hsame : join (d.besides others).baseDir path = target := htarget
    by_cases hknown : linker.files.key target ∈ d.linked
    · rw [link_known bound' loc htarget hknown, link_known bound loc hsame
        (mem_append_left _ hknown)]
    -- a file that is newly linked is none of the others
    have hmem := key_mem_linked linker bound' path loc d
    rw [htarget] at hmem
    have hnew : linker.files.key target ∉ (d.besides others).linked := fun h =>
      (mem_append.1 h).elim hknown (hapart hmem)
    cases hload : linker.load? target with
    | none =>
      obtain ⟨finding, hfailed⟩ := exists_link_failed path loc hload
      rw [hfailed bound _ hsame hnew, hfailed bound' d htarget hknown]
      rfl
    | some p =>
      obtain ⟨source, hread, hparse⟩ := load?_eq_some hload
      have hless := unlinked_lt hread (by simpa using hnew)
      have hless' := unlinked_lt hread (by simpa using hknown)
      rw [(link_loaded bound' loc htarget hknown hload).2.1] at hapart
      have hnested : linker.nested bound target (d.besides others).linked p =
          (linker.nested bound' target d.linked p).besides others := by
        refine (ih bound').program (Program.linkFree_sites hparse) (d :=
          { Checker.new (parent target) with
            linked := linker.files.key target :: d.linked }) rfl rfl ?_ ?_
          hapart
        · exact Nat.lt_of_lt_of_le hless (Nat.le_of_lt_succ hbound)
        · exact Nat.lt_of_lt_of_le hless' (Nat.le_of_lt_succ hbound')
      rw [link_merged bound loc hsame hnew hload, link_merged bound' loc htarget hknown hload,
        hnested]
      exact (Check.besides_mergeAll _ _ path loc _ _ rfl).2

/-! ## Errors -/

theorem unlinked_lt_bound (linker : Linker) (linked : List FileKey) :
    linker.files.unlinked linked < linker.bound :=
  Nat.lt_succ_of_le countP_le_length

variable {c : Checker}

/-- **A linked file has the errors that it has on its own**, if nothing behind it has been linked
before. -/
theorem link_errors (loc : Location) {path target : String} {q : Program}
    (htarget : join c.baseDir path = target) (hbound : linker.files.unlinked c.linked < bound)
    (hnew : linker.files.key target ∉ c.linked) (hload : linker.load? target = some q)
    (hapart : (linker.behind target).Disjoint (linker.files.key target :: c.linked)) :
    ((linker.link bound path loc).run c).2.report.errors = c.report.errors ++
        (linker.check q (Checker.new (parent target))).report.errors.map (·.within path) := by
  obtain ⟨bound, rfl⟩ : ∃ less, bound = less + 1 := ⟨bound - 1, by omega⟩
  obtain ⟨source, hread, hparse⟩ := load?_eq_some hload
  have hq := Program.linkFree_sites hparse
  have hless := unlinked_lt hread (by simpa using hnew)
  have hlinked : (linker.check q (Checker.new (parent target))).linked = linker.behind target := by
    rw [behind, targets, hload]
    exact program_linked (link_linked linker linker.bound) hq rfl rfl
  rw [← hlinked] at hapart
  have hnested : linker.nested bound target c.linked q =
      (linker.check q (Checker.new (parent target))).besides (linker.files.key target :: c.linked) :=
    (link_besides linker _ bound linker.bound).program hq (d := Checker.new (parent target)) rfl rfl
      (Nat.lt_of_lt_of_le hless (Nat.le_of_lt_succ hbound)) (unlinked_lt_bound linker []) hapart
  rw [link_merged bound loc htarget hnew hload, errors_mergeAll
    (sorted_nested hq bound c.linked), hnested]
  rfl

/-- Links that lead, each at its turn, to a file that has been linked before, or else to files none
of which has. -/
def Apart (linker : Linker) : List FileKey → List String → Prop
  | _, [] => True
  | linked, target :: rest =>
    (linker.files.key target ∈ linked ∨
      (linker.behind target).Disjoint (linker.files.key target :: linked)) ∧
    Apart linker (linker.visit linker.bound linked target) rest

theorem Apart.errors_followLinks {body : List Stmt} (hbody : ∀ stmt ∈ body, stmt.isLink = true)
    (hclean : ∀ target ∈ Program.targets ⟨body⟩ c.baseDir, ∃ q, linker.load? target = some q ∧
      (linker.check q (Checker.new (parent target))).report.errors = [])
    (hapart : linker.Apart c.linked (Program.targets ⟨body⟩ c.baseDir)) (hc : c.report.errors = []) :
    ((body.forM (followLink (linker.link linker.bound))).run c).2.report.errors = [] := by
  induction body generalizing c with
  | nil => exact hc
  | cons stmt rest ih =>
    obtain ⟨hstmt, hrest⟩ := forall_mem_cons.1 hbody
    cases stmt with
    | mindLink path loc =>
      obtain ⟨⟨q, hload, hq⟩, hothers⟩ := forall_mem_cons.1 hclean
      obtain ⟨hfirst, hlater⟩ := hapart
      have hlinks := grows (linker.link linker.bound path loc) c
      have herrors : ((linker.link linker.bound path loc).run c).2.report.errors = [] := by
        by_cases hknown : linker.files.key (join c.baseDir path) ∈ c.linked
        · rw [bound, link_known _ loc rfl hknown, hc]
        · rw [link_errors loc rfl (unlinked_lt_bound linker c.linked) hknown hload
            (hfirst.resolve_left hknown), hc, hq]
          rfl
      refine ih (c := ((linker.link linker.bound path loc).run c).2) hrest ?_ ?_ herrors
      · rw [hlinks.baseDir]
        exact hothers
      · rw [hlinks.baseDir, link_linked]
        exact hlater
    | _ => exact nomatch hstmt

theorem forM_of_links {f : Stmt → Check Unit} (hf : ∀ path loc, f (.mindLink path loc) = pure ())
    {body : List Stmt} (hbody : ∀ stmt ∈ body, stmt.isLink = true) : body.forM f = pure () := by
  induction body with
  | nil => rfl
  | cons stmt rest ih =>
    obtain ⟨hstmt, hrest⟩ := forall_mem_cons.1 hbody
    cases stmt with
    | mindLink path loc =>
      show (f (.mindLink path loc) >>= fun _ => rest.forM f) = pure ()
      rw [hf, pure_bind, ih hrest]
    | _ => exact nomatch hstmt

theorem check_of_links {p : Program} (hlinks : ∀ stmt ∈ p.statements, stmt.isLink = true)
    (hc : c.deferred = []) : (linker.check p c).report =
      ((p.statements.forM (followLink (linker.link linker.bound))).run c).2.report := by
  rw [check_eq_after p hc]
  simp only [Check.names, bodies,
    forM_of_links (f := declareTypeName) (fun _ _ => rfl) hlinks,
    forM_of_links (f := declareSuggestionName) (fun _ _ => rfl) hlinks,
    forM_of_links (f := collectType) (fun _ _ => rfl) hlinks,
    forM_of_links (f := entrance _) (fun _ _ => rfl) hlinks,
    forM_of_links (f := mainEffect _) (fun _ _ => rfl) hlinks,
    forM_of_links (f := declarationBody _) (fun _ _ => rfl) hlinks]
  rfl

/-- **Linked files have the errors that they have on their own**, as long as nothing behind them has
been linked before. Take a link, in any state of a check, to a program that has not been linked. If
no file behind it is this file itself or has been linked before, then the link is reported with the
errors of the program checked on its own, and no others. So a program that consists of links to
files without errors has none, if each link leads to a file that has been linked by then, or to one
such that nothing behind it has been linked. -/
theorem links_apart_have_own_errors (linker : Linker) :
    (∀ (bound : Nat) (path : String) (loc : Location) (c : Checker) (q : Program),
      linker.files.unlinked c.linked < bound →
      linker.files.key (join c.baseDir path) ∉ c.linked →
      linker.load? (join c.baseDir path) = some q →
      (linker.behind (join c.baseDir path)).Disjoint
      (linker.files.key (join c.baseDir path) :: c.linked) →
      ((linker.link bound path loc).run c).2.report.errors = c.report.errors ++
          (linker.check q (Checker.new (parent (join c.baseDir path)))).report.errors.map
    (·.within path)) ∧ ∀ (p : Program) (dir : String), (∀ stmt ∈ p.statements, stmt.isLink = true) →
      (∀ target ∈ p.targets dir, ∃ q, linker.load? target = some q ∧
        (linker.check q (Checker.new (parent target))).report.errors = []) →
      linker.Apart [] (p.targets dir) →
      (linker.check p (Checker.new dir)).report.errors = [] := by
  refine ⟨fun bound path loc c q hbound hnew hload hapart =>
    link_errors loc rfl hbound hnew hload hapart,
    fun p dir hlinks hclean hapart => ?_⟩
  rw [check_of_links hlinks rfl]
  exact Apart.errors_followLinks hlinks hclean hapart rfl

end Linker

/-! ## An example of a shared file -/

/-- Two files: `a.hyp` links `b.hyp`, and shows a variable that is declared there. -/
def Store.shared : Store :=
  .pair "Focus mindLink \"b.hyp\"; observe x; Relax" "Focus induce x = \"1\"; Relax"

def Program.showing : Program :=
  ⟨[.mindLink "b.hyp" ⟨1, 7⟩, .observe (.name "x" ⟨1, 33⟩) ⟨1, 25⟩]⟩

def Program.holding : Program := ⟨[.induce ⟨"x", none, .value (.text "1" ⟨1, 18⟩), ⟨1, 7⟩⟩]⟩

def Program.linking (first second : String) : Program :=
  ⟨[.mindLink first ⟨1, 7⟩, .mindLink second ⟨1, 25⟩]⟩

namespace Linker

theorem load?_showing : (ofFiles .shared).load? "a.hyp" = some .showing :=
  load?_pair_first (by with_unfolding_all rfl)

theorem load?_holding : (ofFiles .shared).load? "b.hyp" = some .holding :=
  load?_pair_second (by with_unfolding_all rfl)

theorem link_holding : (((ofFiles .shared).link 3 "b.hyp" ⟨1, 7⟩).run (Checker.new "")).2 =
    { Checker.new "" with
      scopes := ⟨[], [⟨"x", .variable, some Ty.text.name, none⟩]⟩
      linked := [shared.key "b.hyp"] } := by
  rw [link_merged 2 ⟨1, 7⟩ (join_empty "b.hyp") (by simp [Checker.new]) load?_holding]
  rfl

theorem errors_holding : ((ofFiles .shared).check .holding (Checker.new "")).report.errors = [] :=
  rfl

theorem errors_showing : ((ofFiles .shared).check .showing (Checker.new "")).report.errors = [] := by
  rw [check_eq_after .showing rfl]
  show ((bodies ((ofFiles .shared).link 3) .showing).run
    (((ofFiles .shared).link 3 "b.hyp" ⟨1, 7⟩).run (Checker.new "")).2).2.report.errors = []
  rw [link_holding]
  rfl

theorem visit_showing (linked : List FileKey) (h : shared.key "b.hyp" ∉ linked) (bound : Nat) :
    ((ofFiles .shared).targets "a.hyp").foldl ((ofFiles .shared).visit (bound + 1)) linked =
      shared.key "b.hyp" :: linked := by
  rw [targets, load?_showing]
  show (ofFiles .shared).visit (bound + 1) linked (join (parent "a.hyp") "b.hyp") = _
  rw [join_parent_pair, visit, targets, load?_holding, ofFiles, if_neg h]
  rfl

/-- In one order the links are apart: `b.hyp` has been linked when its turn comes. -/
theorem showing_holding_own_errors :
    (ofFiles .shared).Apart [] ((Program.linking "a.hyp" "b.hyp").targets "") ∧
    (((ofFiles .shared).link 3 "a.hyp" ⟨1, 7⟩).run (Checker.new "")).2.report.errors = [] ∧
    ((ofFiles .shared).check (.linking "a.hyp" "b.hyp") (Checker.new "")).report.errors = [] := by
  have hkeys : shared.key "b.hyp" ∉ [shared.key "a.hyp"] := key_pair_notMem
  have hdisjoint : ((ofFiles .shared).behind "a.hyp").Disjoint [shared.key "a.hyp"] := by
    rw [behind, bound, visit_showing [] not_mem_nil]
    exact singleton_disjoint.2 hkeys
  have htargets : (Program.linking "a.hyp" "b.hyp").targets "" = ["a.hyp", "b.hyp"] := by
    show [join "" "a.hyp", join "" "b.hyp"] = _
    rw [join_empty, join_empty]
  have hapart : (ofFiles .shared).Apart [] ["a.hyp", "b.hyp"] := by
    refine ⟨.inr hdisjoint, .inl ?_, trivial⟩
    rw [bound, visit, if_neg not_mem_nil]
    exact (visit_showing [shared.key "a.hyp"] hkeys 1).symm ▸ mem_cons_self
  have hown := links_apart_have_own_errors (ofFiles .shared)
  refine ⟨htargets ▸ hapart, ?_, hown.2 _ "" (by decide) ?_ (htargets ▸ hapart)⟩
  · have herrors := hown.1 3 "a.hyp" ⟨1, 7⟩ (Checker.new "") .showing (by decide) not_mem_nil
    simp only [show (Checker.new "").baseDir = "" from rfl, join_empty] at herrors
    rw [herrors load?_showing hdisjoint, show parent "a.hyp" =
      "" by with_unfolding_all rfl, errors_showing]
    rfl
  · rw [htargets]
    refine forall_mem_cons.2 ⟨⟨_, load?_showing, ?_⟩, forall_mem_singleton.2 ⟨_, load?_holding, ?_⟩⟩
    · rw [show parent "a.hyp" = "" by with_unfolding_all rfl, errors_showing]
    · rw [show parent "b.hyp" = "" by with_unfolding_all rfl, errors_holding]

/-- **A file that has been linked before is missing behind a later link.** Neither file has an error
on its own. Linked after `b.hyp`, `a.hyp` passes over its own link to it, and the variable that is
declared there is undefined. -/
theorem holding_showing_reported :
    Program.ofText .main "Focus mindLink \"b.hyp\"; mindLink \"a.hyp\"; Relax" =
      .ok (.linking "b.hyp" "a.hyp") ∧
    (ofFiles .shared).load? "a.hyp" = some .showing ∧
    (ofFiles .shared).load? "b.hyp" = some .holding ∧
    ((ofFiles .shared).check .showing (Checker.new "")).report.errors = [] ∧
    ((ofFiles .shared).check .holding (Checker.new "")).report.errors = [] ∧
    ((ofFiles .shared).check (.linking "b.hyp" "a.hyp") (Checker.new "")).report.errors =
      [⟨.undefinedVariable, "a.hyp: Undefined variable 'x'", ⟨1, 33⟩⟩] := by
  refine ⟨by with_unfolding_all rfl, load?_showing, load?_holding, errors_showing, errors_holding,
    ?_⟩
  have hnew : shared.key "a.hyp" ∉ [shared.key "b.hyp"] :=
    fun h => key_pair_notMem (mem_singleton.2 (mem_singleton.1 h).symm)
  have hnested : (ofFiles .shared).nested 2 "a.hyp" [shared.key "b.hyp"] .showing =
      ((bodies ((ofFiles .shared).link 2) .showing).run { Checker.new (parent "a.hyp") with
        linked := [shared.key "a.hyp", shared.key "b.hyp"] }).2 := by
    refine (after_program_of_nil ((ofFiles .shared).link 2) .showing rfl).trans ?_
    show ((bodies ((ofFiles .shared).link 2) .showing).run
      (((ofFiles .shared).link 2 "b.hyp" ⟨1, 7⟩).run { Checker.new (parent "a.hyp") with
        linked := [shared.key "a.hyp", shared.key "b.hyp"] }).2).2 = _
    rw [link_known 1 ⟨1, 7⟩ join_parent_pair (mem_cons_of_mem _ mem_cons_self)]
  rw [check_eq_after _ rfl]
  show (((ofFiles .shared).link 3 "a.hyp" ⟨1, 25⟩).run
    (((ofFiles .shared).link 3 "b.hyp" ⟨1, 7⟩).run (Checker.new "")).2).2.report.errors = _
  rw [link_holding, link_merged 2 ⟨1, 25⟩ (join_empty "a.hyp") hnew load?_showing, hnested]
  rfl

end Linker

end Trance
