import Trance.Proofs.Linking.Walk

/-!
# What is reported about linked files

What the check of a linked file reports is passed on to the check that follows the link, errors as
errors and warnings as warnings. Symbols that are taken over add nothing but warnings. So a link
adds the errors of the linked file, and no others. -/

namespace Trance

open List

/-! ## Reports -/

namespace Report

/-- Errors and warnings stand where they belong. -/
structure Sorted (r : Report) : Prop where
  errors : ∀ d ∈ r.errors, d.severity = .error
  warnings : ∀ d ∈ r.warnings, d.severity = .warning

theorem Sorted.empty : Report.empty.Sorted := ⟨nofun, nofun⟩

theorem Sorted.add {r : Report} (h : r.Sorted) (d : Diagnostic) : (r.add d).Sorted := by
  unfold Report.add
  cases hd : d.severity with
  | error =>
    refine ⟨fun e he => ?_, h.warnings⟩
    obtain he | he := mem_append.1 he
    · exact h.errors e he
    · rw [mem_singleton.1 he, hd]
  | warning =>
    refine ⟨h.errors, fun e he => ?_⟩
    obtain he | he := mem_append.1 he
    · exact h.warnings e he
    · rw [mem_singleton.1 he, hd]

theorem Sorted.passed {r : Report} (h : r.Sorted) (path : String) (passed : List Diagnostic) :
    (passed.foldl (fun report d => report.add (d.within path)) r).Sorted := by
  induction passed generalizing r with
  | nil => exact h
  | cons d rest ih => exact ih (h.add (d.within path))

theorem errors_foldl_errors (path : String) {passed : List Diagnostic}
    (h : ∀ d ∈ passed, d.severity = .error) (r : Report) :
    (passed.foldl (fun report d => report.add (d.within path)) r).errors = r.errors ++ passed.map
    (·.within path) := by
  induction passed generalizing r with
  | nil => exact (append_nil _).symm
  | cons d rest ih =>
    obtain ⟨hd, hrest⟩ := forall_mem_cons.1 h
    have hadd : (r.add (d.within path)).errors = r.errors ++ [d.within path] := by
      simp [add, show (d.within path).severity = .error from hd]
    rw [foldl_cons, ih hrest, hadd, map_cons, append_assoc, singleton_append]

theorem errors_foldl_warnings (path : String) {passed : List Diagnostic}
    (h : ∀ d ∈ passed, d.severity = .warning) (r : Report) :
    (passed.foldl (fun report d => report.add (d.within path)) r).errors = r.errors := by
  induction passed generalizing r with
  | nil => rfl
  | cons d rest ih =>
    obtain ⟨hd, hrest⟩ := forall_mem_cons.1 h
    rw [foldl_cons, ih hrest]
    simp [add, show (d.within path).severity = .warning from hd]

theorem errors_passed {passed : Report} (h : passed.Sorted) (path : String) (r : Report) :
    (passed.all.foldl (fun report d => report.add (d.within path)) r).errors =
      r.errors ++ passed.errors.map (·.within path) := by
  rw [all, foldl_append, errors_foldl_warnings path h.warnings, errors_foldl_errors path h.errors]

end Report

/-! ## Symbols that are taken over -/

namespace Check

variable {nested c : Checker} {path : String} {loc : Location}

theorem merge_report (nested : Checker) (path : String) (loc : Location) (symbol : Symbol)
    (c : Checker) : ((merge nested path loc symbol).run c).2.report = c.report ∨
    ((merge nested path loc symbol).run c).2.report =
      c.report.add ((Finding.linkCollision symbol.name path).diagnose loc) := by
  unfold merge
  simp only [StateT.run_bind, StateT.run_get, pure_bind]
  cases c.scopes.defineGlobal? symbol with
  | none => exact .inr rfl
  | some scopes =>
    left
    cases symbol.kind with
    | session => cases nested.sessions.find? symbol.name <;> rfl
    | record => cases nested.records.find? symbol.name <;> rfl
    | _ => rfl

theorem merges_report (symbols : List Symbol) (c : Checker) :
    ((symbols.forM (merge nested path loc)).run c).2.report.errors = c.report.errors ∧
    (c.report.Sorted → ((symbols.forM (merge nested path loc)).run c).2.report.Sorted) := by
  induction symbols generalizing c with
  | nil => exact ⟨rfl, id⟩
  | cons symbol rest ih =>
    obtain ⟨herrors, hsorted⟩ := ih ((merge nested path loc symbol).run c).2
    obtain hsame | hwarns := merge_report nested path loc symbol c
    · rw [hsame] at herrors hsorted
      exact ⟨herrors, hsorted⟩
    · rw [hwarns] at herrors hsorted
      exact ⟨herrors, fun h => hsorted (h.add _)⟩

theorem errors_mergeAll (hnested : nested.report.Sorted) (symbols : List Symbol) (c : Checker) :
    ((mergeAll nested symbols path loc).run c).2.report.errors =
      c.report.errors ++ nested.report.errors.map (·.within path) :=
  (merges_report _ _).1.trans (Report.errors_passed hnested path c.report)

end Check

/-! ## Checks -/

def Likeness.sorted : Likeness where
  rel _ c d := c = d ∧ d.report.Sorted
  opens _ := True
  resolve? := by rintro _ c _ ⟨rfl, _⟩ _; rfl
  session? := by rintro _ c _ ⟨rfl, _⟩ _; rfl
  record? := by rintro _ c _ ⟨rfl, _⟩ _; rfl
  context := by rintro _ c _ ⟨rfl, _⟩; rfl
  report := by rintro _ c _ ⟨rfl, h⟩ d; exact ⟨rfl, h.add d⟩
  define := by
    rintro _ c _ ⟨rfl, h⟩ symbol _
    cases hdefine : c.scopes.define? symbol with
    | none => exact .inl ⟨rfl, rfl⟩
    | some s => exact .inr ⟨s, s, rfl, rfl, rfl, h⟩
  retype := by rintro _ c _ ⟨rfl, h⟩ _ _; exact ⟨rfl, h⟩
  know := by rintro _ c _ ⟨rfl, h⟩ _ _; exact ⟨rfl, h⟩
  knowRecord := by rintro _ c _ ⟨rfl, h⟩ _ _; exact ⟨rfl, h⟩
  enter := by rintro _ c _ ⟨rfl, h⟩ _; exact ⟨rfl, h⟩
  exit := by rintro _ c _ ⟨rfl, h⟩; exact ⟨rfl, h⟩
  move := by rintro _ c _ ⟨rfl, h⟩ _; exact ⟨rfl, h⟩

theorem Check.sorted_program {link : Follower}
    (hlink : ∀ path loc (c : Checker), c.report.Sorted → ((link path loc).run c).2.report.Sorted)
    [∀ path loc, Blind (link path loc)] {p : Program} (hp : LinkFree p.sites) {c : Checker}
    (hc : c.report.Sorted)
    (hnone : c.deferred = []) : ((program link p).run c).2.report.Sorted := by
  have hfollow : ∀ (body : List Stmt) (c : Checker), c.report.Sorted →
      ((body.forM (followLink link)).run c).2.report.Sorted := by
    intro body
    induction body with
    | nil => exact fun c hc => hc
    | cons stmt rest ih =>
      intro c hc
      cases stmt with
      | mindLink path loc => exact ih _ (hlink path loc c hc)
      | _ => exact ih c hc
  have hnames := (alike_names (L := .sorted) (k := 0) (fun _ => trivial) p c c ⟨rfl, hc⟩).2.2
  have hafter : ((program link p).run c).2 = _ := after_program_of_nil link p hnone
  rw [hafter]
  exact (alike_bodies (L := .sorted) (k := 0) (fun _ => trivial) link link hp _ _
    ⟨rfl, hfollow p.statements _ hnames⟩).2.2

theorem Linker.sorted_link (linker : Linker) (bound : Nat) (path : String) (loc : Location)
    (c : Checker)
    (hc : c.report.Sorted) : ((linker.link bound path loc).run c).2.report.Sorted := by
  induction bound generalizing path loc c with
  | zero => exact hc
  | succ bound ih =>
    by_cases hnew : linker.files.key (Path.join c.baseDir path) ∈ c.linked
    · rw [link_known bound loc rfl hnew]
      exact hc
    cases hload : linker.load? (Path.join c.baseDir path) with
    | none =>
      obtain ⟨finding, hfailed⟩ := exists_link_failed path loc hload
      rw [hfailed bound c rfl hnew]
      exact hc.add _
    | some p =>
      rw [link_merged bound loc rfl hnew hload]
      exact (Check.merges_report _ _).2 (hc.passed _ _)

theorem Linker.sorted_nested {linker : Linker} {target : String} {p : Program}
    (hp : LinkFree p.sites)
    (bound : Nat) (linked : List FileKey) : (linker.nested bound target linked p).report.Sorted :=
  Check.sorted_program (sorted_link linker bound) hp
    (c := { Checker.new _ with linked := _ }) .empty rfl

end Trance
