import Trance.Proofs.Checking.TypeNames
import Trance.Proofs.Running.Custody

/-!
# Errors about type names

A run can fail because the type of a record literal is not known, or because the name of a record
type is used as a value. If the check of a program without links reports no error, then in both
cases the name is that of a declared record type. Its declaration has not taken effect where it is
needed: it stands inside of a block or a body, or behind a session with a dominant field, whose
first value is evaluated while the declarations of the program take effect one after another. -/

namespace Trance

open Exec

/-! ## Declarations that evaluate nothing -/

/-- A session with a dominant field that starts with a value. -/
def Stmt.StartsDominant (s : Stmt) : Prop :=
  ∃ session, s = .session session ∧ ∃ member ∈ session.members, member.dominant = true ∧
    ∃ field init, member.decl = .field field ∧ field.start = .value init

namespace Exec

variable {α β : Type}

def FailsPlainly (x : Exec α) : Prop :=
  ∀ m e m', x m = .failed e m' → e.isPlain = true

theorem bind_eq_failed {x : Exec α} {f : α → Exec β} {e : RuntimeError} {m m' : Machine}
    (h : (x >>= f) m = .failed e m') :
    x m = .failed e m' ∨ ∃ a m₁, x m = .done a m₁ ∧ f a m₁ = .failed e m' := by
  simp only [Bind.bind, Exec.bind] at h
  cases hx : x m with
  | done a m₁ =>
    rw [hx] at h
    exact .inr ⟨a, m₁, rfl, h⟩
  | failed e₁ m₁ =>
    rw [hx] at h
    cases h
    exact .inl rfl
  | exhausted =>
    rw [hx] at h
    cases h

namespace FailsPlainly

theorem pure (a : α) : FailsPlainly (Pure.pure a : Exec α) := nofun

theorem bind {x : Exec α} {f : α → Exec β} (hx : FailsPlainly x) (hf : ∀ a, FailsPlainly (f a)) :
    FailsPlainly (x >>= f) := by
  intro m e m' h
  obtain hfirst | ⟨a, m₁, -, hnext⟩ := bind_eq_failed h
  · exact hx m e m' hfirst
  · exact hf a m₁ e m' hnext

theorem update (change : Machine → Machine) : FailsPlainly (update change) := nofun

theorem define (symbol : Symbol) (loc : Location) : FailsPlainly (define symbol loc) := by
  refine .bind nofun fun m => ?_
  cases m.scopes.define? symbol with
  | some scopes => exact .update _
  | none =>
    rintro m e m' ⟨⟩
    rfl

theorem allocate (object : Instance) : FailsPlainly (allocate object) :=
  .bind nofun fun _ => .bind (.update _) fun _ => .pure _

theorem foldlM {σ : Type} {step : α → σ → Exec α} {all : List σ}
    (h : ∀ s ∈ all, ∀ a, FailsPlainly (step a s)) (a : α) : FailsPlainly (all.foldlM step a) := by
  induction all generalizing a with
  | nil => exact .pure a
  | cons s rest ih =>
    obtain ⟨hs, hrest⟩ := List.forall_mem_cons.1 h
    rw [List.foldlM_cons]
    exact .bind (hs a) fun a => ih hrest a

theorem forM {σ : Type} {step : σ → Exec Unit} {all : List σ}
    (h : ∀ s ∈ all, FailsPlainly (step s)) : FailsPlainly (all.forM step) := by
  induction all with
  | nil => exact .pure ()
  | cons s rest ih =>
    obtain ⟨hs, hrest⟩ := List.forall_mem_cons.1 h
    exact .bind hs fun _ => ih hrest

end FailsPlainly

/-- **Declarations that evaluate nothing fail with no error about a type name.** -/
theorem failsPlainly_declare {eval : Expr → Exec Value} {s : Stmt} (h : ¬ s.StartsDominant) :
    FailsPlainly (declare eval s) := by
  cases s with
  | suggestion decl => exact .define _ _
  | session decl =>
    refine .bind (.foldlM (fun member hmember object => ?_) _) fun object =>
      .bind (.allocate object) fun ref => .bind (.define _ _) fun _ => .update _
    obtain ⟨hin, hdominant⟩ := List.mem_filter.1 hmember
    unfold addStatic
    cases hdecl : member.decl with
    | method method => exact .pure _
    | field field =>
      cases hstart : field.start with
      | value init => exact absurd ⟨decl, rfl, member, hin, hdominant, field, init, hdecl, hstart⟩ h
      | unset | external =>
        simp only [hstart]
        exact .pure _
  | tranceify decl => exact .bind (.define _ _) fun _ => .update _
  | _ => exact .pure ()

end Exec

/-! ## Record types that are declared early -/

section

variable {cfg : Settings} {src : Sources cfg.files} {n : Nat} {before after : List Stmt}
  {decl : Tranceify} {m m' : Machine}

theorem Exec.known_of_declare {eval : Expr → Exec Value}
    (h : declare eval (.tranceify decl) m = .done () m') : m'.records.has decl.name = true := by
  obtain ⟨_, m₁, -, h⟩ := bind_eq_done h
  cases h
  simp [Table.has, Table.find?_insert]

/-- **A record type that is declared before anything is evaluated is known from then on.** Until
then nothing fails with an error about a type name. -/
theorem Exec.known_of_hoist (hm : src.Sound m)
    (hhas : ∀ s ∈ before ++ .tranceify decl :: after, src.Has m.linked s)
    (hbefore : ∀ s ∈ before, ¬ s.StartsDominant) :
    (∀ m', (before ++ .tranceify decl :: after).forM (declare (eval cfg n)) m = .done () m' →
      m'.records.has decl.name = true) ∧
    ∀ e m', (before ++ .tranceify decl :: after).forM (declare (eval cfg n)) m = .failed e m' →
      e.isPlain = true ∨ m'.records.has decl.name = true := by
  obtain ⟨hfirst, hdecl, hafter⟩ : (∀ s ∈ before, src.Has m.linked s) ∧
      src.Has m.linked (.tranceify decl) ∧ ∀ s ∈ after, src.Has m.linked s := by
    simpa [or_imp, forall_and] using hhas
  -- what is done until the type is declared leads to a machine on which the rest can be hoisted
  have hknown : ∀ m₁ m₂, before.forM (declare (eval cfg n)) m = .done () m₁ →
      declare (eval cfg n) (.tranceify decl) m₁ = .done () m₂ →
      m₂.records.has decl.name = true ∧ Keeps src m₂ (fun _ _ => True)
        (after.forM (declare (eval cfg n))) := by
    intro m₁ m₂ hdone hdeclared
    obtain ⟨hc₁, hm₁, -⟩ :=
      (Visit.Sourced.keeps (v := ⟨n, .hoist before, m⟩) ⟨hm, hfirst⟩ rfl).done hdone
    obtain ⟨hc₂, hm₂, -⟩ := (Visit.Sourced.keeps (v := ⟨n, .declare (.tranceify decl), m₁⟩)
      ⟨hm₁, src.mono hc₁.linked hdecl⟩ rfl).done hdeclared
    refine ⟨known_of_declare hdeclared,
      Visit.Sourced.keeps (v := ⟨n, .hoist after, m₂⟩) ⟨hm₂, fun s hs => ?_⟩ rfl⟩
    exact src.mono (hc₁.trans hc₂).linked (hafter s hs)
  rw [forM_append]
  constructor
  · intro m' h
    obtain ⟨_, m₁, hdone, h⟩ := bind_eq_done h
    obtain ⟨_, m₂, hdeclared, h⟩ := bind_eq_done h
    obtain ⟨hhas, hkeeps⟩ := hknown m₁ m₂ hdone hdeclared
    exact (hkeeps.done h).1.records _ hhas
  · intro e m' h
    obtain hfails | ⟨_, m₁, hdone, h⟩ := bind_eq_failed h
    · exact .inl (FailsPlainly.forM (fun s hs => failsPlainly_declare (hbefore s hs)) m e m' hfails)
    obtain hfails | ⟨_, m₂, hdeclared, h⟩ := bind_eq_failed h
    · have hplain : ¬ (Stmt.tranceify decl).StartsDominant := by
        rintro ⟨session, hsession, -⟩
        cases hsession
      exact .inl (failsPlainly_declare hplain m₁ e m' hfails)
    · obtain ⟨hhas, hkeeps⟩ := hknown m₁ m₂ hdone hdeclared
      exact .inr ((hkeeps.failed h).1.records _ hhas)

end

/-! ## Runs -/

theorem Program.known_of_run {cfg : Settings} {bound : Nat} {p : Program} {m m' : Machine}
    {before after : List Stmt} {decl : Tranceify} {e : RuntimeError}
    (hlinks : ∀ s ∈ p.parts, s.isLink = false)
    (hsplit : p.statements = before ++ .tranceify decl :: after)
    (hbefore : ∀ s ∈ before, ¬ s.StartsDominant) (hrun : p.run cfg bound m = .failed e m') :
    e.isPlain = true ∨ m'.records.has decl.name = true := by
  let src := p.ownSources cfg.files hlinks
  have hparts : ∀ s ∈ p.statements, s ∈ p.parts := fun s hs => mem_listParts.2 ⟨s, hs, .inl rfl⟩
  have hreset : src.Sound m.reset := src.sound_reset m
  obtain ⟨hdone, hfailed⟩ : _ ∧ _ :=
    known_of_hoist (n := bound) hreset (fun s hs => hparts s (hsplit ▸ hs)) hbefore
  rw [← hsplit] at hdone hfailed
  obtain hfails | ⟨_, m₁, hhoisted, hrest⟩ := bind_eq_failed hrun
  · exact hfailed e m' hfails
  · have hkeeps := Task.Hereditary.afterHoist (Visit.relies src ⟨bound, .program p, m.reset⟩)
      ⟨hreset, hparts⟩ hhoisted
    exact .inr ((hkeeps.failed hrest).1.records _ (hdone m₁ hhoisted))

/-- **Errors about type names after a clean check.** Let the check of a program without links report
no error, and let a run of the program fail.

* If it fails because a record type is not known, then a record literal of this type stands there,
  and the program declares the type; but wherever it does so at its top level, a session with a
  dominant field that starts with a value stands before.
* If it fails because the name of a record type is no value, then this name stands there as an
  expression, and the program declares the type. -/
theorem type_errors_of_checked_runs {linker : Linker} {dir : String} {p : Program} {cfg : Settings}
    {bound : Nat} {m m' : Machine} {cause : RuntimeError.Cause} {loc : Location}
    (hlinks : ∀ s ∈ p.parts, s.isLink = false)
    (hclean : (linker.check p (Checker.new dir)).report.errors = [])
    (hrun : p.run cfg bound m = .failed (.raised cause loc) m') :
    (∀ name, cause = .unknownType name → (∃ decl, .tranceify decl ∈ p.parts ∧ decl.name = name) ∧
      (∃ given, .record name given loc ∈ p.exprs) ∧
      ∀ before decl after, p.statements = before ++ .tranceify decl :: after → decl.name = name →
        ∃ s ∈ before, s.StartsDominant) ∧
    ∀ name, cause = .notAValue name →
      (∃ decl, .tranceify decl ∈ p.parts ∧ decl.name = name) ∧ .name name loc ∈ p.exprs := by
  let src := p.ownSources cfg.files hlinks
  have hkeeps := Visit.Sourced.keeps (v := ⟨bound, .program p, m.reset⟩)
    ⟨src.sound_reset m, fun s hs => mem_listParts.2 ⟨s, hs, .inl rfl⟩⟩ rfl
  obtain ⟨-, -, hexplains⟩ := hkeeps.failed hrun
  constructor
  · rintro name rfl
    obtain ⟨hunknown, given, s, hs, hexpr⟩ := hexplains
    have hliteral := Program.mem_exprs hs hexpr
    refine ⟨Linker.declared_of_check hlinks hclean hliteral, ⟨given, hliteral⟩, ?_⟩
    rintro before decl after hsplit rfl
    by_contra hnone
    obtain hplain | hknown :=
      Program.known_of_run hlinks hsplit (fun s hs hstarts => hnone ⟨s, hs, hstarts⟩) hrun
    · cases hplain
    · simp [Table.has, hunknown] at hknown
  · rintro name rfl
    obtain ⟨⟨s, hs, hexpr⟩, hdeclared⟩ := hexplains
    exact ⟨hdeclared, Program.mem_exprs hs hexpr⟩

def Program.earlyRecord : Program :=
  ⟨[.session ⟨"S", [⟨.field ⟨"x", none,
        .value (.record "T" [("a", .text "1" ⟨1, 53⟩)] ⟨1, 46⟩), ⟨1, 35⟩⟩, true, true⟩], ⟨1, 7⟩⟩,
    .tranceify ⟨"T", [⟨"a", some "string", .unset, ⟨1, 76⟩⟩], ⟨1, 62⟩⟩,
    .observe (.field (.field (.name "S" ⟨1, 97⟩) "x" ⟨1, 98⟩) "a" ⟨1, 100⟩) ⟨1, 89⟩]⟩

def Program.shownType : Program :=
  ⟨[.tranceify ⟨"T", [⟨"a", some "number", .unset, ⟨1, 21⟩⟩], ⟨1, 7⟩⟩,
    .observe (.name "T" ⟨1, 42⟩) ⟨1, 34⟩]⟩

/-- **A clean check does not rule out errors about type names.** Both programs are checked without
an error; one run meets a record literal before its type is known, the other one the name of a type.
-/
theorem Program.earlyRecord_checked_and_fails :
    Program.ofText .main
      ("Focus session S \x7b expose dominant induce x = T \x7b a: \"1\" \x7d; \x7d " ++
        "tranceify T \x7b a: string; \x7d observe S.x.a; Relax") = .ok earlyRecord ∧
    ((Linker.ofFiles .empty).check earlyRecord (Checker.new "")).report.errors = [] ∧
    (∃ m', earlyRecord.run ⟨.empty, 256⟩ 12 (.new "" [] none) =
      .failed (.raised (.unknownType "T") ⟨1, 46⟩) m') ∧
    Program.ofText .main "Focus tranceify T \x7b a: number; \x7d observe T; Relax" = .ok shownType ∧
    ((Linker.ofFiles .empty).check shownType (Checker.new "")).report.errors = [] ∧
    ∃ m', shownType.run ⟨.empty, 256⟩ 12 (.new "" [] none) =
      .failed (.raised (.notAValue "T") ⟨1, 42⟩) m' := by
  exact ⟨by set_option maxRecDepth 1000 in with_unfolding_all rfl, by rfl, ⟨_, rfl⟩,
    by with_unfolding_all rfl, by rfl, _, rfl⟩

/-- The declaration of the early record stands behind a session, and the shown name is that of a
type. -/
theorem Program.earlyRecord_behind_session :
    ((∃ given, .record "T" given ⟨1, 46⟩ ∈ earlyRecord.exprs) ∧
      ∀ before decl after, earlyRecord.statements = before ++ .tranceify decl :: after →
        decl.name = "T" → ∃ s ∈ before, s.StartsDominant) ∧
    (∃ decl, .tranceify decl ∈ shownType.parts ∧ decl.name = "T") ∧
    .name "T" ⟨1, 42⟩ ∈ shownType.exprs := by
  obtain ⟨m, hearly⟩ : ∃ m, earlyRecord.run ⟨.empty, 256⟩ 12 (.new "" [] none) =
      .failed (.raised (.unknownType "T") ⟨1, 46⟩) m := ⟨_, rfl⟩
  obtain ⟨m', hshown⟩ : ∃ m', shownType.run ⟨.empty, 256⟩ 12 (.new "" [] none) =
      .failed (.raised (.notAValue "T") ⟨1, 42⟩) m' := ⟨_, rfl⟩
  have hclean : ((Linker.ofFiles .empty).check earlyRecord (Checker.new "")).report.errors = [] :=
    by rfl
  have hclean' : ((Linker.ofFiles .empty).check shownType (Checker.new "")).report.errors = [] := by
    rfl
  obtain ⟨-, hliteral⟩ := (type_errors_of_checked_runs (by decide) hclean hearly).1 "T" rfl
  exact ⟨hliteral, (type_errors_of_checked_runs (by decide) hclean' hshown).2 "T" rfl⟩

end Trance
