import Trance.Proofs.Jumps.Linked
import Trance.Proofs.Typing.Points

/-!
# Soundness of the check for the core

A program of the core declares nothing before its entrance blocks, and a jump cannot leave its
lists. So a program that the check accepts runs as its types say from the start to the end, or to an
error that types do not rule out. -/

namespace Trance

open Check

/-! ## Declarations -/

namespace Stmt

variable {s : Stmt} (h : s.isCore = true)

include h

theorem declares_nothing (eval : Expr → Exec Value) (link : String → Location → Exec Unit) :
    Exec.declare eval s = pure () ∧ Exec.followLink link s = pure () := by
  cases s with
  | suggestion | session | tranceify | mindLink => cases h
  | _ => exact ⟨rfl, rfl⟩

theorem checked_once (link : Follower) :
    declareTypeName s = pure () ∧ declareSuggestionName s = pure () ∧
      followLink link s = pure () ∧ collectType s = pure () := by
  cases s with
  | suggestion | session | tranceify | mindLink => cases h
  | _ => exact ⟨rfl, rfl, rfl, rfl⟩

end Stmt

theorem forM_of_isCore {m : Type → Type} [Monad m] {step : Stmt → m Unit} {body : List Stmt}
    (hpure : (pure () >>= fun _ => pure () : m Unit) = pure ())
    (h : ∀ s : Stmt, s.isCore = true → step s = pure ()) (hbody : listIsCore body = true) :
    body.forM step = pure () := by
  induction body with
  | nil => rfl
  | cons s rest ih =>
    obtain ⟨hs, hrest⟩ := Bool.and_eq_true_iff.1 hbody
    have hunfold : (s :: rest).forM step = step s >>= fun _ => rest.forM step := rfl
    rw [hunfold, h s hs, ih hrest, hpure]

section

variable {cfg : Settings} {link : Follower} {p : Program}

theorem Exec.declarations_eq (hp : p.isCore = true) (bound : Nat) :
    declarations cfg p bound = pure () := by
  unfold declarations
  rw [forM_of_isCore rfl (fun s hs => (Stmt.declares_nothing hs _ (Exec.link cfg bound)).1) hp,
    forM_of_isCore rfl (fun s hs => (Stmt.declares_nothing hs (eval cfg bound) _).2) hp]
  rfl

theorem Check.collect_eq (hp : p.isCore = true) : collect link p.statements = pure () := by
  have hnone : ∀ {step : Stmt → Check Unit}, (∀ s : Stmt, s.isCore = true → step s = pure ()) →
      p.statements.forM step = pure () :=
    fun hstep => forM_of_isCore rfl hstep hp
  unfold collect
  rw [hnone fun s hs => (Stmt.checked_once hs link).1, hnone fun s hs =>
    (Stmt.checked_once hs link).2.1,
    hnone fun s hs => (Stmt.checked_once hs link).2.2.1, hnone fun s hs =>
      (Stmt.checked_once hs link).2.2.2]
  rfl

theorem Check.passes_of_isCore [∀ path loc, Growing (link path loc)] (hp : p.isCore = true)
    {c : Checker}
    (h : c.Passes (program link p)) : c.Passes (Point.check link p (.entrances p.statements)) := by
  have hgrows : (c.after (Point.check link p (.entrances p.statements))).Grows
      (c.after (program link p)) := by
    unfold program
    rw [collect_eq hp]
    exact (growing_deferring (fun _ => []) |>.grows _).trans
      (grows (List.forM _ (deferredBody link)) _)
  exact List.prefix_nil.1 (h ▸ hgrows.errors)

/-! ## Runs -/

variable (link p) in
/-- A check outside of loops, with given scopes, accepts what is to be done. -/
def Point.Accepted (point : Point) (Γ : Scopes) : Prop :=
  point.isCore = true ∧ Γ.OnlyVariables ∧
    ∃ c : Checker, c.scopes = Γ ∧ c.context.loops = 0 ∧ c.Passes (point.check link p)

namespace Exec

variable [∀ path loc, Check.Growing (link path loc)] {Γ : Scopes} {n : Nat}

theorem yields_entrances (hp : p.isCore = true) {rest : List Stmt}
    (h : (Point.entrances rest).Accepted link p Γ) :
    Yields Γ (entrances (exec cfg n) n rest) fun flow Γ' =>
      (∃ value, flow = .awaken value) ∨ (Point.main p.statements n).Accepted link p Γ' := by
  induction rest generalizing Γ with
  | nil =>
    obtain ⟨-, hΓ, c, hc, hloops, hpasses⟩ := h
    exact .pure (.inr ⟨hp, hΓ, c.withLabels (labelsOf p.statements), hc, hloops, hpasses⟩)
  | cons s rest ih =>
    obtain ⟨hcore, hΓ, c, rfl, hloops, hpasses⟩ := h
    obtain ⟨hs, hrest⟩ := Bool.and_eq_true_iff.1 hcore
    obtain ⟨hfirst, hsecond⟩ := Moment.Good.passes_entrances hpasses
    cases s with
    | entrance body loc =>
      obtain ⟨⟨inner, htyped⟩, hscopes⟩ :=
        accepts_block (accepts_stmts link body hΓ.enter hs) c rfl rfl hfirst
      have houtside : decide (c.context.loops ≠ 0) = false := decide_eq_false (not_not.2 hloops)
      rw [houtside] at htyped
      refine .bind (yields_block (yields_exec cfg n) n htyped) ?_
      rintro flow _ ⟨hflow, rfl⟩
      cases flow with
      | awaken value => exact .pure (.inl ⟨value, rfl⟩)
      | normal =>
        have hcontext := (Check.grows (Check.block link body) c).context
        exact ih ⟨hrest, hΓ, c.after (Check.block link body), hscopes, hcontext ▸ hloops, hsecond⟩
      | snap | sink | jump => exact nomatch hflow
    | _ => exact ih ⟨hrest, hΓ, c, rfl, hloops, hsecond⟩

theorem yields_mainStmt {s : Stmt} {rest : List Stmt}
    (h : (Point.main (s :: rest) n).Accepted link p Γ) :
    Yields Γ (mainStmt (exec cfg n) s) fun flow Γ' =>
      flow.isAllowed false = true ∧ (Point.main rest n).Accepted link p Γ' := by
  obtain ⟨hcore, hΓ, c, rfl, hloops, hpasses⟩ := h
  obtain ⟨hs, hrest⟩ := Bool.and_eq_true_iff.1 hcore
  obtain ⟨hfirst, hsecond⟩ := Moment.Good.passes_main hpasses
  have hcontext := (Check.grows (Check.mainStmt link s) c).context
  have houtside : decide (c.context.loops ≠ 0) = false := decide_eq_false (not_not.2 hloops)
  unfold mainStmt
  rw [mainStmt_eq link hs] at hfirst hsecond hcontext
  split at hfirst <;> rename_i hhoisted
  · rw [if_pos hhoisted] at hsecond ⊢
    exact .pure ⟨rfl, hrest, hΓ, c, rfl, hloops, hsecond⟩
  · rw [if_neg hhoisted] at hsecond hcontext ⊢
    have htyped := accepts_stmt link s hΓ hs c rfl rfl hfirst
    rw [houtside] at htyped
    refine (yields_exec cfg n htyped).consequence ?_
    rintro flow _ ⟨hflow, rfl⟩
    exact ⟨hflow, hrest, htyped.onlyVariables hΓ, c.after (stmt link s), rfl, hcontext ▸ hloops,
      hsecond⟩

/-- **A program that is accepted runs to its end**, unless it divides by zero, cannot write its
output, or is cut short. -/
theorem yields_program (cfg : Settings) (n : Nat) (hp : p.isCore = true)
    (h : (Point.entrances p.statements).Accepted link p Γ) :
    Yields Γ (program cfg n p) fun _ _ => True := by
  have hmain : ∀ {Γ : Scopes}, (Point.main p.statements n).Accepted link p Γ → Yields Γ (do
      let flow ← sequence (mainStmt (exec cfg n)) p.statements n p.statements
      rejectEscape flow) fun _ _ => True := by
    intro Γ hmain
    refine .bind (yields_sequence (fun rest Γ => (Point.main rest n).Accepted link p Γ)
      (fun _ _ _ => yields_mainStmt) n hmain) ?_
    rintro flow Γ' ⟨hflow, -⟩
    cases flow with
    | normal | awaken => exact .pure trivial
    | snap | sink | jump => exact nomatch hflow
  unfold program programStep
  rw [forM_of_isCore rfl (fun s hs => (Stmt.declares_nothing hs _ (Exec.link cfg n)).1) hp,
    forM_of_isCore rfl (fun s hs => (Stmt.declares_nothing hs (eval cfg n) _).2) hp]
  refine .bind (.pure (P := fun _ => (Point.entrances p.statements).Accepted link p) h) fun _ _ h =>
    ?_
  refine .bind (.pure (P := fun _ => (Point.entrances p.statements).Accepted link p) h) fun _ _ h =>
    ?_
  refine .bind (yields_entrances hp h) ?_
  rintro flow Γ' (⟨value, rfl⟩ | hmain')
  · exact .pure trivial
  · cases flow with
    | awaken => exact .pure trivial
    | normal | snap | sink | jump => exact hmain hmain'

end Exec

/-! ## Points -/

theorem Checker.knows_new (baseDir : String) (m : Machine) : (Checker.new baseDir).Knows m.reset :=
  ⟨fun _ _ hfound => (nomatch hfound), [], .hidden, .nil⟩

/-- **Every point of the run of an accepted program is good.** -/
theorem Moment.good_of_reaches [∀ path loc, Check.Growing (link path loc)] (hp : p.isCore = true)
    {c : Checker} {m : Machine} {bound : Nat}
    {moment : Moment}
    (hknows : c.Knows m.reset) (hpasses : c.Passes (Point.check link p (.entrances p.statements)))
    (hreaches : p.Reaches cfg link bound c m moment) : moment.Good link p := by
  obtain ⟨m₁, hrun, hsteps⟩ := hreaches
  rw [Exec.declarations_eq hp] at hrun
  obtain ⟨⟩ := hrun
  rw [Check.collect_eq hp] at hsteps
  induction hsteps with
  | refl => exact ⟨hp, hknows, hpasses⟩
  | tail _ hnext ih => exact ih.next hp hnext

end

theorem RuntimeError.isTolerated_iff {e : RuntimeError} :
    e.isTolerated = true ↔ (∃ loc, e = .raised .divisionByZero loc) ∨ ∃ text, e = .output text := by
  cases e with
  | output text => exact ⟨fun _ => .inr ⟨text, rfl⟩, fun _ => rfl⟩
  | panicked => simp [isTolerated]
  | raised cause loc => cases cause <;> simp [isTolerated]

/-- **Accepted programs of the core do not go wrong.** Take a program of the core in which the check
finds no error. If a run of it fails, then because of a division by zero or because output cannot be
written. At every point of the run the visible names are those that the check knows there, and each
visible variable holds a value of the type that the check has found for it. -/
theorem Program.run_sound_of_check (p : Program) (hcore : p.isCore = true) (linker : Linker)
    (baseDir : String)
    (hcheck : (linker.check p (Checker.new baseDir)).report.errors = []) (cfg : Settings)
    (bound : Nat)
    (m : Machine) :
    (∀ e m', p.run cfg bound m = .failed e m' →
      (∃ loc, e = .raised .divisionByZero loc) ∨ ∃ text, e = .output text) ∧
    ∀ moment, p.Reaches cfg (linker.link linker.bound) bound (Checker.new baseDir) m moment →
    ∀ name, (moment.machine.scopes.resolve? name).isSome =
      (moment.checker.scopes.resolve? name).isSome ∧
      ∀ symbol, moment.checker.scopes.resolve? name = some symbol → ∃ (t : Ty) (value : Value),
        symbol.typeName = some t.name ∧
        (moment.machine.scopes.resolve? name).bind Symbol.value = some value ∧
        t.Has value := by
  have hknows := Checker.knows_new baseDir m
  have hpasses : (Checker.new baseDir).Passes
    (Point.check (linker.link linker.bound) p (.entrances p.statements)) :=
      passes_of_isCore hcore hcheck
  constructor
  · intro e m' hrun
    have haccepted : (Point.entrances p.statements).Accepted
        (linker.link linker.bound) p Scopes.empty :=
      ⟨hcore, hknows.onlyVariables, Checker.new baseDir, rfl, rfl, hpasses⟩
    have hfits := Exec.yields_program cfg bound hcore haccepted [] m.reset ⟨.hidden, .nil⟩
    rw [Program.run] at hrun
    rw [hrun] at hfits
    cases hfits with
    | failed error => exact RuntimeError.isTolerated_iff.1 error
  · intro moment hreaches name
    exact (Moment.good_of_reaches hcore hknows hpasses hreaches).knows.visible name

def Program.shadowing : Program :=
  ⟨[.induce ⟨"again", some "boolean", .value (.boolean true ⟨1, 25⟩), ⟨1, 1⟩⟩,
    .whileLoop (.name "again" ⟨2, 8⟩)
      [.induce ⟨"again", none, .value (.text "once" ⟨3, 18⟩), ⟨3, 3⟩⟩, .observe
      (.name "again" ⟨4, 11⟩) ⟨4, 3⟩, .snap ⟨5, 3⟩] ⟨2, 1⟩]⟩

theorem Program.shadowing_sound : shadowing.isCore = true ∧ ((Linker.ofFiles .empty).check shadowing
    (Checker.new "")).report.errors = [] ∧
    ∃ moment : Moment, shadowing.Reaches ⟨.empty, 256⟩ ((Linker.ofFiles .empty).link 1) 9
    (Checker.new "") (.new "" [] none) moment ∧ moment.point = .list [.snap ⟨5, 3⟩] 6 ∧
      ∃ value, (moment.machine.scopes.resolve? "again").bind Symbol.value = some value ∧
      Ty.text.Has value := by
  have hcore : shadowing.isCore = true := rfl
  have hcheck : ((Linker.ofFiles .empty).check shadowing (Checker.new "")).report.errors = [] := rfl
  obtain ⟨-, hpoints⟩ := run_sound_of_check shadowing hcore
    (Linker.ofFiles .empty) "" hcheck ⟨.empty, 256⟩ 9 (.new "" [] none)
  obtain ⟨moment, hreaches, hpoint, hsymbol⟩ : ∃ moment : Moment,
      shadowing.Reaches ⟨.empty, 256⟩ ((Linker.ofFiles .empty).link 1) 9 (Checker.new "")
      (.new "" [] none) moment ∧
      moment.point = .list [.snap ⟨5, 3⟩] 6 ∧
      moment.checker.scopes.resolve? "again" = some ⟨"again", .variable, some "string", none⟩ :=
    ⟨_, ⟨_, rfl, .head (.passes rfl) <| .head (.passes rfl) <| .head .allEntered <| .head
    (.mainTail rfl) <| .head (.mainHead rfl) <| .head .whileLoop <| .head (.roundBody rfl) <|
      .head .block <| .head (.tail rfl) <| .single (.tail rfl)⟩, rfl, rfl⟩
  obtain ⟨t, value, htype, hvalue, hhas⟩ := (hpoints moment hreaches "again").2 _ hsymbol
  obtain rfl : Ty.text = t := Ty.name_injective rfl hhas.isBasic (Option.some.inj htype)
  exact ⟨hcore, hcheck, moment, hreaches, hpoint, value, hvalue, hhas⟩

end Trance
