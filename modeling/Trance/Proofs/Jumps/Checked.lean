import Trance.Proofs.Checking.Growth

/-!
# What the checker reports about jumps

The checker reports a jump exactly where the tree says that it is stray: of a statement without
links it reports the findings of its sites, and nothing else about jumps.
-/

namespace Trance

open List

/-! ## Reports -/

def Report.jumps (r : Report) : List (Code × Location) :=
  (r.errors.filter (·.code.isJump)).map fun d => (d.code, d.location)

theorem Report.jumps_add (r : Report) (d : Diagnostic) :
    (r.add d).jumps = r.jumps ++ if d.code.isJump then [(d.code, d.location)] else [] := by
  have hseverity : d.code.isJump = true → d.severity = .error := by
    unfold Diagnostic.severity
    cases d.code <;> simp [Code.isJump, Code.severity]
  unfold Report.add
  cases hjump : d.code.isJump with
  | true => simp [hseverity hjump, Report.jumps, hjump]
  | false => cases d.severity <;> simp [Report.jumps, hjump]

theorem Report.jumps_subset {r s : Report} (h : r.errors <+: s.errors) : r.jumps ⊆ s.jumps :=
  map_subset _ (List.Sublist.filter _ h.sublist).subset

/-! ## Steps -/

/-- A check goes on without linking any file, and reports some jumps. -/
structure Checker.Moves (c c' : Checker) (new : List (Code × Location)) : Prop extends
    Checker.Grows c c' where
  stays : c'.linked = c.linked
  jumps : c'.report.jumps = c.report.jumps ++ new

namespace Checker.Moves

variable {c c' c'' : Checker}

theorem refl (c : Checker) : c.Moves c [] := ⟨.refl c, rfl, (append_nil _).symm⟩

theorem trans {new new' : List (Code × Location)} (h : c.Moves c' new) (h' : c'.Moves c'' new') :
    c.Moves c'' (new ++ new') :=
  ⟨h.toGrows.trans h'.toGrows, h'.stays.trans h.stays, by rw [h'.jumps, h.jumps, append_assoc]⟩

end Checker.Moves

namespace Check

variable {α β : Type}

/-- A step that reports the jumps that `f` gives for the place where it is. -/
def Notes (x : Check α) (f : Context → List (Code × Location)) : Prop :=
  ∀ c : Checker, c.Moves (x.run c).2 (f c.context)

abbrev Silent (x : Check α) : Prop := Notes x fun _ => []

namespace Notes

variable {x : Check α} {f g : Context → List (Code × Location)}

theorem pure (a : α) : Silent (Pure.pure a) := fun c => .refl c

theorem append {y : α → Check β} (hx : Notes x f) (hy : ∀ a, Notes (y a) g) :
    Notes (x >>= y) fun context => f context ++ g context := by
  intro c
  have hfirst := hx c
  have hsecond := hy (x.run c).1 (x.run c).2
  rw [hfirst.context] at hsecond
  exact hfirst.trans hsecond

theorem bind {y : α → Check β} (hx : Silent x) (hy : ∀ a, Notes (y a) g) : Notes (x >>= y) g :=
  hx.append hy

theorem get {y : Checker → Check β} (hy : ∀ c, Notes (y c) g) : Notes (MonadState.get >>= y) g :=
  fun c => hy c c

theorem quiet [Growing x] (h : ∀ c, (x.run c).2.linked = c.linked ∧ (x.run c).2.report = c.report) :
    Silent x :=
  fun c => ⟨grows x c, (h c).1, by rw [(h c).2, append_nil]⟩

theorem report {finding : Finding} (h : finding.code.isJump = false) (loc : Location) :
    Silent (Check.report finding loc) := by
  refine fun c => ⟨grows _ c, rfl, (Report.jumps_add _ _).trans ?_⟩
  rw [Finding.diagnose, if_neg (by rw [h]; exact Bool.false_ne_true)]

theorem jump (cond : Context → Bool) {finding : Finding} (h : finding.code.isJump = true)
    (loc : Location) : Notes (do reportIf (cond (← MonadState.get).context) finding loc)
      fun context => if cond context then [(finding.code, loc)] else [] := by
  intro c
  show c.Moves ((reportIf (cond c.context) finding loc).run c).2 (if cond c.context then _ else _)
  cases cond c.context with
  | false => exact .refl c
  | true =>
    refine ⟨grows (Check.report finding loc) c, rfl, ?_⟩
    show (c.report.add (finding.diagnose loc)).jumps = _
    simp only [Report.jumps_add, Finding.diagnose, h, if_true]

theorem inFrame (kind : Frame.Kind) (hx : Notes x f) : Notes (Check.inFrame kind x) f := by
  have : Growing x := ⟨fun c => (hx c).toGrows⟩
  intro c
  have h := hx { c with scopes := c.scopes.enter kind }
  exact ⟨grows (Check.inFrame kind x) c, h.stays, h.jumps⟩

theorem inContext {enter : Context → Context} {leave : Context → Context → Context}
    (back : ∀ context, leave context (enter context) = context) (hx : Notes x f) :
    Notes (Check.inContext enter leave x) fun context => f (enter context) := by
  have : Growing x := ⟨fun c => (hx c).toGrows⟩
  intro c
  have h := hx { c with context := enter c.context }
  exact ⟨(growing_inContext back).grows c, h.stays, h.jumps⟩

theorem silent_forM {σ : Type} {step : σ → Check Unit} {all : List σ}
    (h : ∀ s ∈ all, Silent (step s)) : Silent (all.forM step) := by
  induction all with
  | nil => exact pure ()
  | cons s rest ih =>
    obtain ⟨hs, hrest⟩ := forall_mem_cons.1 h
    exact hs.bind fun _ => ih hrest

end Notes

theorem silent_define (symbol : Symbol) : Silent (define symbol) := by
  refine .quiet fun c => ?_
  cases hdefine : c.scopes.define? symbol with
  | none => exact run_define_none hdefine ▸ ⟨rfl, rfl⟩
  | some s => exact run_define_some hdefine ▸ ⟨rfl, rfl⟩

theorem silent_introduce (type : Ty) (loc : Location) : Silent (introduce type loc) := by
  refine .bind (silent_define type.symbol) fun free => ?_
  cases free with
  | false => exact .report (by cases type <;> rfl) loc
  | true => exact .quiet fun c => by cases type <;> exact ⟨rfl, rfl⟩

theorem silent_giveType (name typeName : String) : Silent (giveType name typeName) := by
  refine .quiet fun c => ?_
  show (if _ then _ else _ : Checker).linked = _ ∧ (if _ then _ else _ : Checker).report = _
  split <;> exact ⟨rfl, rfl⟩

end Check

open Check

/-- **A check without links reports the jumps that its steps report.** -/
theorem Terms.Made.notes {α : Type} {T : Terms} {p : Prop} {k : Nat} {Q : α → Prop} {x y : Check α}
    {jumps : Context → List (Code × Location)} {calls : Checker → List Call}
    (h : T.Made p k Q x y jumps calls) (hlinks : ¬T.links) : Notes x jumps := by
  induction h with
  | pure a => exact .pure a
  | bind _ _ ih ih' => exact ih.append ih'
  | look _ _ ih => exact .get ih
  | report h loc => exact .report h loc
  | jump cond h loc => exact .jump cond h loc
  | define => exact silent_define _
  | introduce _ _ loc => exact silent_introduce _ loc
  | giveType name => exact silent_giveType name _
  | know | knowRecord => exact .quiet fun _ => ⟨rfl, rfl⟩
  | inFrame kind _ ih => exact ih.inFrame kind
  | inContext back _ ih => exact ih.inContext back
  | link h => exact absurd h hlinks
  | infer _ ih => exact ih
  | induce _ ih => exact ih

namespace Check

abbrev unlinked (opens : Symbol.Kind → Prop) (link link' : Follower) : Terms :=
  .lax opens False link link'

theorem admits_unlinked {opens : Symbol.Kind → Prop} {link link' : Follower} (s : Stmt) :
    s.Every (unlinked opens link link').Admits :=
  .of_forall (Terms.lax_admits _ _ _ _)

theorem silent_names (p : Program) : Silent (names p) :=
  (Terms.looks_names (T := unlinked (fun _ => True) (fun _ _ => pure ()) fun _ _ => pure ())
    (k := 0) (q := False)
    (fun _ _ => trivial) fun s _ => (admits_unlinked s).1).notes id

/-- **The check of a program reports the findings of its sites**, apart from its links. -/
theorem moves_bodies (link : Follower) {p : Program} (h : LinkFree p.sites) {c : Checker}
    (hc : c.context = .top) :
    ∃ new, c.Moves ((bodies link p).run c).2 new ∧ ∀ f, f ∈ new ↔ f ∈ Site.findings p.sites := by
  have hmade := Terms.made_bodies (T := unlinked (fun _ => True) link link) (k := 0) (q := False)
    (fun _ _ => trivial) (.of_linkFree h) fun s _ => admits_unlinked s
  refine ⟨_, hmade.notes id c, fun f => ?_⟩
  have hreach : c.context.reach = .fresh := by rw [hc]; rfl
  simp only [hreach, Program.sites, Site.findings, topSites_eq, mem_append, mem_flatMap,
    mem_filterMap]
  grind

end Check

end Trance
