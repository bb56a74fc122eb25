import Trance.Proofs.Jumps.Checked

/-!
# Checks side by side

A check looks only at a part of its state: at what names stand for, at what is known about types,
and at where in the program it is. Two checks that agree about these go on agreeing, step by step,
and come to the same results. What else is true of their states, and how many frames are open, is a
parameter; a likeness says what has to be kept by the few ways in which a check changes its state.
-/

namespace Trance

/-- How the states of two checks are alike, by the number of open frames. The kinds of names that
may be bound among the globals can be limited. -/
structure Likeness where
  rel : Nat → Checker → Checker → Prop
  opens : Symbol.Kind → Prop
  -- what a check looks at
  resolve? : ∀ {k c d}, rel k c d → ∀ name, c.scopes.resolve? name = d.scopes.resolve? name
  session? : ∀ {k c d}, rel k c d → ∀ name, c.sessions.find? name = d.sessions.find? name
  record? : ∀ {k c d}, rel k c d → ∀ name, c.records.find? name = d.records.find? name
  context : ∀ {k c d}, rel k c d → c.context = d.context
  -- how a check changes its state
  report : ∀ {k c d}, rel k c d → ∀ diagnostic,
    rel k { c with report := c.report.add diagnostic } { d with report := d.report.add diagnostic }
  define : ∀ {k c d}, rel k c d → ∀ symbol, (k = 0 → opens symbol.kind) →
    (c.scopes.define? symbol = none ∧ d.scopes.define? symbol = none) ∨
    ∃ s t, c.scopes.define? symbol = some s ∧ d.scopes.define? symbol = some t ∧
      rel k { c with scopes := s } { d with scopes := t }
  retype : ∀ {k c d}, rel k c d → ∀ name typeName : String, rel k
      { c with scopes := (c.scopes.update? name fun symbol =>
          { symbol with typeName := some typeName }).getD c.scopes }
      { d with scopes := (d.scopes.update? name fun symbol =>
          { symbol with typeName := some typeName }).getD d.scopes }
  know : ∀ {k c d}, rel k c d → ∀ name info,
    rel k { c with sessions := c.sessions.insert name info }
      { d with sessions := d.sessions.insert name info }
  knowRecord : ∀ {k c d}, rel k c d → ∀ name info,
    rel k { c with records := c.records.insert name info }
      { d with records := d.records.insert name info }
  enter : ∀ {k c d}, rel k c d → ∀ kind,
    rel (k + 1) { c with scopes := c.scopes.enter kind } { d with scopes := d.scopes.enter kind }
  exit : ∀ {k c d}, rel (k + 1) c d →
    rel k { c with scopes := c.scopes.exit } { d with scopes := d.scopes.exit }
  move : ∀ {k c d}, rel k c d → ∀ context, rel k { c with context } { d with context }

theorem Likeness.agrees (L : Likeness) {k : Nat} {c d : Checker} (h : L.rel k c d) : c.Agrees d :=
  ⟨L.resolve? h, L.session? h, L.record? h, L.context h⟩

namespace Check

variable {α β : Type} {L : Likeness} {k : Nat}

/-- Steps that have equal results on alike states, and keep them alike. -/
def Alike (L : Likeness) (k : Nat) (x y : Check α) : Prop :=
  ∀ c d, L.rel k c d → (x.run c).1 = (y.run d).1 ∧ L.rel k (x.run c).2 (y.run d).2

namespace Alike

variable {x y : Check α}

theorem pure (a : α) : Alike L k (Pure.pure a) (Pure.pure a) := fun _ _ h => ⟨rfl, h⟩

theorem bind {f g : α → Check β} (hxy : Alike L k x y) (hfg : ∀ a, Alike L k (f a) (g a)) :
    Alike L k (x >>= f) (y >>= g) := by
  intro c d h
  obtain ⟨hresult, hstate⟩ := hxy c d h
  show (f (x.run c).1 |>.run (x.run c).2).1 = (g (y.run d).1 |>.run (y.run d).2).1 ∧
    L.rel k (f (x.run c).1 |>.run (x.run c).2).2 (g (y.run d).1 |>.run (y.run d).2).2
  rw [hresult]
  exact hfg _ _ _ hstate

theorem ite {p : Prop} [Decidable p] {x' y' : Check α} (hxy : Alike L k x y)
    (hxy' : Alike L k x' y') : Alike L k (if p then x else x') (if p then y else y') := by
  split
  · exact hxy
  · exact hxy'

theorem get {f g : Checker → Check β} (hfg : ∀ c d, L.rel k c d → Alike L k (f c) (g d)) :
    Alike L k (MonadState.get >>= f) (MonadState.get >>= g) :=
  fun c d h => hfg c d h c d h

theorem change {f g : Checker → Checker} (hfg : ∀ c d, L.rel k c d → L.rel k (f c) (g d)) :
    Alike L k (modify f) (modify g) :=
  fun c d h => ⟨rfl, hfg c d h⟩

theorem report (finding : Finding) (loc : Location) :
    Alike L k (Check.report finding loc) (Check.report finding loc) :=
  change fun _ _ h => L.report h _

theorem reportIf (cond : Bool) (finding : Finding) (loc : Location) :
    Alike L k (Check.reportIf cond finding loc) (Check.reportIf cond finding loc) := by
  cases cond with
  | true => exact report finding loc
  | false => exact pure ()

theorem inFrame (kind : Frame.Kind) (hxy : Alike L (k + 1) x y) :
    Alike L k (Check.inFrame kind x) (Check.inFrame kind y) := by
  intro c d h
  obtain ⟨hresult, hstate⟩ := hxy _ _ (L.enter h kind)
  exact ⟨hresult, L.exit hstate⟩

theorem inContext (enter : Context → Context) (leave : Context → Context → Context)
    (hxy : Alike L k x y) :
    Alike L k (Check.inContext enter leave x) (Check.inContext enter leave y) := by
  intro c d h
  obtain ⟨hresult, hstate⟩ := hxy _ _ (L.move h (enter c.context))
  have hy : (Check.inContext enter leave y).run d =
      ((y.run { d with context := enter c.context }).1,
        { (y.run { d with context := enter c.context }).2 with
        context := leave c.context (x.run { c with context := enter c.context }).2.context }) := by
    rw [L.context hstate, L.context h]
    rfl
  rw [hy]
  exact ⟨hresult, L.move hstate _⟩

theorem forM {σ : Type} {f g : σ → Check Unit} {all : List σ}
    (h : ∀ s ∈ all, Alike L k (f s) (g s)) : Alike L k (all.forM f) (all.forM g) := by
  induction all with
  | nil => exact pure ()
  | cons s rest ih =>
    obtain ⟨hs, hrest⟩ := List.forall_mem_cons.1 h
    exact hs.bind fun _ => ih hrest

end Alike

abbrev Steady (L : Likeness) (k : Nat) (x : Check α) : Prop := Alike L k x x

/-! ## Checks -/

theorem alike_define {symbol : Symbol} (hopens : k = 0 → L.opens symbol.kind) :
    Steady L k (define symbol) := by
  intro c d h
  obtain ⟨hc, hd⟩ | ⟨s, t, hc, hd, hst⟩ := L.define h symbol hopens
  · rw [run_define_none hc, run_define_none hd]
    exact ⟨rfl, h⟩
  · rw [run_define_some hc, run_define_some hd]
    exact ⟨rfl, hst⟩

theorem alike_introduce {type : Ty} (hopens : k = 0 → L.opens type.symbol.kind) (loc : Location) :
    Steady L k (introduce type loc) := by
  refine .bind (alike_define hopens) fun free => ?_
  cases free with
  | false => exact .report _ loc
  | true =>
    refine .change fun c d h => ?_
    cases type with
    | session name => exact L.know h name _
    | record name => exact L.knowRecord h name _
    | _ => exact h

theorem alike_giveType (name typeName : String) : Steady L k (giveType name typeName) := by
  refine .change fun c d h => ?_
  rw [L.resolve? h]
  split
  · exact L.retype h name typeName
  · exact h

end Check

open Check

/-- **Checks keep states alike**, if links do. -/
theorem Terms.Made.alike {α : Type} {T : Terms} {L : Likeness} (hopens : T.opens = L.opens)
    (hlinks : T.links → ∀ path loc k, Alike L k (T.link path loc) (T.link' path loc))
    {p : Prop} {k : Nat} {Q : α → Prop} {x y : Check α} {jumps : Context → List (Code × Location)}
    {calls : Checker → List Call} (h : T.Made p k Q x y jumps calls) : Alike L k x y := by
  induction h with
  | pure a => exact .pure a
  | bind _ _ ihx ihf => exact .bind ihx ihf
  | look same _ ihf =>
    refine .get fun c d h => ?_
    rw [same (L.agrees h)]
    exact ihf d
  | report _ loc => exact .report _ loc
  | jump cond _ loc =>
    refine .get fun c d h => ?_
    rw [L.context h]
    exact .reportIf _ _ loc
  | define hkind => exact alike_define fun h0 => hopens ▸ hkind h0
  | introduce hkind _ loc => exact alike_introduce (fun h0 => hopens ▸ hkind h0) loc
  | giveType name => exact alike_giveType name _
  | know => exact .change fun _ _ h => L.know h _ _
  | knowRecord => exact .change fun _ _ h => L.knowRecord h _ _
  | inFrame kind _ ih => exact .inFrame kind ih
  | inContext _ _ ih => exact .inContext _ _ ih
  | link h path loc => exact hlinks h path loc _
  | infer _ ih => exact ih
  | induce _ ih => exact ih

namespace Check

variable {L : Likeness} {k : Nat}

theorem alike_names (hopens : ∀ kind, L.opens kind) (p : Program) : Steady L k (names p) :=
  (Terms.looks_names (T := unlinked L.opens (fun _ _ => pure ()) fun _ _ => pure ()) (q := False)
    (fun _ => hopens) fun s _ => (admits_unlinked s).1).alike rfl False.elim

/-- **Once names are declared and links followed, what is left of a program keeps checks alike.** -/
theorem alike_bodies (hopens : ∀ kind, L.opens kind) (link link' : Follower) {p : Program}
    (h : LinkFree p.sites) : Alike L k (bodies link p) (bodies link' p) :=
  (Terms.made_bodies (T := unlinked L.opens link link') (q := False) (fun _ => hopens)
    (.of_linkFree h)
    fun s _ => admits_unlinked s).alike rfl False.elim

end Check

end Trance
