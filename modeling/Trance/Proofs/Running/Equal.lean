import Trance.Proofs.Running.Rewriting

/-!
# Equal runs

A run is compared with a run of the same code on machines that are equal but for what no step looks
at: frames that are hidden below a call, and what has been shown before the run began. Where the
code has no links, the base directories and the files linked so far need not be equal either. The
two may also be given different bounds. A run with the smaller bound is cut short, or goes on
exactly as the other one does.

The code may be confined to statements of one kind, if all that can be called is made of such
statements too. -/

namespace Trance

open Exec

/-! ## Equal parts of machines -/

section

variable {α : Type} {R : α → α → Prop} (hR : ∀ {a b}, R a b → a = b)
include hR

theorem eq_of_forall₂ {as bs : List α} (h : List.Forall₂ R as bs) : as = bs := by
  induction h with
  | nil => rfl
  | cons hab _ ih => rw [hR hab, ih]

theorem Table.Alike.eq {as bs : Table α} (h : Table.Alike R as bs) : as = bs := by
  induction h with
  | nil => rfl
  | cons _ hab _ ih => rw [hR hab, ih]

end

section

variable {S : Matching} (hS : ∀ {a b}, S.rel a b → a = b)
include hS

theorem Symbol.Alike.eq {a b : Symbol} (h : Symbol.Alike S a b) : a = b := by
  obtain ⟨name, kind, typeName, v⟩ := a
  obtain ⟨_, _, _, w⟩ := b
  obtain ⟨rfl, rfl, rfl, hvalue⟩ := h
  obtain ⟨rfl, rfl⟩ | ⟨_, _, rfl, rfl, hvw⟩ := relates_or_none hvalue
  · rfl
  · rw [hvw.eq hS]

theorem Instance.Alike.eq {a b : Instance} (h : Instance.Alike S a b) : a = b := by
  obtain ⟨name, fields, methods, concealed⟩ := a
  obtain ⟨hname, hfields, hmethods, hconcealed⟩ := h
  simp only at hname hfields hmethods hconcealed
  rw [hname, Value.Alike.eq_fields hS hfields, Table.Alike.eq hS hmethods, hconcealed]

theorem Member.Alike.eq {a b : Member} (h : Member.Alike S a b) : a = b := by
  obtain ⟨c, exposed, dominant⟩ := a
  obtain ⟨d, _, _⟩ := b
  obtain ⟨hdecl, rfl, rfl⟩ := h
  cases hdecl with
  | field => rfl
  | method hcd => rw [hS hcd]

theorem Session.Alike.eq {a b : Session} (h : Session.Alike S a b) : a = b := by
  obtain ⟨name, members, location⟩ := a
  obtain ⟨hname, hmembers, hlocation⟩ := h
  simp only at hname hmembers hlocation
  rw [hname, eq_of_forall₂ (Member.Alike.eq hS) hmembers, hlocation]

end

theorem Symbol.Alike.refl (a : Symbol) : Symbol.Alike .equal a a := by
  refine ⟨rfl, rfl, rfl, ?_⟩
  cases a.value with
  | none => exact .none
  | some v => exact .some (Value.Alike.refl (fun _ => rfl) v)

theorem Instance.Alike.refl (a : Instance) : Instance.Alike .equal a a :=
  ⟨rfl, Value.Alike.refl_fields (fun _ => rfl) a.fields, Table.Alike.refl (fun _ => rfl) a.methods,
    rfl⟩

theorem Session.Alike.refl (a : Session) : Session.Alike .equal a a :=
  .self fun _ _ _ _ => rfl

/-! ## Runs of the same code -/

/-- A comparison of two runs of the same code, in which every statement is `ok`. Links are `ok` only
if everything is, and if the two runs cannot differ in their base directories and linked files. -/
structure Pairing.Confines (P : Pairing) (ok : Stmt → Prop) : Prop where
  rel_iff : ∀ {a b}, P.matching.rel a b ↔ a = b ∧ ∀ stmt ∈ a.body, stmt.Every ok
  types_iff : ∀ {decl}, P.types decl ↔ ok (.tranceify decl)
  errors_eq : P.errors = Eq
  noted_eq : P.noted = Eq
  links : (∀ path loc, ¬ok (.mindLink path loc)) ∨ (∀ stmt, ok stmt) ∧ (∀ symbol, ¬P.lacks symbol) ∧
    ∀ {dir linked dir' linked'}, P.around dir linked dir' linked' ↔ dir = dir' ∧ linked = linked'

section

variable {P : Pairing} {ok : Stmt → Prop} (hP : P.Confines ok)
include hP

theorem Pairing.Confines.eq_of_rel {a b : Suggestion} (h : P.matching.rel a b) :
    a = b := (hP.rel_iff.1 h).1

theorem Machine.Alike.eq_of_confines {kinds : List Frame.Kind} {m n : Machine}
    (h : Machine.Alike P kinds m n) : m = { n with
      scopes := m.scopes
      events := P.shown ++ n.events
      linked := m.linked
      baseDir := m.baseDir
      signal := m.signal } := by
  have hheap : m.heap = n.heap :=
    Array.toList_inj.1 (eq_of_forall₂ (Instance.Alike.eq hP.eq_of_rel) h.heap)
  have hsessions : m.sessions = n.sessions :=
    Table.Alike.eq (Session.Alike.eq hP.eq_of_rel) h.sessions
  have hrecords : m.records = n.records := Table.Alike.eq And.left h.records
  have hfailures : m.failures = n.failures := hP.noted_eq ▸ h.failures
  rw [← hheap, ← hsessions, ← h.statics, ← hrecords, ← h.input, ← h.capacity, ← hfailures, ← h.depth]
  exact congrArg (fun events => { m with events }) h.events

section

variable (hordered : ¬P.reorders)
include hordered

theorem Pairing.Confines.eq_of_global {as bs : Bindings} (h : P.Global as bs) : as = bs :=
  eq_of_forall₂ (Symbol.Alike.eq hP.eq_of_rel) (h.resolve_right fun h => hordered h.1)

theorem Pairing.Confines.eq_of_scopes {kinds : List Frame.Kind} {s t : Scopes}
    (h : Scopes.Alike P.Local P.Global [] [] false kinds s t) : s = t := by
  obtain ⟨fs, as⟩ := s
  obtain ⟨gs, bs⟩ := t
  obtain ⟨hframes, hglobals⟩ := h
  simp only at hframes hglobals
  rw [hP.eq_of_global hordered hglobals]
  generalize hspare : false = spare at hframes
  induction hframes with
  | hidden => rfl
  | spare => cases hspare
  | frame kind bindings _ ih =>
    rw [eq_of_forall₂ (Symbol.Alike.eq hP.eq_of_rel) bindings, (Scopes.mk.inj (ih hspare)).1]

end

end

def Stmt.Kept (ok : Stmt → Prop) (s t : Stmt) : Prop := s = t ∧ s.Every ok

section

variable {ok : Stmt → Prop}

theorem Stmt.forall₂_kept {body : List Stmt} (h : ∀ s ∈ body, s.Every ok) :
    List.Forall₂ (Stmt.Kept ok) body body :=
  List.forall₂_same.2 fun s hs => ⟨rfl, h s hs⟩

theorem Suggestion.related_kept {decl : Suggestion} (h : ∀ s ∈ decl.body, s.Every ok) :
    Suggestion.Related (List.Forall₂ (Stmt.Kept ok)) decl decl := by
  cases decl
  exact .intro (Stmt.forall₂_kept h)

theorem Stmt.Kept.congruent {s t : Stmt} (h : s.Kept ok t) : Stmt.Congruent (Stmt.Kept ok) s t := by
  obtain ⟨rfl, hevery⟩ := h
  exact .self fun child hchild => ⟨rfl, hevery.child child hchild⟩

theorem Store.related_kept (files : Store) (h : ∀ stmt, ok stmt) :
    files.Related (Stmt.Kept ok) files where
  key _ := rfl
  load target := by
    cases files.load target with
    | error message => exact .inl ⟨message, rfl, rfl⟩
    | ok p => exact .inr ⟨p, p, rfl, rfl, Stmt.forall₂_kept fun _ _ => .of_forall h⟩

variable {P : Pairing} (hP : P.Confines ok)
include hP

theorem Pairing.Confines.rewrites : P.Rewrites (Stmt.Kept ok) fun _ _ => False where
  rel_iff := by
    intro a b
    rw [hP.rel_iff]
    constructor
    · rintro ⟨rfl, hbody⟩
      exact Suggestion.related_kept hbody
    · rintro ⟨bodies⟩
      obtain rfl := eq_of_forall₂ And.left bodies
      exact ⟨rfl, fun s hs => (List.forall₂_same.1 bodies s hs).2⟩
  types h := hP.types_iff.2 h.2.1
  errors_eq := hP.errors_eq
  notes _ := Pairing.notes_of_eq hP.noted_eq
  step h := .inl h.congruent
  actions h := h.elim

theorem Pairing.Confines.followsLinks (files : Store) :
    (∀ path loc, ¬Stmt.Kept ok (.mindLink path loc) (.mindLink path loc)) ∨
    P.FollowsLinks (Stmt.Kept ok) files files :=
  hP.links.imp (fun h path loc hkept => h path loc hkept.2.1) fun ⟨hall, hlacks, haround⟩ =>
    ⟨hlacks, haround, files.related_kept hall⟩

end

namespace Equal

abbrev Runs (P : Pairing) (ok : Stmt → Prop) : (exec exec' : Stmt → Exec Flow) → Prop :=
  Rewriting.Runs P (Stmt.Kept ok)

abbrev Follows (P : Pairing) (ok : Stmt → Prop) :
    (link link' : String → Location → Exec Unit) → Prop :=
  Rewriting.Follows P (Stmt.Kept ok)

variable {P : Pairing} {ok : Stmt → Prop} (hP : P.Confines ok) (cfg : Settings) {bound bound' : Nat}
  (hb : P.Bounds bound bound')
include hP hb

/-- **Code of one kind runs equally**, but for a run with a smaller bound that is cut short. -/
theorem run : Evaluators P (eval cfg bound) (eval cfg bound') ∧
    Callers P (call cfg bound) (call cfg bound') ∧
    Runs P ok (exec cfg bound) (exec cfg bound') ∧
    Follows P ok (link cfg bound) (link cfg bound') :=
  Rewriting.run hP.rewrites (hP.followsLinks cfg.files) rfl (fun _ _ _ h => h.elim) hb

theorem program {p : Program} (hp : ∀ stmt ∈ p.statements, stmt.Every ok) :
    Sim P P.Inside Eq (program cfg bound p) (program cfg bound' p) :=
  Rewriting.program hP.rewrites (hP.followsLinks cfg.files) rfl (fun _ _ _ h => h.elim) hb
    (Stmt.forall₂_kept hp)

end Equal

/-! ## All code -/

/-- Equal runs over hidden frames, of any code. The first has shown something before the second
began, and may be cut short if it `lags`. -/
def Pairing.same (hidden₁ hidden₂ : List Frame) (shown : Array Event) (lags : Prop) : Pairing where
  matching := .equal
  types _ := True
  hidden₁ := hidden₁
  hidden₂ := hidden₂
  errors := Eq
  shown := shown
  noted := Eq
  around dir linked dir' linked' := dir = dir' ∧ linked = linked'
  signals := Eq
  reorders := False
  lacks _ := False
  cuts := True
  lags := lags
  spare := false
  errors_self := @Pairing.equal_errors_self
  signals_self := Pairing.equal_signals_self
  lacks_ordinary := @Pairing.no_lacks_ordinary

section

variable {shown : Array Event} {lags : Prop} {kinds : List Frame.Kind}

theorem Pairing.Confines.same (hidden₁ hidden₂ : List Frame) (shown : Array Event) (lags : Prop) :
    (Pairing.same hidden₁ hidden₂ shown lags).Confines fun _ => True where
  rel_iff := (and_iff_left fun _ _ => .of_forall fun _ => trivial).symm
  types_iff := .rfl
  errors_eq := rfl
  noted_eq := rfl
  links := .inr ⟨fun _ => trivial, fun _ h => h, .rfl⟩

theorem Bindings.Alike.refl {reorders : Prop} {lacks : Symbol → Prop} (bindings : Bindings) :
    Bindings.Alike .equal reorders lacks bindings bindings :=
  .inl (List.forall₂_same.2 fun a _ => .refl a)

theorem Frames.Alike.refl (fs : List Frame) :
    Frames.Alike (List.Forall₂ (Symbol.Alike .equal)) [] [] false (fs.map (·.kind)) fs fs := by
  induction fs with
  | nil => exact .hidden
  | cons frame _ ih => exact .frame frame.kind (List.forall₂_same.2 fun a _ => .refl a) ih

/-- A machine on which something was shown before. -/
def Machine.showing (shown : Array Event) (m : Machine) :
    Machine := { m with events := shown ++ m.events }

@[simp] theorem Machine.showing_empty (m : Machine) : m.showing #[] = m := by
  simp [Machine.showing]

theorem Machine.alike_showing (m : Machine) :
    Machine.Alike (.same [] [] shown lags) (m.scopes.frames.map (·.kind)) (m.showing shown) m where
  scopes := ⟨.refl _, .refl _⟩
  heap := List.forall₂_same.2 fun a _ => .refl a
  sessions := Table.Alike.refl Session.Alike.refl _
  statics := rfl
  records := Table.Alike.refl (fun _ => ⟨rfl, trivial⟩) _
  events := rfl
  input := rfl
  capacity := rfl
  failures := rfl
  depth := rfl
  around := ⟨rfl, rfl⟩
  signal := rfl

theorem Machine.Alike.eq_showing {m n : Machine}
    (h : Machine.Alike (.same [] [] shown lags) kinds m n) : m = n.showing shown := by
  have hP := Pairing.Confines.same [] [] shown lags
  rw [h.eq_of_confines hP, hP.eq_of_scopes not_false h.scopes, h.around.1, h.around.2, show _ =
    _ from h.signal]
  rfl

/-! ## Outcomes -/

namespace Outcome

variable {α : Type}

/-- The outcome with a change of the machine that is left behind. -/
def mapMachine (change : Machine → Machine) : Outcome α → Outcome α
  | done a m => done a (change m)
  | failed e m => failed e (change m)
  | exhausted => exhausted

def Within (x y : Outcome α) : Prop := x = exhausted ∨ x = y

end Outcome

theorem Exec.between_eq {α : Type} (before after : Machine → Machine) (step : Exec α)
    (m : Machine) : between before after step m = (step (before m)).mapMachine after := by
  unfold between
  cases step (before m) <;> rfl

theorem Simulates.eq_mapMachine {α : Type} {A : α → α → Prop} (hA : ∀ a b, A a b → a = b)
    {x y : Exec α}
    (h : Sim (.same [] [] shown lags) (Pairing.same [] [] shown lags).Inside A x y) (m : Machine) :
    (lags ∧ x (m.showing shown) = .exhausted) ∨
    x (m.showing shown) = (y m).mapMachine (·.showing shown) := by
  have hout := h _ (Pairing.inside rfl rfl rfl _) _ _ m.alike_showing
  generalize x (m.showing shown) = p at hout ⊢
  generalize y m = q at hout ⊢
  cases hout with
  | done result machines => exact .inr (by rw [hA _ _ result, machines.eq_showing]; rfl)
  | failed error machines => exact .inr (by rw [show _ = _ from error, machines.eq_showing]; rfl)
  | escaped escape => exact escape.elim
  | exhausted => exact .inr rfl
  | lagging lags => exact .inl ⟨lags, rfl⟩
  | parted lacked => exact lacked.elim

end

/-! ## Bounds -/

theorem Simulates.within {α : Type} {A : α → α → Prop} (hA : ∀ a b, A a b → a = b) {x y : Exec α}
    (h : Sim (.same [] [] #[] True) (Pairing.same [] [] #[] True).Inside A x y) (m : Machine) :
    (x m).Within (y m) := by
  have hout := h.eq_mapMachine hA m
  simp only [Machine.showing_empty] at hout
  refine hout.imp And.right fun heq => heq.trans ?_
  cases y m <;> rfl

section

variable {bound bound' : Nat} (hb : bound ≤ bound') (cfg : Settings)
include hb

/-- **A greater bound changes no outcome of a program.** -/
theorem Exec.program_within (p : Program) (m : Machine) :
    (program cfg bound p m).Within (program cfg bound' p m) :=
  ((Equal.program (Pairing.Confines.same [] [] #[] True) cfg (.inr ⟨trivial, hb⟩)
    fun _ _ => .of_forall fun _ => trivial).within fun _ _ h => h) m

end

end Trance
