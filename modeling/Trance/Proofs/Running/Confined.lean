import Trance.Proofs.Running.Ending
import Trance.Proofs.Running.Visits

/-!
# Code without links

Code that has no links does not look at the base directory or at the files linked so far, and leaves
both alone. This is true of a run as long as all that it can call is code without links, and it
stays so: a suggestion that a run finds anywhere has been declared by code that it has run.

The code may be confined further, to statements of one kind.
-/

namespace Trance

open Pairing

/-! ## Runs in different places -/

/-- Suggestions correspond to themselves if all their statements are of one kind. -/
def Matching.confined (ok : Stmt → Prop) : Matching where
  rel a b := a = b ∧ ∀ stmt ∈ a.body, stmt.Every ok
  signature h := h.1 ▸ rfl

/-- Runs of code of one kind on machines that may differ in their base directories and linked files,
and perhaps in the order of their names. They are cut short together, if this is allowed for. -/
def Pairing.confined (ok : Stmt → Prop)
    (around : String → List FileKey → String → List FileKey → Prop) (reorders cuts : Prop) :
    Pairing where
  matching := .confined ok
  types decl := ok (.tranceify decl)
  hidden₁ := []
  hidden₂ := []
  errors := Eq
  shown := #[]
  noted := Eq
  around := around
  signals := Eq
  reorders := reorders
  lacks _ := False
  cuts := cuts
  lags := False
  spare := false
  errors_self := @equal_errors_self
  signals_self := equal_signals_self
  lacks_ordinary := @no_lacks_ordinary

variable {ok : Stmt → Prop} {around : String → List FileKey → String → List FileKey → Prop}
  {reorders cuts : Prop} {kinds : List Frame.Kind} {m m' : Machine}

theorem Pairing.Confines.confined (hlinks : ∀ path loc, ¬ok (.mindLink path loc)) :
    (confined ok around reorders cuts).Confines ok :=
  ⟨.rfl, .rfl, rfl, rfl, .inl hlinks⟩

theorem Pairing.inside_confined : (confined ok around reorders cuts).Inside kinds :=
  inside rfl rfl rfl kinds

/-- All that can be called on a machine is code of one kind. Its frames are of the given kinds. -/
def Machine.Confined (ok : Stmt → Prop) (kinds : List Frame.Kind) (m : Machine) : Prop :=
  Machine.Alike (.confined ok (fun _ _ _ _ => True) False True) kinds m m

namespace Machine

def placed (dir : String) (linked : List FileKey) (m : Machine) : Machine :=
  { m with baseDir := dir, linked }

theorem Confined.placed (h : m.Confined ok kinds) (dir : String) (linked : List FileKey) :
    (m.placed dir linked).Confined ok kinds :=
  { h with around := trivial }

theorem Confined.frames_eq_nil (h : m.Confined ok []) :
    m.scopes.frames = [] := (h.scopes.frames.eq_hidden rfl).1

theorem confined_reset (m : Machine) : m.reset.Confined ok [] :=
  alike_reset rfl rfl rfl rfl rfl m trivial

end Machine

/-! ## Steps that do not look where they take place -/

namespace Exec

/-- A step of code of one kind, for which it makes no difference where it takes place, or in which
order names have been bound. -/
def Placeless (ok : Stmt → Prop) (x : Exec Unit) : Prop :=
  ∀ around reorders, Sim (.confined ok around reorders True)
    (confined ok around reorders True).Inside Eq x x

namespace Placeless

variable {x : Exec Unit}

theorem eq_mapMachine (hlinks : ∀ path loc, ¬ok (.mindLink path loc)) (hx : x.Placeless ok)
    (hm : m.Confined ok kinds) (dir : String) (linked : List FileKey) :
    x (m.placed dir linked) = (x m).mapMachine (·.placed dir linked) := by
  have hout := hx (fun d l _ _ => d = dir ∧ l = linked) False kinds inside_confined
    (m.placed dir linked) m { hm with around := ⟨rfl, rfl⟩ }
  have heq : ∀ {a b : Machine},
      Machine.Alike (.confined ok (fun d l _ _ => d = dir ∧ l = linked) False True) kinds a b →
      a = b.placed dir linked := by
    intro a b hab
    have hP : (confined ok (fun d l _ _ => d = dir ∧ l = linked) False True).Confines ok :=
      .confined hlinks
    rw [hab.eq_of_confines hP, hP.eq_of_scopes not_false hab.scopes, hab.around.1, hab.around.2,
      show _ = _ from hab.signal, confined, Array.empty_append]
    rfl
  generalize x (m.placed dir linked) = p at hout ⊢
  generalize x m = q at hout ⊢
  cases hout with
  | done result machines => rw [heq machines]; rfl
  | failed error machines => rw [heq machines, show _ = _ from error]; rfl
  | escaped escape => exact escape.elim
  | exhausted => rfl
  | lagging lags => exact lags.elim
  | parted lacked => exact lacked.elim

theorem keeps (hx : x.Placeless ok) (hm : m.Confined ok kinds) (h : (x m).machine? = some m') :
    m'.Confined ok kinds ∧ m'.baseDir = m.baseDir ∧ m'.linked = m.linked := by
  have hout := hx (fun d l _ _ => d = m.baseDir ∧ l = m.linked) False kinds inside_confined m m
    { hm with around := ⟨rfl, rfl⟩ }
  generalize x m = p at hout h
  cases hout with
  | done result machines | failed error machines =>
    cases h
    exact ⟨{ machines with around := trivial }, machines.around⟩
  | exhausted => cases h
  | lagging lags => exact lags.elim
  | parted lacked => exact lacked.elim

theorem eq_moved (hlinks : ∀ path loc, ¬ok (.mindLink path loc)) (hx : x.Placeless ok)
    (hm : m.Confined ok kinds) (dir : String) :
    x (m.moved dir) = (x m).mapMachine (·.moved dir) := by
  refine (hx.eq_mapMachine hlinks hm dir m.linked).trans (Outcome.mapMachine_congr fun m' hm' => ?_)
  rw [Machine.placed, ← (hx.keeps hm hm').2.2]
  rfl

section

variable (hlinks : ∀ path loc, ¬ok (.mindLink path loc)) (cfg : Settings) (bound : Nat)
include hlinks

theorem declare {stmt : Stmt} (hstmt : stmt.Every ok) :
    (Exec.declare (Exec.eval cfg bound) stmt).Placeless ok :=
  fun _ _ => Rewriting.declare (Confines.confined hlinks).rewrites
    (Equal.run (.confined hlinks) cfg (.refl trivial bound)).1 ⟨rfl, hstmt⟩

theorem induce (decl : Variable) : (Exec.induce (Exec.eval cfg bound) decl).Placeless ok :=
  fun _ _ => Simulates.induce (Equal.run (.confined hlinks) cfg (.refl trivial bound)).1 decl

end

theorem forM {σ : Type} {f : σ → Exec Unit} {xs : List σ} (h : ∀ s ∈ xs, (f s).Placeless ok) :
    (xs.forM f).Placeless ok :=
  fun around reorders => Simulates.forM fun s hs => h s hs around reorders

end Placeless

end Exec

end Trance
