import Trance.Proofs.Running.Equal

/-!
# Calls are isolated from their callers

A call, a new session and the first value of a field do not see the frames that are open around
them, and leave them as they were. Two machines that differ only in their frames are run side by
side; the frames are hidden, and nothing inside of a call leads to a hidden frame.
-/

namespace Trance

/-! ## Isolated steps -/

def Machine.withFrames (m : Machine) (frames : List Frame) : Machine :=
  { m with scopes := { m.scopes with frames } }

namespace Outcome

variable {α : Type}

/-- The machine that an outcome leaves behind, unless the run is cut short. -/
def machine? : Outcome α → Option Machine
  | done _ m | failed _ m => some m
  | exhausted => none

/-- The outcome with other frames in the machine that is left behind. -/
def withFrames (frames : List Frame) : Outcome α → Outcome α
  | done a m => done a (m.withFrames frames)
  | failed e m => failed e (m.withFrames frames)
  | exhausted => exhausted

end Outcome

/-- A step that has the same outcome on machines that differ only in their frames, but for these
frames, and that leaves the frames of each as they were, whether it is done or has failed. -/
structure Exec.Isolated {α : Type} (x : Exec α) : Prop where
  blind : ∀ m n : Machine, m.withFrames [] = n.withFrames [] →
      (x m).withFrames [] = (x n).withFrames []
  keeps : ∀ m m' : Machine, (x m).machine? = some m' → m'.scopes.frames = m.scopes.frames

/-! ## Hidden frames -/

abbrev Pairing.detached (hidden₁ hidden₂ : List Frame) : Pairing := .same hidden₁ hidden₂ #[] False

section

variable {hidden₁ hidden₂ : List Frame}

theorem Machine.alike_of_withFrames_eq {m n : Machine} (h : m.withFrames [] = n.withFrames []) :
    Machine.Alike (.detached m.scopes.frames n.scopes.frames) [] m n := by
  obtain ⟨⟨_, globals⟩, heap, sessions, _, records, _, _, _, _, _, _, _, _⟩ := m
  obtain ⟨⟨_, _⟩, _, _, _, _, _, _, _, _, _, _, _, _⟩ := n
  simp only [Machine.withFrames, Machine.mk.injEq, Scopes.mk.injEq, true_and] at h
  obtain ⟨rfl, rfl, rfl, rfl, rfl, rfl, rfl, rfl, rfl, rfl, rfl, rfl, rfl⟩ := h
  exact ⟨⟨.hidden, .refl globals⟩, List.forall₂_same.2 fun a _ => .refl a,
    Table.Alike.refl Session.Alike.refl sessions, rfl,
      Table.Alike.refl (fun _ => ⟨rfl, trivial⟩) records,
    Array.empty_append.symm, rfl, rfl, rfl, rfl, ⟨rfl, rfl⟩, rfl⟩

theorem Machine.Alike.withFrames_eq {m n : Machine}
    (h : Machine.Alike (.detached hidden₁ hidden₂) [] m n) :
    m.withFrames [] = n.withFrames [] ∧ m.scopes.frames = hidden₁ ∧ n.scopes.frames = hidden₂ := by
  refine ⟨?_, h.scopes.frames.eq_hidden rfl⟩
  have hP := Pairing.Confines.same hidden₁ hidden₂ #[] False
  rw [h.eq_of_confines hP, h.around.1, h.around.2, show _ = _ from h.signal,
    show (Pairing.detached hidden₁ hidden₂).shown = #[] from rfl, Array.empty_append]
  exact congrArg (fun globals => { n with scopes := ⟨[], globals⟩ })
    (hP.eq_of_global not_false h.scopes.globals)

/-- **A step is isolated if it is related to itself whatever frames are hidden.** -/
theorem Exec.isolated_of_sim {α : Type} {x : Exec α}
    (h : ∀ hidden₁ hidden₂, ∃ A : α → α → Prop, (∀ a b, A a b → a = b) ∧
      Sim (.detached hidden₁ hidden₂) Anywhere A x x) : x.Isolated := by
  have hpair : ∀ m n : Machine, m.withFrames [] = n.withFrames [] →
      (x m).withFrames [] = (x n).withFrames [] ∧
        ∀ m', (x m).machine? = some m' → m'.scopes.frames = m.scopes.frames := by
    intro m n hmn
    obtain ⟨A, hA, hx⟩ := h m.scopes.frames n.scopes.frames
    have hout := hx [] trivial m n (Machine.alike_of_withFrames_eq hmn)
    generalize x m = p at hout ⊢
    generalize x n = q at hout ⊢
    cases hout with
    | done hab hm =>
      obtain ⟨hframes, hm, -⟩ := hm.withFrames_eq
      refine ⟨by simp only [Outcome.withFrames, hA _ _ hab, hframes], ?_⟩
      rintro _ ⟨⟩
      exact hm
    | failed herror hm =>
      obtain ⟨hframes, hm, -⟩ := hm.withFrames_eq
      refine ⟨by simp only [Outcome.withFrames, show _ = _ from herror, hframes], ?_⟩
      rintro _ ⟨⟩
      exact hm
    | escaped h | lagging h | parted h => exact h.elim
    | exhausted =>
      refine ⟨rfl, ?_⟩
      rintro _ ⟨⟩
  exact ⟨fun m n hmn => (hpair m n hmn).1, fun m m' hm' => (hpair m m rfl).2 m' hm'⟩

end

/-- **Calls, new sessions and first values are isolated from the frames around them.** They have the
same result or error, and leave the same machine behind, whatever frames are open, and every frame
that was open is afterwards exactly as it was, also after a failure. -/
theorem call_instantiate_evalDetached_isolated (cfg : Settings) (bound : Nat) :
    (∀ decl args receiver loc, (Exec.call cfg bound decl args receiver loc).Isolated) ∧
    (∀ name args loc, (Exec.instantiate cfg.maxDepth (Exec.eval cfg bound)
      (Exec.call cfg bound) name args loc).Isolated) ∧
    (∀ expr, (Exec.evalDetached (Exec.eval cfg bound) expr).Isolated) := by
  have hargs : ∀ args, List.Forall₂ (Value.Alike .equal) args args :=
    Value.Alike.refl_items fun _ => rfl
  refine ⟨fun decl args receiver loc => ?_, fun name args loc => ?_, fun expr => ?_⟩ <;>
    refine Exec.isolated_of_sim fun hidden₁ hidden₂ =>
      ⟨Value.Alike .equal, fun _ _ => Value.Alike.eq id, ?_⟩ <;>
    obtain ⟨heval, hcall, -⟩ := Equal.run (.same hidden₁ hidden₂ #[] False) cfg (.refl trivial bound)
  · exact hcall rfl (hargs args) receiver loc
  · exact .instantiate cfg.maxDepth heval hcall name (hargs args) loc
  · exact .evalDetached heval expr

end Trance
