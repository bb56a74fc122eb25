import Trance.Proofs.Running.Isolation

/-!
# Runs that come to an end

A run is given a bound, and is cut short if it needs more. It comes to an end if it has the same
outcome with every bound that is great enough. Since a greater bound changes no outcome, one bound
that is great enough is all that is needed. -/

namespace Trance

namespace Outcome

variable {α β : Type}

theorem done_ne_exhausted {a : α} {m : Machine} : Outcome.done a m ≠ .exhausted := by simp

theorem failed_ne_exhausted {e : RuntimeError} {m : Machine} :
    (Outcome.failed e m : Outcome α) ≠ .exhausted := by simp

theorem Within.eq {x y : Outcome α} (h : x.Within y) (hx : x ≠ .exhausted) : x = y :=
  h.resolve_left hx

@[simp] theorem mapMachine_id (o : Outcome α) : (o.mapMachine fun m => m) = o := by
  cases o <;> rfl

@[simp] theorem mapMachine_mapMachine (change change' : Machine → Machine) (o : Outcome α) :
    (o.mapMachine change).mapMachine change' = o.mapMachine fun m => change' (change m) := by
  cases o <;> rfl

theorem mapMachine_congr {change change' : Machine → Machine} {o : Outcome α}
    (h : ∀ m, o.machine? = some m → change m = change' m) :
    o.mapMachine change = o.mapMachine change' := by
  cases o with
  | done a m | failed a m => rw [mapMachine, h m rfl]; rfl
  | exhausted => rfl

end Outcome

namespace Exec

variable {α β : Type}

/-! ## Steps that are done -/

variable {m m' : Machine}

theorem bind_of_done {x : Exec α} {a : α} (h : x m = .done a m') (f : α → Exec β) :
    (x >>= f) m = f a m' := by
  simp only [Bind.bind, Exec.bind, h]

theorem define_done {symbol : Symbol} {loc : Location} (h : define symbol loc m = .done () m') :
    ∃ scopes, m.scopes.define? symbol = some scopes ∧ m' = { m with scopes } := by
  simp only [define, Bind.bind, Exec.bind, machine] at h
  cases hdefine : m.scopes.define? symbol with
  | none =>
    rw [hdefine] at h
    cases h
  | some scopes =>
    rw [hdefine] at h
    cases h
    exact ⟨scopes, rfl, rfl⟩

theorem machine?_bind {x : Exec α} {f : α → Exec β} (h : ((x >>= f) m).machine? = some m') :
    (∃ e, x m = .failed e m') ∨ ∃ a m₁, x m = .done a m₁ ∧ (f a m₁).machine? = some m' := by
  simp only [Bind.bind, Exec.bind] at h
  cases hx : x m with
  | done a m₁ =>
    rw [hx] at h
    exact .inr ⟨a, m₁, rfl, h⟩
  | failed e m₁ =>
    rw [hx] at h
    cases h
    exact .inl ⟨e, rfl⟩
  | exhausted =>
    rw [hx] at h
    cases h

theorem bind_ne_exhausted {x : Exec α} {f : α → Exec β} (hx : x m ≠ .exhausted)
    (hf : ∀ a m', x m = .done a m' → f a m' ≠ .exhausted) : (x >>= f) m ≠ .exhausted := by
  simp only [Bind.bind, Exec.bind]
  cases h : x m with
  | done a m' => exact hf a m' h
  | failed => exact Outcome.failed_ne_exhausted
  | exhausted => exact absurd h hx

theorem forM_append {σ : Type} (f : σ → Exec Unit) (xs ys : List σ) :
    (xs ++ ys).forM f = xs.forM f >>= fun _ => ys.forM f := by
  induction xs with
  | nil => rfl
  | cons s rest ih =>
    show (f s >>= fun _ => (rest ++ ys).forM f) = (f s >>= fun _ => rest.forM f) >>= _
    rw [ih, bind_assoc]

theorem forM_singleton {σ : Type} (f : σ → Exec Unit) (s : σ) : [s].forM f = f s := bind_pure_unit

theorem bind_mapMachine {x y : Exec α} {f g : α → Exec β} {change : Machine → Machine} {n : Machine}
    (h : x n = (y m).mapMachine change)
    (hf : ∀ a m', y m = .done a m' → f a (change m') = (g a m').mapMachine change) :
    (x >>= f) n = ((y >>= g) m).mapMachine change := by
  simp only [Bind.bind, Exec.bind, h]
  cases hy : y m with
  | done a m' => exact hf a m' hy
  | failed | exhausted => rfl

/-! ## Steps that come to an end -/

/-- Steps that come to an outcome as their bound grows: from some bound on, it is the outcome that
they have. -/
def Ends (x : Nat → Exec α) (m : Machine) (o : Outcome α) : Prop :=
  o ≠ .exhausted ∧ ∃ enough, ∀ bound, enough ≤ bound → x bound m = o

namespace Ends

variable {x y : Nat → Exec α} {f : Nat → α → Exec β} {m m' : Machine} {o o' : Outcome α}

theorem exists_eq (h : Ends x m o) : ∃ bound, x bound m = o := by
  obtain ⟨-, enough, hx⟩ := h
  exact ⟨enough, hx enough (Nat.le_refl _)⟩

theorem unique (h : Ends x m o) (h' : Ends x m o') : o = o' := by
  obtain ⟨-, enough, hx⟩ := h
  obtain ⟨-, enough', hx'⟩ := h'
  rw [← hx _ (Nat.le_max_left enough enough'), hx' _ (Nat.le_max_right enough enough')]

theorem const {x : Exec α} (h : x m ≠ .exhausted) : Ends (fun _ => x) m (x m) :=
  ⟨h, 0, fun _ _ => rfl⟩

theorem congr (h : Ends x m o) (heq : ∀ bound, y bound m = x bound m) : Ends y m o := by
  obtain ⟨hne, enough, hx⟩ := h
  exact ⟨hne, enough, fun bound hbound => (heq bound).trans (hx bound hbound)⟩

theorem bind {a : α} {o' : Outcome β} (h : Ends x m (.done a m'))
    (h' : Ends (fun bound => f bound a) m' o') : Ends (fun bound => x bound >>= f bound) m o' := by
  obtain ⟨-, enough, hx⟩ := h
  obtain ⟨hne, enough', hf⟩ := h'
  refine ⟨hne, max enough enough', fun bound hbound => ?_⟩
  obtain ⟨hle, hle'⟩ := Nat.max_le.1 hbound
  simp only [Bind.bind, Exec.bind, hx bound hle, hf bound hle']

theorem bind_failed {e : RuntimeError} (h : Ends x m (.failed e m')) :
    Ends (fun bound => x bound >>= f bound) m (.failed e m') := by
  obtain ⟨-, enough, hx⟩ := h
  refine ⟨Outcome.failed_ne_exhausted, enough, fun bound hbound => ?_⟩
  simp only [Bind.bind, Exec.bind, hx bound hbound]

theorem of_within_later (hxy : ∀ bound, ∃ enough, ∀ bound', enough ≤ bound' →
      (x bound m).Within (y bound' m))
    (h : Ends x m o) : Ends y m o := by
  obtain ⟨hne, bound, hx⟩ := h
  have hbound := hx bound (Nat.le_refl _)
  obtain ⟨enough, hwithin⟩ := hxy bound
  refine ⟨hne, enough, fun bound' hbound' => ?_⟩
  rw [← (hwithin bound' hbound').eq (by rwa [hbound]), hbound]

theorem iff_of_within (hxy : ∀ bound, (x bound m).Within (y bound m))
    (hyx : ∀ bound, ∃ enough, ∀ bound', enough ≤ bound' → (y bound m).Within (x bound' m)) :
    Ends x m o ↔ Ends y m o := by
  refine ⟨?_, of_within_later hyx⟩
  rintro ⟨hne, enough, hx⟩
  refine ⟨hne, enough, fun bound hbound => ?_⟩
  rw [← (hxy bound).eq (by rwa [hx bound hbound]), hx bound hbound]

theorem forM_or {σ : Type} (f : Nat → σ → Exec Unit) (xs : List σ) (m : Machine) :
    (∃ o, Ends (fun bound => xs.forM (f bound)) m o) ∨
    ∃ before s after m', xs = before ++ s :: after ∧ Ends (fun bound => before.forM (f bound)) m
      (.done () m') ∧ ¬∃ o, Ends (fun bound => f bound s) m' o := by
  induction xs generalizing m with
  | nil => exact .inl ⟨_, const (x := pure ()) Outcome.done_ne_exhausted⟩
  | cons s rest ih =>
    by_cases hs : ∃ o, Ends (fun bound => f bound s) m o
    · obtain ⟨o, ho⟩ := hs
      cases o with
      | done _ m₁ =>
        obtain ⟨o, hrest⟩ | ⟨before, t, after, m', rfl, hbefore, hstuck⟩ := ih m₁
        · exact .inl ⟨o, ho.bind hrest⟩
        · exact .inr ⟨s :: before, t, after, m', rfl, ho.bind hbefore, hstuck⟩
      | failed e m₁ => exact .inl ⟨_, ho.bind_failed⟩
      | exhausted => exact absurd rfl ho.1
    · exact .inr ⟨[], s, rest, m, rfl, const (x := pure ()) Outcome.done_ne_exhausted, hs⟩

end Ends

end Exec

/-- **An outcome that a program has with one bound is the one that it comes to.** -/
theorem Program.ends_of_run {cfg : Settings} {bound : Nat} {p : Program} {m : Machine}
    {o : Outcome Unit} (h : p.run cfg bound m = o) (hne : o ≠ .exhausted) :
    Exec.Ends (fun bound => p.run cfg bound) m o :=
  ⟨hne, bound, fun _ hle =>
    ((Exec.program_within hle cfg p m.reset).eq (fun heq => hne (h ▸ heq))).symm.trans h⟩

end Trance
