import Trance.Running.Engine

/-!
# The position of a jump

A jump that nothing takes up becomes an error, at the position that the machine has noted when a
jump was last made. Between the jump and its error no other jump is made: lists, loops and frames
hand the jump on as it is. So the position that the machine has noted is the one that the jump
carries. -/

namespace Trance

/-- The position that a jump carries. -/
def Flow.location? : Flow → Option Location
  | normal | awaken _ => none
  | snap loc | sink loc | jump _ loc => some loc

/-- The error of a way to end that nothing takes up. -/
def Flow.error? : Flow → Option RuntimeError
  | normal | awaken _ => none
  | snap loc => some (.raised (.jumpOutsideLoop "snap") loc)
  | sink loc => some (.raised (.jumpOutsideLoop "sink") loc)
  | jump label loc => some (.raised (.unresolvedLabel label) loc)

namespace Exec

/-- A step that ends with a jump only where the machine has noted the position of this jump. -/
class Signals (x : Exec Flow) : Prop where
  signal : ∀ {m flow m'}, x m = .done flow m' → ∀ loc ∈ flow.location?, m'.signal = loc

variable {α : Type}

theorem bind_eq_done {β : Type} {x : Exec α} {f : α → Exec β} {m m' : Machine} {b : β}
    (h : (x >>= f) m = .done b m') : ∃ a m₁, x m = .done a m₁ ∧ f a m₁ = .done b m' := by
  simp only [Bind.bind, Exec.bind] at h
  cases hx : x m with
  | done a m₁ =>
    rw [hx] at h
    exact ⟨a, m₁, rfl, h⟩
  | failed | exhausted =>
    rw [hx] at h
    cases h

section

variable {α : Type} {x : Exec Flow}

instance : Signals exhausted := ⟨fun h => nomatch h⟩

instance : Signals (pure .normal) := ⟨by rintro _ _ _ ⟨⟩ _ ⟨⟩⟩

instance (value : Value) : Signals (pure (.awaken value)) := ⟨by rintro _ _ _ ⟨⟩ _ ⟨⟩⟩

instance (loc : Location) : Signals (makeJump (.snap loc) loc) := ⟨by rintro _ _ _ ⟨⟩ _ ⟨⟩; rfl⟩

instance (loc : Location) : Signals (makeJump (.sink loc) loc) := ⟨by rintro _ _ _ ⟨⟩ _ ⟨⟩; rfl⟩

instance (label : String) (loc : Location) : Signals (makeJump (.jump label loc) loc) :=
  ⟨by rintro _ _ _ ⟨⟩ _ ⟨⟩; rfl⟩

instance signals_bind (x : Exec α) {f : α → Exec Flow} [∀ a, Signals (f a)] : Signals (x >>= f) where
  signal h := by
    obtain ⟨a, m₁, -, hf⟩ := bind_eq_done h
    exact Signals.signal hf

instance {p : Prop} [Decidable p] {y : Exec Flow} [Signals x] [Signals y] :
    Signals (if p then x else y) := by
  split <;> infer_instance

theorem Signals.pass [Signals x] {f : Flow → Exec Flow}
    (hf : ∀ flow, f flow = pure flow ∨ Signals (f flow)) : Signals (x >>= f) where
  signal h := by
    obtain ⟨flow, m₁, hx, h⟩ := bind_eq_done h
    obtain hpure | hsignals := hf flow
    · rw [hpure] at h
      cases h
      exact Signals.signal hx
    · exact hsignals.signal h

theorem Signals.between {before after : Machine → Machine}
    (hafter : ∀ m, (after m).signal = m.signal) [Signals x] : Signals (between before after x) where
  signal {m _ _} h := by
    unfold Exec.between at h
    cases hx : x (before m) with
    | done flow m₁ =>
      rw [hx] at h
      cases h
      intro loc hloc
      rw [hafter, Signals.signal hx loc hloc]
    | failed | exhausted =>
      rw [hx] at h
      cases h

instance signals_inFrame (kind : Frame.Kind) [Signals x] :
    Signals (inFrame kind x) := .between fun _ => rfl

instance [Signals x] : Signals (deeper x) := .between fun _ => rfl

end

/-! ## Statements -/

section

variable {exec : Stmt → Exec Flow} [∀ s, Signals (exec s)]

instance (all : List Stmt) (bound : Nat) (rest : List Stmt) :
    Signals (sequence exec all bound rest) := by
  induction bound generalizing rest with
  | zero => exact inferInstanceAs (Signals exhausted)
  | succ bound ih =>
    cases rest with
    | nil => exact inferInstanceAs (Signals (pure .normal))
    | cons first rest =>
      refine .pass fun flow => ?_
      cases flow with
      | normal => exact .inr (ih rest)
      | jump label loc =>
        simp only
        cases Stmt.afterLabel? label all with
        | none => exact .inl rfl
        | some rest => exact .inr (ih rest)
      | snap | sink | awaken => exact .inl rfl

instance (bound : Nat) (body : List Stmt) : Signals (block exec bound body) :=
  inferInstanceAs (Signals (inFrame .block (sequence exec body bound body)))

instance (cond : Exec Bool) {body : Exec Flow} [Signals body] (step : Exec Unit) (bound : Nat) :
    Signals (iterate cond body step bound) := by
  induction bound with
  | zero => exact inferInstanceAs (Signals exhausted)
  | succ bound ih =>
    refine @signals_bind _ cond _ fun holds => ?_
    cases holds with
    | false => exact inferInstanceAs (Signals (pure .normal))
    | true =>
      refine .pass fun flow => ?_
      cases flow with
      | normal | sink => exact .inr (signals_bind step)
      | snap => exact .inr (inferInstanceAs (Signals (pure .normal)))
      | jump | awaken => exact .inl rfl

instance (stmt : Stmt) : Signals (mainStmt exec stmt) := by
  unfold mainStmt
  infer_instance

/-- **A statement ends with a jump only where the machine has noted the position of the jump**, if
its parts do. -/
instance signals_execStep (bound : Nat) (eval : Expr → Exec Value)
    (link : String → Location → Exec Unit)
    (stmt : Stmt) : Signals (execStep bound eval exec link stmt) := by
  cases stmt with
  | branch cond yes no loc =>
    cases no <;> exact inferInstanceAs
      (Signals (eval cond >>= fun value => if value.truthy then _ else _))
  | loop init cond step body loc =>
    have hrounds :
        Signals (iterate (holds eval cond) (block exec bound body) (perform eval step) bound) :=
      inferInstance
    cases init with
    | some init =>
      refine @signals_inFrame _ .block (.pass (x := exec init) fun flow => ?_)
      cases flow with
      | normal => exact .inr hrounds
      | snap | sink | jump | awaken => exact .inl rfl
    | none => exact @signals_inFrame _ .block hrounds
  | awaken value loc => cases value <;> unfold execStep <;> infer_instance
  | _ =>
    unfold execStep
    infer_instance

end

instance signals_exec (cfg : Settings) (bound : Nat) (stmt : Stmt) :
    Signals (exec cfg bound stmt) := by
  induction bound generalizing stmt with
  | zero => exact inferInstanceAs (Signals exhausted)
  | succ bound ih => exact signals_execStep bound _ _ stmt

/-! ## Rejection -/

/-- What comes behind a statement fails if this ends with a jump, at the position that the machine
has noted. -/
def Rejects {α : Type} (f : Flow → Exec α) : Prop :=
  ∀ flow e m, flow.error? = some e → (∀ loc ∈ flow.location?, m.signal = loc) →
    f flow m = .failed e m

/-- Fail with the error of a jump, at the position that it carries. -/
def rejectOr {α : Type} (flow : Flow) (x : Exec α) : Exec α :=
  match flow.error? with
  | some e => throw e
  | none => x

theorem Rejects.rejectEscape : Rejects rejectEscape := by
  intro flow e m herror hsignal
  cases flow with
  | normal | awaken => cases herror
  | snap loc | sink loc | jump label loc =>
    cases herror
    show Outcome.failed (.raised _ m.signal) m = _
    rw [hsignal loc rfl]

theorem Rejects.of_jumps {f : Flow → Exec α} {x : Exec α}
    (hsnap : ∀ loc, f (.snap loc) = Exec.rejectEscape (.snap loc) >>= fun _ => x)
    (hsink : ∀ loc, f (.sink loc) = Exec.rejectEscape (.sink loc) >>= fun _ => x)
    (hjump : ∀ label loc, f (.jump label loc) = Exec.rejectEscape (.jump label loc) >>= fun _ =>
      x) : Rejects f := by
  intro flow e m herror hsignal
  have hfailed := Rejects.rejectEscape flow e m herror hsignal
  cases flow with
  | normal | awaken => cases herror
  | snap | sink | jump => simp only [hsnap, hsink, hjump, Bind.bind, Exec.bind, hfailed]

/-- **The position that the machine has noted is the one that the jump carries**, wherever a jump is
rejected. -/
theorem bind_eq_rejectOr (x : Exec Flow) [Signals x] {f : Flow → Exec α} (hf : Rejects f) :
    x >>= f = x >>= fun flow => rejectOr flow (f flow) := by
  funext m
  simp only [Bind.bind, Exec.bind]
  cases hx : x m with
  | done flow m₁ =>
    simp only [rejectOr]
    cases herror : flow.error? with
    | none => rfl
    | some e => exact hf flow e m₁ herror (Signals.signal hx)
  | failed | exhausted => rfl

end Exec

end Trance
