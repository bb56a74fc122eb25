import Trance.Proofs.Running.Course

/-!
# Every failure that is noted

A failure is noted by the visit to an assertion whose condition turns out not to hold, and by
nothing else. So the failures that a run has noted in the end are those of the visits to such
assertions that it comes to: each of these visits has noted one, and they stand in the order in
which they were noted. -/

namespace Trance

open List Visit

/-! ## Failing assertions -/

section

variable (cfg : Settings)

/-- `Fails v found failure`: the visit is one to an assertion, whose condition turns out not to
hold. Once it is evaluated the failures `found` have been noted, and `failure` is noted next. -/
inductive Visit.Fails : Visit → List AssertionFailure → AssertionFailure → Prop where
  | intro {n cond message loc m value m₁} (done : Exec.eval cfg n cond m = .done value m₁)
      (fails : value.truthy = false) :
      Fails ⟨n + 1, .exec (.assert cond message loc), m⟩ m₁.failures
        ⟨message.getD AssertionFailure.defaultMessage, loc⟩

/-- The visit is one to an assertion, whose condition turns out not to hold. -/
def Visit.Failed (v : Visit) : Prop := ∃ found failure, v.Fails cfg found failure

/-- `Tally before visits after`: the visits are to failing assertions. Each of them notes its
failure where those before it have noted theirs, which leads from the failures `before` to the
failures `after`. -/
inductive Tally : List AssertionFailure → List Visit → List AssertionFailure → Prop where
  | nil {noted} : Tally noted [] noted
  | cons {noted v failure rest after} (fails : v.Fails cfg noted failure)
      (more : Tally (noted ++ [failure]) rest after) : Tally noted (v :: rest) after

/-- The visits are all those to failing assertions that some visits in `T` come to. -/
def Gathers (T : Visit → Prop) (visits : List Visit) : Prop :=
  ∀ w, w ∈ visits ↔ (∃ v, T v ∧ Reaches cfg v w) ∧ w.Failed cfg

end

variable {cfg : Settings}

variable {m : Machine} {v : Visit} {before after : List AssertionFailure} {visits : List Visit}

theorem Visit.failed_assert {n : Nat} {cond : Expr} {message : Option String} {loc : Location} :
    Failed cfg ⟨n + 1, .exec (.assert cond message loc), m⟩ ↔
      ∃ value m₁, Exec.eval cfg n cond m = .done value m₁ ∧ value.truthy = false := by
  constructor
  · rintro ⟨found, failure, done, fails⟩
    exact ⟨_, _, done, fails⟩
  · rintro ⟨value, m₁, done, fails⟩
    exact ⟨_, _, .intro done fails⟩

theorem Visit.Fails.found_eq {found found' : List AssertionFailure}
    {failure failure' : AssertionFailure} (h : v.Fails cfg found failure)
    (h' : v.Fails cfg found' failure') : found = found' := by
  cases h with
  | intro done fails =>
    cases h' with
    | intro done' fails' =>
      rw [done] at done'
      cases done'
      rfl

theorem Tally.append {noted : List AssertionFailure} {more : List Visit}
    (first : Tally cfg before visits noted) (second : Tally cfg noted more after) :
    Tally cfg before (visits ++ more) after := by
  induction first with
  | nil => exact second
  | cons fails _ ih => exact .cons fails (ih second)

theorem Tally.found_of_mem (h : Tally cfg before visits after) (hv : v ∈ visits) :
    ∃ found failure, v.Fails cfg found failure ∧ before.length ≤ found.length := by
  induction h with
  | nil => cases hv
  | cons fails more ih =>
    obtain rfl | hv := mem_cons.1 hv
    · exact ⟨_, _, fails, Nat.le_refl _⟩
    · obtain ⟨found, failure, hfails, hle⟩ := ih hv
      refine ⟨found, failure, hfails, Nat.le_trans ?_ hle⟩
      simp

theorem Tally.nodup (h : Tally cfg before visits after) : visits.Nodup := by
  induction h with
  | nil => exact .nil
  | cons fails more ih =>
    refine nodup_cons.2 ⟨fun hv => ?_, ih⟩
    obtain ⟨found, failure, hfails, hle⟩ := more.found_of_mem hv
    rw [← fails.found_eq hfails, length_append, length_singleton] at hle
    omega

theorem Tally.length_eq (h : Tally cfg before visits after) :
    after.length = before.length + visits.length := by
  induction h with
  | nil => rfl
  | cons fails more ih =>
    rw [ih, length_append, length_singleton, length_cons]
    omega

namespace Gathers

variable {T T' : Visit → Prop} {v : Visit} {visits more : List Visit}

theorem nil : Gathers cfg (fun _ => False) [] := by
  intro w
  simp

theorem append (first : Gathers cfg T visits) (second : Gathers cfg T' more) :
    Gathers cfg (fun v => T v ∨ T' v) (visits ++ more) := by
  intro w
  rw [mem_append, first w, second w]
  simp only [or_and_right, exists_or]

theorem congr (hT : ∀ v, T v ↔ T' v) (h : Gathers cfg T' visits) : Gathers cfg T visits := by
  intro w
  simp only [hT, h w]

theorem of_starts (hv : ¬ v.Failed cfg) (h : Gathers cfg (Starts cfg v) visits) :
    Gathers cfg (· = v) visits := by
  intro w
  rw [h w]
  simp only [exists_eq_left]
  constructor
  · rintro ⟨⟨c, edge, hreaches⟩, hw⟩
    exact ⟨.head edge hreaches, hw⟩
  · rintro ⟨hreaches, hw⟩
    obtain rfl | hstarts := hreaches.cases_head
    · exact absurd hw hv
    · exact ⟨hstarts, hw⟩

theorem of_failed (hv : v.Failed cfg) (h : Gathers cfg (Starts cfg v) visits) :
    Gathers cfg (· = v) (visits ++ [v]) := by
  intro w
  rw [mem_append, mem_singleton, h w]
  simp only [exists_eq_left]
  constructor
  · rintro (⟨⟨c, edge, hreaches⟩, hw⟩ | rfl)
    · exact ⟨.head edge hreaches, hw⟩
    · exact ⟨.refl, hv⟩
  · rintro ⟨hreaches, hw⟩
    obtain rfl | hstarts := hreaches.cases_head
    · exact .inr rfl
    · exact .inl ⟨hstarts, hw⟩

end Gathers

/-! ## Assertions -/

theorem Exec.exec_assert (cfg : Settings) (n : Nat) (cond : Expr) (message : Option String)
    (loc : Location) (m : Machine) : Exec.exec cfg (n + 1) (.assert cond message loc) m =
      match Exec.eval cfg n cond m with
      | .done value m₁ => .done .normal (if value.truthy then m₁ else
          { m₁ with failures := m₁.failures ++
            [⟨message.getD AssertionFailure.defaultMessage, loc⟩] })
      | .failed e m₁ => .failed e m₁
      | .exhausted => .exhausted := by
  show (Exec.eval cfg n cond >>= fun value => do
    Exec.checkAssertion value.truthy message loc
    pure Flow.normal) m = _
  simp only [Bind.bind, Exec.bind]
  cases Exec.eval cfg n cond m with
  | done value m₁ =>
    cases htruthy : value.truthy with
    | true | false => simp only [htruthy]; rfl
  | failed | exhausted => rfl

/-! ## Visits -/

/-- What a visit notes is what the failing assertions note that it comes to. -/
def Visit.Accounts (cfg : Settings) (v : Visit) : Prop :=
  ∀ m', (v.task.step cfg v.bound v.machine).machine? = some m' →
    ∃ visits, Gathers cfg (· = v) visits ∧ Tally cfg v.machine.failures visits m'.failures

theorem Course.accounts {b : Bool} {end? : Option Machine} (h : Course cfg v b m visits end?)
    (hv : v.task.asserts = false) (hvisits : ∀ w ∈ visits, w.Accounts cfg) {m' : Machine}
    (hend : end? = some m') :
    ∃ noting, Gathers cfg (· ∈ visits) noting ∧ Tally cfg m.failures noting m'.failures := by
  induction h generalizing m' with
  | own _ noted =>
    cases hend
    refine ⟨[], .congr (by simp) .nil, ?_⟩
    rw [noted hv]
    exact .nil
  | cut => cases hend
  | visit =>
    obtain ⟨noting, hgathers, htally⟩ := hvisits _ (mem_singleton.2 rfl) m' hend
    exact ⟨noting, hgathers.congr fun _ => mem_singleton, htally⟩
  | trans _ _ ih ih' =>
    obtain ⟨hfirst, hsecond⟩ := forall_mem_append.1 hvisits
    obtain ⟨noting, hgathers, htally⟩ := ih hfirst rfl
    obtain ⟨more, hgathers', htally'⟩ := ih' hsecond hend
    exact ⟨noting ++ more, (hgathers.append hgathers').congr fun _ =>
      mem_append, htally.append htally'⟩
  | inFrame _ ih | deeper _ _ ih | inDirectory _ ih =>
    obtain ⟨m₁, rfl, rfl⟩ := Option.map_eq_some_iff.1 hend
    obtain ⟨noting, hgathers, htally⟩ := ih hvisits rfl
    exact ⟨noting, hgathers, htally⟩

theorem Visit.accounts_assert {n : Nat} {cond : Expr} {message : Option String} {loc : Location}
    (heval : Accounts cfg ⟨n, .eval cond, m⟩) :
    Accounts cfg ⟨n + 1, .exec (.assert cond message loc), m⟩ := by
  intro m' hm'
  have hstarts : ∀ w, Starts cfg ⟨n + 1, .exec (.assert cond message loc), m⟩ w ↔
      w = ⟨n, .eval cond, m⟩ := fun w => (starts_exec rfl).trans (by simp [only?, eq_comm])
  have hrun := Exec.exec_assert cfg n cond message loc m
  cases hvalue : Exec.eval cfg n cond m with
  | done value m₁ =>
    obtain ⟨visits, hgathers, htally⟩ := heval m₁ (congrArg Outcome.machine? hvalue)
    cases htruthy : value.truthy with
    | true =>
      obtain rfl : m₁ = m' := by simpa [Task.step, hrun, hvalue, htruthy, Outcome.machine?] using hm'
      refine ⟨visits, .of_starts ?_ (hgathers.congr hstarts), htally⟩
      simp [failed_assert, hvalue, htruthy]
    | false =>
      have hfails : Visit.Fails cfg ⟨n + 1, .exec (.assert cond message loc), m⟩ m₁.failures
        ⟨message.getD AssertionFailure.defaultMessage, loc⟩ := .intro hvalue htruthy
      obtain rfl : { m₁ with failures := m₁.failures ++
          [⟨message.getD AssertionFailure.defaultMessage, loc⟩] } =
        m' := by simpa [Task.step, hrun, hvalue, htruthy, Outcome.machine?] using hm'
      exact ⟨visits ++ [_], .of_failed ⟨_, _, hfails⟩ (hgathers.congr hstarts),
        htally.append (.cons hfails .nil)⟩
  | failed e m₁ =>
    obtain rfl : m₁ = m' := by simpa [Task.step, hrun, hvalue, Outcome.machine?] using hm'
    obtain ⟨visits, hgathers, htally⟩ := heval m₁ (congrArg Outcome.machine? hvalue)
    refine ⟨visits, .of_starts ?_ (hgathers.congr hstarts), htally⟩
    simp [failed_assert, hvalue]
  | exhausted => simp [Task.step, hrun, hvalue, Outcome.machine?] at hm'

theorem Visit.accounts (cfg : Settings) (v : Visit) : v.Accounts cfg := by
  refine Visit.induction cfg (fun v ih => ?_) v
  obtain ⟨n, task, m⟩ := v
  cases hasserts : task.asserts with
  | false =>
    intro m' hm'
    obtain ⟨visits, hvisits, hcourse⟩ := Task.follows cfg n task m
    obtain ⟨noting, hgathers, htally⟩ :=
      hcourse.accounts hasserts (fun w hw => ih w ((hvisits w).2 hw)) hm'
    refine ⟨noting, .of_starts ?_ (hgathers.congr hvisits), htally⟩
    rintro ⟨found, failure, ⟨⟩⟩
    cases hasserts
  | true =>
    unfold Task.asserts at hasserts
    split at hasserts
    · cases n with
      | zero => rintro m' ⟨⟩
      | succ n => exact accounts_assert (ih _ .asserted)
    · cases hasserts

/-- **What a program notes is what the failing assertions note that it comes to.** There is one
failure for each of them, and they stand in the order in which they were noted. -/
theorem Program.noted_of_run (p : Program) (bound : Nat) {m' : Machine}
    (h : (p.run cfg bound m).machine? = some m') :
    ∃ visits : List Visit, Tally cfg [] visits m'.failures ∧
      ∀ v, v ∈ visits ↔ Reaches cfg ⟨bound, .program p, m.reset⟩ v ∧ v.Failed cfg := by
  obtain ⟨visits, hgathers, htally⟩ := accounts cfg ⟨bound, .program p, m.reset⟩ m' h
  refine ⟨visits, htally, fun v => ?_⟩
  rw [hgathers v]
  simp only [exists_eq_left]

end Trance
