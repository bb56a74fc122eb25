import Trance.Proofs.Assertions.Account
import Trance.Proofs.Assertions.Quieting

/-!
# Assertions are transparent

A program with its assertions runs as without them: what they decide is only what is noted. Without
assertions nothing is noted, and with them there is one failure for each assertion that was run and
whose condition did not hold, in the order in which the conditions were found not to hold. -/

namespace Trance

/-! ## Transparency -/

/-- **With or without its assertions, a program runs the same but for what is noted.** All
assertions of a program can be replaced by the evaluation of their conditions. If that is done, and
the same in the linked files, then with the same options and the same input the outcome is the same,
an error with its position included, and so is what is shown and asked for and the input that is
left; global names have the same values, the same sessions and record types are declared and there
are the same objects, but for the assertions in suggestions. The program without assertions notes
nothing. The one with them notes one failure for each assertion that it comes to and whose condition
does not hold, in the order in which that turns out. -/
theorem assertions_are_transparent (p : Program) {cfg cfg' : Settings}
    (hfiles : cfg.files.Quieted cfg'.files) (hdepth : cfg.maxDepth = cfg'.maxDepth)
    (bound : Nat) (m : Machine) :
    (∃ q, p.Quieted q) ∧
    (∀ q, p.Quieted q → (p.run cfg bound m).Quieted (q.run cfg' bound m)) ∧
    ∀ m', (p.run cfg bound m).machine? = some m' →
      ∃ visits : List Visit, visits.Nodup ∧ Tally cfg [] visits m'.failures ∧ ∀ v, v ∈ visits ↔
          Visit.Reaches cfg ⟨bound, .program p, m.reset⟩ v ∧ v.Failed cfg := by
  refine ⟨p.exists_quieted, fun q h => h.run hfiles hdepth bound m, fun m' hm' => ?_⟩
  obtain ⟨visits, htally, hvisits⟩ := p.noted_of_run bound hm'
  exact ⟨visits, htally.nodup, htally, hvisits⟩

/-! ## An example -/

/-- A program with a suggestion, which it calls before some other statement. -/
def Program.calling (inside stmt : Stmt) : Program :=
  ⟨[.suggestion ⟨"f", [⟨"x", none⟩], none, [inside], false, false, ⟨1, 7⟩, .main⟩,
    .expr (.call (.name "f" ⟨2, 1⟩) [.boolean false ⟨2, 3⟩] ⟨2, 2⟩) ⟨2, 1⟩, stmt,
    .observe (.text "end" ⟨4, 9⟩) ⟨4, 1⟩]⟩

def Program.asserting : Program :=
  .calling (.assert (.name "x" ⟨1, 32⟩) none ⟨1, 25⟩)
    (.assert (.boolean false ⟨3, 8⟩) (some "never") ⟨3, 1⟩)

def Program.trusting : Program :=
  .calling (.expr (.name "x" ⟨1, 32⟩) ⟨1, 32⟩) (.expr (.boolean false ⟨3, 8⟩) ⟨3, 8⟩)

theorem Program.asserting_quieted : Program.asserting.Quieted .trusting :=
  .cons (.suggestion (.intro (.cons (.assert _ _ _ _) .nil)))
    (.cons (.simple rfl) (.cons (.assert _ _ _ _) (.cons (.simple rfl) .nil)))

theorem Program.asserting_noted :
    ∃ m', asserting.run ⟨.empty, 8⟩ 12 (.new "" [] none) = .done () m' ∧ m'.events = #[.line "end"] ∧
      m'.failures = [⟨"Assertion failed", ⟨1, 25⟩⟩, ⟨"never", ⟨3, 1⟩⟩] :=
  ⟨_, rfl, rfl, rfl⟩

/-- The program without assertions writes what the one with them does, and notes nothing. The two
failures that are noted with them come from two visits. -/
theorem asserting_runs_as_trusting : Program.asserting.Quieted .trusting ∧
    (∃ m', Program.trusting.run ⟨.empty, 8⟩ 12 (.new "" [] none) = .done () m' ∧
      m'.events = #[.line "end"] ∧ m'.failures = []) ∧
    ∃ m', Program.asserting.run ⟨.empty, 8⟩ 12 (.new "" [] none) = .done () m' ∧
      m'.failures = [⟨"Assertion failed", ⟨1, 25⟩⟩, ⟨"never", ⟨3, 1⟩⟩] ∧
      ∃ visits : List Visit, visits.length = 2 ∧ visits.Nodup ∧
      ∀ v ∈ visits, v.Failed ⟨.empty, 8⟩ := by
  obtain ⟨-, hruns, hnoted⟩ := @assertions_are_transparent .asserting ⟨.empty, 8⟩ ⟨.empty, 8⟩
    (Store.related_empty _) rfl 12 (.new "" [] none)
  obtain ⟨m', hrun, hevents, hfailures⟩ := Program.asserting_noted
  obtain ⟨visits, hnodup, htally, hvisits⟩ := hnoted m' (congrArg Outcome.machine? hrun)
  refine ⟨Program.asserting_quieted, ?_, m', hrun, hfailures, visits, ?_, hnodup,
    fun v hv => ((hvisits v).1 hv).2⟩
  · have hsame := hruns .trusting Program.asserting_quieted
    rw [hrun] at hsame
    generalize Program.trusting.run _ _ _ = o at hsame ⊢
    cases hsame with
    | done machines => exact ⟨_, rfl, machines.events.symm.trans hevents, machines.failures⟩
  · have hlength := htally.length_eq
    rw [hfailures] at hlength
    simpa using hlength.symm

end Trance
