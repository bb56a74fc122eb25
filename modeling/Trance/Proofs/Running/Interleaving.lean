import Trance.Proofs.Checking.Deferring
import Trance.Proofs.Running.Ending
import Trance.Proofs.Running.Visits

/-!
# The order of the top level

A program goes over its statements several times: for the declarations, for the links, for the
entrance blocks, and for everything else. Each time it passes over what it is not looking for, and
so does the check. What a program does and what is reported about it are decided by these four lists
of statements, and how they are interleaved makes no difference.

A run through the main list spends one round on every statement, also on those that it passes over.
So equal outcomes need different bounds, and it is the outcomes that the runs come to which are
equal. -/

namespace Trance

open List Check

/-! ## Steps that pass over statements -/

section

variable {M : Type → Type} [Monad M] [LawfulMonad M] {σ : Type} {f : σ → M Unit} {keep : σ → Bool}

theorem forM_filter (h : ∀ s, keep s = false → f s = pure ()) (xs : List σ) :
    (xs.filter keep).forM f = xs.forM f := by
  induction xs with
  | nil => rfl
  | cons s rest ih =>
    cases hs : keep s with
    | true =>
      rw [filter_cons_of_pos hs]
      exact congrArg (f s >>= fun _ => ·) ih
    | false =>
      rw [filter_cons_of_neg (by simp [hs]), ih]
      show _ = f s >>= fun _ => rest.forM f
      rw [h s hs, pure_bind]

theorem forM_eq_of_filter_eq {xs ys : List σ} (heq : xs.filter keep = ys.filter keep)
    (h : ∀ s, keep s = false → f s = pure ()) : xs.forM f = ys.forM f := by
  rw [← forM_filter h xs, heq, forM_filter h]

end

/-! ## The main list -/

namespace Stmt

def main (all : List Stmt) : List Stmt := all.filter (!·.isHoisted)

variable {s : Stmt}

theorem main_cons_of_isHoisted (h : s.isHoisted = true) (rest : List Stmt) :
    main (s :: rest) = main rest :=
  filter_cons_of_neg (by simp [h])

theorem main_cons (h : s.isHoisted = false) (rest : List Stmt) : main (s :: rest) = s :: main rest :=
  filter_cons_of_pos (by simp [h])

theorem labelName?_of_isHoisted (h : s.isHoisted = true) : s.labelName? = none := by
  cases s <;> simp_all [isHoisted, labelName?]

theorem afterLabel?_main (label : String) (all : List Stmt) :
    afterLabel? label (main all) = (afterLabel? label all).map main := by
  induction all with
  | nil => rfl
  | cons s rest ih =>
    cases hs : s.isHoisted with
    | true =>
      rw [main_cons_of_isHoisted hs, afterLabel?_cons, labelName?_of_isHoisted hs, if_neg
        (by simp), ih]
    | false =>
      rw [main_cons hs, afterLabel?_cons, afterLabel?_cons, ih]
      split <;> rfl

theorem labelsOf_main (all : List Stmt) : labelsOf (main all) = labelsOf all := by
  induction all with
  | nil => rfl
  | cons s rest ih =>
    cases s with
    | label name loc => exact congrArg (name :: ·) ih
    | _ => exact ih

theorem length_of_afterLabel? {label : String} {all rest : List Stmt}
    (h : afterLabel? label all = some rest) : rest.length ≤ all.length := by
  induction all with
  | nil => cases h
  | cons s all ih =>
    rw [afterLabel?_cons] at h
    split at h
    · cases h
      simp
    · have := ih h
      simp only [length_cons]
      omega

end Stmt

namespace Exec

variable {exec : Stmt → Exec Flow} {s : Stmt} {all front rest : List Stmt} {bound : Nat}

theorem sequence_cons_of_isHoisted (h : s.isHoisted = true) :
    sequence (mainStmt exec) all (bound + 1)
      (s :: rest) = sequence (mainStmt exec) all bound rest := by
  rw [sequence, mainStmt, if_pos h]
  rfl

theorem sequence_append_of_isHoisted (h : ∀ s ∈ front, s.isHoisted = true) :
    sequence (mainStmt exec) all (bound + front.length) (front ++ rest) =
      sequence (mainStmt exec) all bound rest := by
  induction front with
  | nil => rfl
  | cons s front ih =>
    obtain ⟨hs, hfront⟩ := forall_mem_cons.1 h
    rw [length_cons, ← Nat.add_assoc, cons_append, sequence_cons_of_isHoisted hs, ih hfront]

theorem entrances_filter (exec : Stmt → Exec Flow) (bound : Nat) (all : List Stmt) :
    entrances exec bound (all.filter Stmt.isEntrance) = entrances exec bound all := by
  induction all with
  | nil => rfl
  | cons s rest ih =>
    cases s with
    | entrance body loc =>
      rw [filter_cons_of_pos rfl, entrances_cons, entrances_cons, ih]
    | _ => exact ih

end Exec

/-- **Lists with the same statements of the main list run alike**, if the second run has rounds
enough to pass over all that is not, once for every round of the first. -/
theorem FlowSim.mainList {P : Pairing} (hlags : P.lags) {exec exec' : Stmt → Exec Flow}
    {all all' : List Stmt}
    (hexec : ∀ s, FlowSim P P.Inside .every (exec s) (exec' s))
    (hall : Stmt.main all = Stmt.main all')
    {bound bound' : Nat} {rest rest' : List Stmt} (hrest : Stmt.main rest = Stmt.main rest')
    (hbound : bound * (all'.length + 1) + rest'.length ≤ bound') :
    FlowSim P P.Inside .every (Exec.sequence (Exec.mainStmt exec) all bound rest)
      (Exec.sequence (Exec.mainStmt exec') all' bound' rest') := by
  induction bound generalizing bound' rest rest' with
  | zero => exact .lagging hlags
  | succ bound ih =>
    rw [Nat.succ_mul] at hbound
    cases rest with
    | nil =>
      have hfront : ∀ t ∈ rest', t.isHoisted = true := by
        simpa [Stmt.main] using filter_eq_nil_iff.1 hrest.symm
      obtain ⟨less, rfl⟩ : ∃ less, bound' = less + 1 + rest'.length :=
        ⟨bound' - rest'.length - 1, by omega⟩
      have hskip : Exec.sequence (Exec.mainStmt exec') all' (less + 1 + rest'.length)
          (rest' ++ []) = _ :=
        Exec.sequence_append_of_isHoisted hfront
      rw [append_nil] at hskip
      rw [hskip]
      exact .normal trivial
    | cons s rest =>
      cases hs : s.isHoisted with
      | true =>
        rw [Exec.sequence_cons_of_isHoisted hs]
        exact ih (Stmt.main_cons_of_isHoisted hs rest ▸ hrest) (by omega)
      | false =>
        rw [Stmt.main_cons hs] at hrest
        obtain ⟨front, behind, rfl, hfront, -, hbehind⟩ := filter_eq_cons_iff.1 hrest.symm
        simp only [length_append, length_cons] at hbound
        obtain ⟨less, rfl⟩ : ∃ less, bound' = less + 1 + front.length :=
          ⟨bound' - front.length - 1, by omega⟩
        rw [Exec.sequence_append_of_isHoisted (by simpa using hfront)]
        simp only [Exec.sequence, Exec.mainStmt, hs, Bool.false_eq_true, if_false]
        refine (hexec s).bind fun f g hfg => ?_
        cases hfg.1 with
        | normal => exact ih hbehind.symm (by omega)
        | jump label loc =>
          -- A label of one list is a label of the other, and the same statements stand behind it.
          have hafter := Stmt.afterLabel?_main label all
          rw [hall, Stmt.afterLabel?_main] at hafter
          simp only
          cases hlabel : Stmt.afterLabel? label all' with
          | none =>
            rw [hlabel] at hafter
            rw [Option.map_eq_none_iff.1 hafter.symm]
            exact .pure ⟨.jump label loc, trivial⟩
          | some rest' =>
            rw [hlabel] at hafter
            obtain ⟨rest, hrest, hmain⟩ := Option.map_eq_some_iff.1 hafter.symm
            have hlength := Stmt.length_of_afterLabel? hlabel
            rw [hrest]
            exact ih hmain (by omega)
        | snap loc => exact .pure ⟨.snap loc, trivial⟩
        | sink loc => exact .pure ⟨.sink loc, trivial⟩
        | awaken h => exact .pure ⟨.awaken h, trivial⟩

/-! ## Programs -/

/-- Programs that are made of the same declarations, the same links, the same entrance blocks and
the same other statements, each in the same order among themselves. -/
structure Program.SameParts (p q : Program) : Prop where
  declarations : p.statements.filter Stmt.isDeclaration = q.statements.filter Stmt.isDeclaration
  links : p.statements.filter Stmt.isLink = q.statements.filter Stmt.isLink
  entrances : p.statements.filter Stmt.isEntrance = q.statements.filter Stmt.isEntrance
  others : Stmt.main p.statements = Stmt.main q.statements

namespace Program.SameParts

variable {p q : Program}

theorem symm (h : p.SameParts q) : q.SameParts p :=
  ⟨h.declarations.symm, h.links.symm, h.entrances.symm, h.others.symm⟩

theorem sim (h : p.SameParts q) (cfg : Settings) {bound bound' : Nat}
    (hbound : bound * (q.statements.length + 1) + q.statements.length ≤ bound') :
    Sim (.same [] [] #[] True) (Pairing.same [] [] #[] True).Inside Eq (Exec.program cfg bound p)
      (Exec.program cfg bound' q) := by
  have hP := Pairing.Confines.same [] [] #[] True
  have hle : bound ≤ bound' := by
    have := Nat.le_mul_of_pos_right bound (by omega : 0 < q.statements.length + 1)
    omega
  have hb : (Pairing.same [] [] #[] True).Bounds bound bound' := .inr ⟨trivial, hle⟩
  obtain ⟨heval, -, hexec, hlink⟩ := Equal.run hP cfg hb
  have hkept : ∀ stmt : Stmt, stmt.Kept (fun _ => True) stmt :=
    fun _ => ⟨rfl, .of_forall fun _ => trivial⟩
  have hdeclare : ∀ s : Stmt, s.isDeclaration = false →
      Exec.declare (Exec.eval cfg bound) s = pure () := by
    intro s hs
    cases s <;> simp_all [Stmt.isDeclaration, Exec.declare]
  have hfollow : ∀ s : Stmt, s.isLink = false →
      Exec.followLink (Exec.link cfg bound) s = pure () := by
    intro s hs
    cases s <;> simp_all [Stmt.isLink, Exec.followLink]
  unfold Exec.program Exec.programStep
  rw [forM_eq_of_filter_eq h.declarations hdeclare, forM_eq_of_filter_eq h.links hfollow,
    ← Exec.entrances_filter _ _ p.statements, h.entrances, Exec.entrances_filter]
  refine .bind (.forM fun stmt _ => Rewriting.declare hP.rewrites heval (hkept stmt)) fun _ _ _ => ?_
  refine .bind (.forM fun stmt _ => Rewriting.followLink hP.rewrites hlink
    (hkept stmt)) fun _ _ _ => ?_
  refine .blocks (Rewriting.rejected hP.rewrites) (Simulates.entrances_self fun stmts _ _ => ?_) ?_
  · exact Rewriting.block hP.rewrites hexec (forall₂_same.2 fun s _ => hkept s) hb
  · exact .mainList trivial (fun s => hexec (hkept s)) h.others h.others hbound

theorem ends (h : p.SameParts q) {cfg : Settings} {m : Machine} {o : Outcome Unit}
    (hp : Exec.Ends (fun bound => p.run cfg bound) m o) :
    Exec.Ends (fun bound => q.run cfg bound) m o :=
  hp.of_within_later fun _ => ⟨_, fun _ hbound =>
    (h.sim cfg hbound).within (fun _ _ heq => heq) m.reset⟩

/-- **The same is reported** about programs that are made of the same parts. -/
theorem check_eq (h : p.SameParts q) (link : Follower) [∀ path loc, Blind (link path loc)]
    (c : Checker) : c.after (program link p) = c.after (program link q) := by
  have hdeclared : ∀ f : Stmt → Check Unit, (∀ s, s.isDeclaration = false → f s = pure ()) →
      p.statements.forM f = q.statements.forM f :=
    fun f hf => forM_eq_of_filter_eq h.declarations hf
  have hlinks : p.statements.forM (followLink link) = q.statements.forM (followLink link) := by
    refine forM_eq_of_filter_eq h.links fun s hs => ?_
    cases s with
    | mindLink => cases hs
    | _ => rfl
  have hentrances : p.statements.forM (Check.entrance link) =
      q.statements.forM (Check.entrance link) := by
    refine forM_eq_of_filter_eq h.entrances fun s hs => ?_
    cases s with
    | entrance => cases hs
    | _ => rfl
  have hmain : p.statements.forM (mainEffect link) = q.statements.forM (mainEffect link) := by
    refine forM_eq_of_filter_eq h.others fun s hs => ?_
    cases s with
    | mindLink | suggestion | session | tranceify | entrance => rfl
    | _ => cases hs
  have hlabels : labelsOf p.statements = labelsOf q.statements := by
    rw [← Stmt.labelsOf_main, h.others, Stmt.labelsOf_main]
  rw [after_program, after_program]
  unfold untilBodies names
  rw [hdeclared declareTypeName, hdeclared declareSuggestionName, hlinks,
    hdeclared collectType, hentrances, hmain, hlabels, hdeclared (declarationBody link)]
  all_goals
    intro s hs
    cases s with
    | suggestion | session | tranceify => cases hs
    | _ => rfl

end Program.SameParts

/-- **Only the four lists of a program decide what it does and what is reported about it.** Programs
that are made of the same declarations, links, entrance blocks and other statements, in the same
order among themselves and interleaved in any two ways, come to the same outcomes, and leave the
same machine behind; and checking them leads to the same errors and warnings in the same order. -/
theorem interleaving_makes_no_difference {p q : Program} (h : p.SameParts q) (cfg : Settings)
    (m : Machine) (linker : Linker) (c : Checker) :
    (∀ o, Exec.Ends (fun bound => p.run cfg bound) m o ↔
      Exec.Ends (fun bound => q.run cfg bound) m o) ∧
      linker.check p c = linker.check q c := by
  refine ⟨fun o => ⟨h.ends, h.symm.ends⟩, ?_⟩
  exact h.check_eq (linker.link linker.bound) c

/-- A suggestion and an entrance block in front of a list with a jump. -/
def Program.gathered : Program :=
  ⟨[.suggestion ⟨"f", [], none, [.awaken (some (.text "f" ⟨1, 30⟩)) ⟨1, 22⟩], false, false, ⟨1, 7⟩,
    .main⟩,
    .entrance [.observe (.text "first" ⟨2, 20⟩) ⟨2, 12⟩] ⟨2, 1⟩,
    .sinkTo "end" ⟨3, 1⟩,
    .observe (.text "passed over" ⟨4, 9⟩) ⟨4, 1⟩,
    .label "end" ⟨5, 1⟩,
    .observe (.call (.name "f" ⟨6, 9⟩) [] ⟨6, 10⟩) ⟨6, 1⟩]⟩

/-- The same with the suggestion behind its call, and the entrance block between the jump and its
label. -/
def Program.scattered : Program :=
  ⟨[.sinkTo "end" ⟨3, 1⟩,
    .observe (.text "passed over" ⟨4, 9⟩) ⟨4, 1⟩,
    .entrance [.observe (.text "first" ⟨2, 20⟩) ⟨2, 12⟩] ⟨2, 1⟩,
    .label "end" ⟨5, 1⟩,
    .observe (.call (.name "f" ⟨6, 9⟩) [] ⟨6, 10⟩) ⟨6, 1⟩,
    .suggestion ⟨"f", [], none, [.awaken (some (.text "f" ⟨1, 30⟩)) ⟨1, 22⟩], false, false, ⟨1, 7⟩,
      .main⟩]⟩

/-- The scattered program writes what the gathered one does, and no error is reported about it. -/
theorem scattered_as_gathered : Program.gathered.SameParts .scattered ∧
    (∃ m, Exec.Ends (fun bound => Program.scattered.run ⟨.empty, 8⟩ bound) (.new "" [] none)
      (.done () m) ∧
      m.events = #[.line "first", .line "f"]) ∧
    ((Linker.ofFiles .empty).check .scattered (.new "")).report.errors = [] := by
  have hparts : Program.gathered.SameParts .scattered := ⟨rfl, rfl, rfl, rfl⟩
  obtain ⟨hends, hcheck⟩ := interleaving_makes_no_difference hparts ⟨.empty, 8⟩ (.new "" [] none)
    (.ofFiles .empty) (.new "")
  obtain ⟨m, hrun, hevents⟩ : ∃ m, Program.gathered.run ⟨.empty, 8⟩ 9 (.new "" [] none) = .done
      () m ∧ m.events = #[.line "first", .line "f"] := ⟨_, rfl, rfl⟩
  refine ⟨hparts, ⟨m, (hends _).1 (Program.ends_of_run hrun Outcome.done_ne_exhausted), hevents⟩, ?_⟩
  rw [← hcheck]
  rfl

end Trance
