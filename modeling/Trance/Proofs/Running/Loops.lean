import Trance.Proofs.Running.Equal

/-!
# The two kinds of loops

A `while` loop and a `loop` with neither a first statement nor a step go round in the same way, but
that the second one does so in a frame of its own. That frame stays empty: a condition binds no
names, and the body binds its names in frames above it. No name is found there, so the machine
without the frame runs alike, and in the end the frame is closed.

The two statements therefore do the same wherever they stand, and a program in which one has taken
the place of the other runs as before. -/

namespace Trance

open Pairing

/-! ## A spare frame -/

/-- A run beside a run of the same code with one more frame, which is empty. -/
def Pairing.spared : Pairing := { same [] [] #[] False with spare := true }

theorem Pairing.Confines.spared : spared.Confines fun _ => True :=
  have h := Confines.same [] [] #[] False
  ⟨h.rel_iff, .rfl, h.errors_eq, h.noted_eq, h.links⟩

theorem Machine.alike_enter (m : Machine) :
    Machine.Alike .spared [] m { m with scopes := m.scopes.enter .block } :=
  have h : Machine.Alike (.same [] [] #[] False) _ (m.showing #[]) m := m.alike_showing
  { h with
    scopes := ⟨.spare (.refl m.scopes.frames), .refl _⟩
    events := Array.empty_append.symm }

theorem Machine.Alike.exit_eq {m n : Machine} (h : Machine.Alike .spared [] m n) :
    { n with scopes := n.scopes.exit } = m := by
  have hP := Confines.spared
  have hscopes : m.scopes = n.scopes.exit := by
    obtain ⟨hframes, hglobals⟩ := h.scopes
    unfold Scopes.exit
    generalize n.scopes.frames = gs at hframes ⊢
    cases hframes with
    | spare below => exact hP.eq_of_scopes not_false ⟨below, hglobals⟩
  have hevents : n.events = spared.shown ++ n.events := Array.empty_append.symm
  rw [h.eq_of_confines hP, ← hscopes, h.around.1, h.around.2, ← hevents, show _ = _ from h.signal]

theorem Flow.Alike.eq {f g : Flow} (h : Flow.Alike .equal f g) : f = g := by
  cases h with
  | awaken value => rw [value.eq fun h => h]
  | _ => rfl

theorem Simulates.inFrame_eq {x y : Exec Flow}
    (h : FlowSim .spared spared.Sees .every x y) : Exec.inFrame .block y = x := by
  funext m
  have hout := h [] (.inr ⟨rfl, rfl⟩) m _ m.alike_enter
  unfold Exec.inFrame Exec.between
  generalize x m = p at hout ⊢
  generalize y { m with scopes := m.scopes.enter .block } = q at hout ⊢
  cases hout with
  | done result machines => rw [result.1.eq, ← machines.exit_eq]
  | failed error machines => rw [show _ = _ from error, ← machines.exit_eq]
  | escaped escape => exact escape.elim
  | exhausted => rfl
  | lagging lags => exact lags.elim
  | parted lacked => exact lacked.elim

/-- **A `while` loop is a `loop` with a condition only.** -/
theorem Exec.whileLoop_eq_loop (cfg : Settings) (bound : Nat) (cond : Expr) (body : List Stmt)
    (loc loc' : Location) :
    Exec.exec cfg bound (.whileLoop cond body loc) =
      Exec.exec cfg bound (.loop none (some cond) none body loc') := by
  cases bound with
  | zero => rfl
  | succ bound =>
    have hP := Confines.spared
    have hb : spared.Bounds bound bound := .refl trivial bound
    obtain ⟨heval, -, hexec, -⟩ := Equal.run hP cfg hb
    have hkept : List.Forall₂ (Stmt.Kept fun _ => True) body body :=
      Stmt.forall₂_kept fun _ _ => .of_forall fun _ => trivial
    have hbody := Rewriting.sequence hP.rewrites hexec hkept hb
    exact (Simulates.inFrame_eq (.iterate (.holds heval (some cond)) (.inBlock hbody) (.pure rfl)
      (Exits.pass_every _) hb)).symm

/-! ## Replacing loops -/

/-- The second statement is the first one, where some `while` loops have been replaced by a `loop`
with their condition, wherever they stand. The positions of these loops are left open. -/
inductive Stmt.Looped : Stmt → Stmt → Prop where
  | same {s t} (h : Stmt.Congruent Looped s t) : Looped s t
  | whileLoop {cond body body'} (loc loc' : Location) (inside : List.Forall₂ Looped body body') :
      Looped (.whileLoop cond body loc) (.loop none (some cond) none body' loc')

/-- The second program is the first one with some `while` loops replaced. -/
def Program.Looped (p q : Program) : Prop := List.Forall₂ Stmt.Looped p.statements q.statements

/-- Files with programs where some `while` loops have been replaced. -/
abbrev Store.Looped : Store → Store → Prop := Store.Related Stmt.Looped

theorem Stmt.Looped.refl (s : Stmt) : s.Looped s := by
  induction s using Stmt.induction_children with
  | h s ih => exact .same (.self ih)

/-- Runs on machines that are the same but for the loops in the bodies of suggestions. -/
def Pairing.looped : Pairing :=
  { same [] [] #[] False with
    matching :=
      { rel := Suggestion.Related (List.Forall₂ Stmt.Looped)
        signature := fun h => by
          cases h with
          | intro => rfl } }

namespace Looped

/-- The first statement is a `while` loop, and the second is a `loop` in its place. -/
inductive Turned : Stmt → Stmt → Prop where
  | intro {cond body body'} (loc loc' : Location) (inside : List.Forall₂ Stmt.Looped body body') :
      Turned (.whileLoop cond body loc) (.loop none (some cond) none body' loc')

theorem rewrites : looped.Rewrites Stmt.Looped Turned where
  rel_iff := .rfl
  types _ := trivial
  errors_eq := rfl
  notes _ := notes_of_eq rfl
  step h := by
    cases h with
    | same h => exact .inl h
    | whileLoop loc loc' inside => exact .inr (.intro loc loc' inside)
  actions h := by
    cases h
    exact ⟨rfl, rfl⟩

/-- **Programs with other loops run alike.** -/
theorem program {cfg cfg' : Settings} (hfiles : cfg.files.Looped cfg'.files)
    (hdepth : cfg.maxDepth = cfg'.maxDepth) (bound : Nat) {p q : Program} (h : p.Looped q) :
    Sim .looped looped.Inside Eq (Exec.program cfg bound p) (Exec.program cfg' bound q) := by
  refine Rewriting.program rewrites (.inr ⟨fun _ h => h, .rfl, hfiles⟩) hdepth ?_
    (.refl trivial bound) h
  rintro n n' _ _ hb heval hexec ⟨loc, loc', inside⟩
  rw [← Exec.whileLoop_eq_loop cfg' (n' + 1) _ _ loc]
  exact .whileLoop heval _ loc hb (Rewriting.block rewrites hexec inside hb) (Exits.pass_every _)

end Looped

/-! ## Replacing all loops -/

def Stmt.isWhile : Stmt → Bool
  | .whileLoop .. => true
  | _ => false

theorem Stmt.exists_looped (s : Stmt) : ∃ t, s.Looped t ∧
    t.Every fun part => part.isWhile = false := by
  induction s using Stmt.induction_children with
  | h s ih =>
    obtain ⟨t, hst⟩ := Stmt.exists_congruent s ih
    have hinside : ∀ child ∈ t.children, child.Every fun part => part.isWhile = false :=
      forall_mem_of_forall₂ hst.children fun h => h.2
    have hlooped : Stmt.Congruent Stmt.Looped s t := hst.imp And.left
    cases hst with
    | whileLoop =>
      cases hlooped with
      | simple h => cases h
      | whileLoop inside => exact ⟨_, .whileLoop _ default inside, .of_child rfl hinside⟩
    | simple h =>
      cases s with
      | whileLoop => cases h
      | _ => exact ⟨_, .same hlooped, .of_child rfl hinside⟩
    | _ => exact ⟨_, .same hlooped, .of_child rfl hinside⟩

theorem Program.exists_looped (p : Program) :
    ∃ q, p.Looped q ∧ ∀ part ∈ q.parts, part.isWhile = false := by
  obtain ⟨stmts, hstmts⟩ := exists_forall₂ fun s (_ : s ∈ p.statements) => s.exists_looped
  exact ⟨⟨stmts⟩, hstmts.imp fun _ _ => And.left,
    forall_mem_listParts.2 (forall_mem_of_forall₂ hstmts fun h => h.2)⟩

/-- **The two loops do the same.** In every state, a `while` loop has the outcome of the `loop` that
has its condition and nothing else: both are cut short by the same bounds, or they end in the same
way in the same state. All `while` loops of a program can be replaced by such loops, and wherever
this is done, in the program and in the files that it links, runs are alike: they end in the same
way or with the same error, have shown and noted the same, and leave the same behind, but for the
loops in the bodies of suggestions. -/
theorem while_and_loop_agree (cfg : Settings) (bound : Nat) (m : Machine) :
    (∀ cond body loc loc', Exec.exec cfg bound (.whileLoop cond body loc) m =
      Exec.exec cfg bound (.loop none (some cond) none body loc') m) ∧
    (∀ p : Program, ∃ q, p.Looped q ∧ ∀ part ∈ q.parts, part.isWhile = false) ∧
    ∀ {cfg' : Settings}, cfg.files.Looped cfg'.files → cfg.maxDepth = cfg'.maxDepth →
      ∀ {p q : Program}, p.Looped q →
        Outcome.Alike .looped [] Eq Never (p.run cfg bound m) (q.run cfg' bound m) := by
  refine ⟨fun cond body loc loc' => ?_, Program.exists_looped, fun hfiles hdepth p q h => ?_⟩
  · rw [Exec.whileLoop_eq_loop cfg bound cond body loc loc']
  · exact Looped.program hfiles hdepth bound h [] (Pairing.inside rfl rfl rfl _) _ _
      (Machine.alike_reset rfl rfl rfl rfl rfl m ⟨rfl, rfl⟩)

/-- A loop, given its condition and its body, behind the name that the condition asks for. -/
def Program.once (loop : Expr → List Stmt → Stmt) : Program :=
  ⟨[.induce ⟨"again", none, .value (.boolean true ⟨1, 16⟩), ⟨1, 1⟩⟩, loop (.name "again" ⟨2, 8⟩)
      [.observe (.text "round" ⟨2, 25⟩) ⟨2, 17⟩,
        .expr (.assign (.name "again" ⟨2, 34⟩) (.boolean false ⟨2, 42⟩) ⟨2, 40⟩) ⟨2, 34⟩]]⟩

/-- Both loops go round once. -/
theorem while_and_loop_agree_once :
    ∃ m n, (Program.once fun cond body => .whileLoop cond body ⟨2, 1⟩).run ⟨.empty, 4⟩ 30
        (.new "" [] none) = .done () m ∧
      (Program.once fun cond body => .loop none (some cond) none body ⟨2, 1⟩).run ⟨.empty, 4⟩ 30
        (.new "" [] none) = .done () n ∧
      m.events = #[.line "round"] ∧ n.events = #[.line "round"] := by
  have halike := (while_and_loop_agree ⟨.empty, 4⟩ 30 (.new "" [] none)).2.2
    (Store.related_empty _) rfl (p := .once fun cond body => .whileLoop cond body ⟨2, 1⟩)
    (q := .once fun cond body => .loop none (some cond) none body ⟨2, 1⟩)
    (.cons (.refl _) (.cons (.whileLoop _ _ (List.forall₂_same.2 fun s _ => .refl s)) .nil))
  obtain ⟨m, hrun, hevents⟩ :
      ∃ m, (Program.once fun cond body => .whileLoop cond body ⟨2, 1⟩).run ⟨.empty, 4⟩
      30 (.new "" [] none) = .done () m ∧ m.events = #[.line "round"] := ⟨_, rfl, rfl⟩
  rw [hrun] at halike
  generalize (Program.once fun cond body => .loop none (some cond) none body ⟨2, 1⟩).run ⟨.empty,
    4⟩ 30 (.new "" [] none) = o at halike ⊢
  cases halike with
  | done _ machines =>
    exact ⟨m, _, hrun, rfl, hevents, (machines.events.trans Array.empty_append).symm.trans hevents⟩
  | escaped escape => exact escape.elim
  | parted lacked => exact lacked.elim

end Trance
