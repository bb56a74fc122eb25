import Trance.Proofs.Linking.TakeOver

/-!
# Programs without their assertions

An assertion evaluates its condition, and notes a failure if the condition does not hold. If every
assertion of a program and of its linked files is replaced by the evaluation of its condition, the
run is the same but for what is noted: it shows the same, asks for the same input, and ends in the
same way, also where a condition fails, or is left by a jump. -/

namespace Trance

/-! ## Replacing assertions -/

/-- The second statement is the first one with every assertion replaced by the evaluation of its
condition, wherever it stands. The position of the evaluation is left open. -/
inductive Stmt.Quieted : Stmt → Stmt → Prop where
  | simple {s} (h : s.isSimple = true) : Quieted s s
  | assert (cond message loc loc') : Quieted (.assert cond message loc) (.expr cond loc')
  | branch {cond yes yes' no no' loc} (first : List.Forall₂ Quieted yes yes')
      (second : Option.Rel (List.Forall₂ Quieted) no no') :
      Quieted (.branch cond yes no loc) (.branch cond yes' no' loc)
  | whileLoop {cond body body' loc} (inside : List.Forall₂ Quieted body body') :
      Quieted (.whileLoop cond body loc) (.whileLoop cond body' loc)
  | loop {init init' cond step body body' loc} (before : Option.Rel Quieted init init')
      (inside : List.Forall₂ Quieted body body') :
      Quieted (.loop init cond step body loc) (.loop init' cond step body' loc)
  | suggestion {a b} (decl : Suggestion.Related (List.Forall₂ Quieted) a b) :
      Quieted (.suggestion a) (.suggestion b)
  | session {name members members' loc}
      (inside : List.Forall₂ (Member.Related (List.Forall₂ Quieted)) members members') :
      Quieted (.session ⟨name, members, loc⟩) (.session ⟨name, members', loc⟩)
  | entrance {body body' loc} (inside : List.Forall₂ Quieted body body') :
      Quieted (.entrance body loc) (.entrance body' loc)

/-- The second program is the first one with its assertions replaced. -/
def Program.Quieted (p q : Program) : Prop := List.Forall₂ Stmt.Quieted p.statements q.statements

/-- Files at the same paths, where each program has its assertions replaced. -/
abbrev Store.Quieted : Store → Store → Prop := Store.Related Stmt.Quieted

/-- Suggestions match if their bodies differ in assertions only. -/
def Matching.quieted : Matching where
  rel := Suggestion.Related (List.Forall₂ Stmt.Quieted)
  signature h := by
    cases h with
    | intro => rfl

def Pairing.quieted : Pairing where
  matching := .quieted
  types _ := True
  hidden₁ := []
  hidden₂ := []
  errors := Eq
  shown := #[]
  noted _ failures := failures = []
  around dir linked dir' linked' := dir = dir' ∧ linked = linked'
  signals := Eq
  reorders := False
  lacks _ := False
  cuts := True
  lags := False
  spare := false
  errors_self := @Pairing.equal_errors_self
  signals_self := Pairing.equal_signals_self
  lacks_ordinary := @Pairing.no_lacks_ordinary

/-- The first statement is an assertion, and the second evaluates its condition. -/
inductive Stmt.Silenced : Stmt → Stmt → Prop where
  | intro (cond message loc loc') : Silenced (.assert cond message loc) (.expr cond loc')

theorem Stmt.Quieted.step {s t : Stmt} (h : s.Quieted t) :
    Stmt.Congruent Stmt.Quieted s t ∨ s.Silenced t := by
  cases h with
  | simple h => exact .inl (.simple h)
  | assert cond message loc loc' => exact .inr (.intro cond message loc loc')
  | branch first second => exact .inl (.branch first second)
  | whileLoop inside => exact .inl (.whileLoop inside)
  | loop before inside => exact .inl (.loop before inside)
  | suggestion decl => exact .inl (.suggestion decl)
  | session inside => exact .inl (.session inside)
  | entrance inside => exact .inl (.entrance inside)

/-! ## Every program has one without assertions -/

theorem Stmt.exists_quieted (s : Stmt) : ∃ t, s.Quieted t := by
  induction s using Stmt.induction_children with
  | h s ih =>
    obtain ⟨t, hst⟩ := Stmt.exists_congruent s ih
    cases hst with
    | assert cond message loc => exact ⟨_, .assert cond message loc loc⟩
    | simple h => exact ⟨_, .simple h⟩
    | branch first second => exact ⟨_, .branch first second⟩
    | whileLoop inside => exact ⟨_, .whileLoop inside⟩
    | loop before inside => exact ⟨_, .loop before inside⟩
    | suggestion decl => exact ⟨_, .suggestion decl⟩
    | session inside => exact ⟨_, .session inside⟩
    | entrance inside => exact ⟨_, .entrance inside⟩

theorem Program.exists_quieted (p : Program) : ∃ q, p.Quieted q := by
  obtain ⟨stmts, hstmts⟩ := exists_forall₂ fun s (_ : s ∈ p.statements) => s.exists_quieted
  exact ⟨⟨stmts⟩, hstmts⟩

/-! ## Runs side by side -/

namespace Quieted

theorem rewrites : Pairing.quieted.Rewrites Stmt.Quieted Stmt.Silenced where
  rel_iff := .rfl
  types _ := trivial
  errors_eq := rfl
  notes h := nomatch h
  step h := h.step
  actions h := by
    cases h
    exact ⟨rfl, rfl⟩

theorem assert {cfg cfg' : Settings} {n n' : Nat} {s t : Stmt}
    (heval : Evaluators .quieted (Exec.eval cfg n) (Exec.eval cfg' n')) (h : s.Silenced t) :
    FlowSim .quieted Pairing.quieted.Inside .every (Exec.exec cfg (n + 1) s)
      (Exec.exec cfg' (n' + 1) t) := by
  obtain ⟨cond, message, loc, loc'⟩ := h
  refine (heval cond).inside.bind fun v _ _ => ?_
  intro kinds _ m n hm
  unfold Exec.checkAssertion
  cases v.truthy with
  | true => exact .done ⟨.normal, trivial⟩ hm
  | false => exact .done ⟨.normal, trivial⟩ { hm with failures := hm.failures }

/-- **Runs are the same but for what is noted.** -/
theorem program {cfg cfg' : Settings} (hfiles : cfg.files.Quieted cfg'.files)
    (hdepth : cfg.maxDepth = cfg'.maxDepth) (bound : Nat) {p q : Program} (h : p.Quieted q) :
    Sim .quieted Pairing.quieted.Inside Eq (Exec.program cfg bound p) (Exec.program cfg' bound q) :=
  Rewriting.program rewrites (.inr ⟨fun _ h => h, .rfl, hfiles⟩) hdepth
    (fun _ heval _ h => assert heval h) (.refl trivial bound) h

end Quieted

/-! ## Outcomes -/

/-- Machines that have shown the same and have the same input left. Global names have the same
values, the same sessions and record types are declared, and there are the same objects, but for the
assertions in suggestions. The second machine has noted nothing. -/
structure Machine.Quieted (m n : Machine) : Prop where
  events : m.events = n.events
  input : m.input = n.input
  capacity : m.capacity = n.capacity
  globals : ∀ name, Option.Rel (Value.Alike .quieted) (m.global? name) (n.global? name)
  heap : List.Forall₂ (Instance.Alike .quieted) m.heap.toList n.heap.toList
  sessions : Table.Alike (Session.Alike .quieted) m.sessions n.sessions
  statics : m.statics = n.statics
  records : m.records = n.records
  failures : n.failures = []

/-- The same outcome, on machines that differ only in what has been noted. -/
inductive Outcome.Quieted : Outcome Unit → Outcome Unit → Prop where
  | done {m n : Machine} (machines : m.Quieted n) : Quieted (.done () m) (.done () n)
  | failed {e} {m n : Machine} (machines : m.Quieted n) : Quieted (.failed e m) (.failed e n)
  | exhausted : Quieted .exhausted .exhausted

theorem Machine.Alike.quieted {m n : Machine} (h : Machine.Alike .quieted [] m n) : m.Quieted n where
  events := h.events.trans Array.empty_append
  input := h.input
  capacity := h.capacity
  heap := h.heap
  sessions := h.sessions
  statics := h.statics
  records := Table.Alike.eq And.left h.records
  failures := h.failures
  globals name := by
    unfold Machine.global?
    rw [h.scopes.globals.has_eq (fun _ h => h) name]
    split
    · have hfound :=
        h.scopes.resolve? (Bindings.alike_find? Symbol.Alike.name · name) Symbol.Found.both
          (h.scopes.globals.find? name) (.inr ⟨rfl, rfl⟩)
      generalize m.scopes.resolve? name = a at hfound ⊢
      generalize n.scopes.resolve? name = b at hfound ⊢
      cases hfound with
      | neither => exact .none
      | both symbols => exact symbols.value
      | lacking lacked => exact lacked.elim
    · exact .none

/-- **A program without its assertions runs as with them**, but for what is noted. -/
theorem Program.Quieted.run {p q : Program} {cfg cfg' : Settings} (h : p.Quieted q)
    (hfiles : cfg.files.Quieted cfg'.files) (hdepth : cfg.maxDepth = cfg'.maxDepth)
    (bound : Nat) (m : Machine) : (p.run cfg bound m).Quieted (q.run cfg' bound m) := by
  have hout := Trance.Quieted.program hfiles hdepth bound h [] (Pairing.inside rfl rfl rfl _) _ _
    (Machine.alike_reset rfl rfl rfl rfl rfl m ⟨rfl, rfl⟩)
  unfold Program.run
  generalize Exec.program cfg bound p m.reset = x at hout ⊢
  generalize Exec.program cfg' bound q m.reset = y at hout ⊢
  cases hout with
  | done _ machines => exact .done machines.quieted
  | failed error machines =>
    obtain rfl : _ = _ := error
    exact .failed machines.quieted
  | escaped escape => exact escape.elim
  | exhausted => exact .exhausted
  | lagging lags => exact lags.elim
  | parted lacked => exact lacked.elim

end Trance
