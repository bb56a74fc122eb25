import Trance.Proofs.Running.Restoration

/-!
# Every program starts afresh

A machine can run one program after another. Whatever programs it has run, and however they ended,
the next one runs as it would on a new machine: nothing but the outside carries over, which is the
input that is left, the lines that can still be written, and what has been shown. The position of
the last jump carries over too, but nothing looks at it before the next jump is made.

That the base directory carries over too makes no difference, since every run ends in the directory
in which it began, also when it fails inside of a linked file. -/

namespace Trance

/-- A machine that was made in a directory and has run programs since. Each of them was done or has
failed, with settings of its own. -/
inductive Machine.Used (base : String) : Machine → Prop where
  | new (input : List String) (capacity : Option Nat) : Used base (.new base input capacity)
  | run {m m' : Machine} (before : Used base m) (cfg : Settings) (bound : Nat) (p : Program)
      (left : (p.run cfg bound m).machine? = some m') : Used base m'

variable {m : Machine}

theorem Machine.Used.baseDir {base : String} (h : m.Used base) : m.baseDir = base := by
  induction h with
  | new => rfl
  | run _ cfg bound p left ih =>
    exact (Task.develops cfg bound (.program p) _ _ left).inPlace.baseDir.trans ih

/-- Equal runs, the first of which may have another position of the last jump left from before,
until a jump is made. -/
def Pairing.resumed (shown : Array Event) (left : Location) : Pairing :=
  { Pairing.same [] [] shown False with
    signals := fun loc loc' => loc = loc' ∨ loc = left ∧ loc' = Location.start
    signals_self := fun _ => .inl rfl }

theorem Pairing.Confines.resumed (shown : Array Event) (left : Location) :
    (Pairing.resumed shown left).Confines fun _ => True :=
  { Pairing.Confines.same [] [] shown False with }

theorem Machine.Alike.eq_resumed {shown : Array Event} {left : Location} {kinds : List Frame.Kind}
    {n : Machine} (h : Machine.Alike (.resumed shown left) kinds m n) :
    m = { n.showing shown with signal := m.signal } := by
  have hP := Pairing.Confines.resumed shown left
  conv_lhs => rw [h.eq_of_confines hP, hP.eq_of_scopes not_false h.scopes, h.around.1, h.around.2]
  rfl

theorem Machine.Used.alike {base : String} (h : m.Used base) :
    Machine.Alike (.resumed m.events m.signal) [] m.reset
      (Machine.new base m.input m.capacity).reset where
  scopes := ⟨.hidden, .refl _⟩
  heap := .nil
  sessions := .nil
  statics := rfl
  records := .nil
  events := Array.append_empty.symm
  input := rfl
  capacity := rfl
  failures := rfl
  depth := rfl
  around := ⟨h.baseDir, rfl⟩
  signal := .inr ⟨rfl, rfl⟩

/-- **Every program starts afresh.** On a machine that has run any programs, each of them to its end
or to any error, a program has the outcome that it has on a new machine in the same directory, with
the same input and capacity left: it is done, fails with the same error, or is cut short in both
cases, and leaves the same machine behind, on which only what was shown before stands in front of
what the program shows. The position of the last jump is the same as well, unless it is still that
of before, and on the new machine still that of the beginning. -/
theorem run_used_eq_run_new {base : String} {m : Machine} (h : m.Used base) (cfg : Settings)
    (bound : Nat) (p : Program) : ∃ signal, p.run cfg bound m =
        (p.run cfg bound (.new base m.input m.capacity)).mapMachine
          (fun n => { n.showing m.events with signal }) ∧
      ∀ n, (p.run cfg bound (.new base m.input m.capacity)).machine? = some n →
        signal = n.signal ∨ signal = m.signal ∧ n.signal = Location.start := by
  have hprogram := Equal.program (.resumed m.events m.signal) cfg (.refl trivial bound)
    fun stmt (_ : stmt ∈ p.statements) => .of_forall fun _ => trivial
  have hout := hprogram [] (Pairing.inside rfl rfl rfl _) _ _ h.alike
  unfold Program.run
  generalize Exec.program cfg bound p m.reset = first at hout ⊢
  generalize Exec.program cfg bound p (Machine.new base m.input m.capacity).reset = second at hout ⊢
  cases hout with
  | @done _ _ k n result machines =>
    refine ⟨k.signal, by rw [Outcome.mapMachine, ← machines.eq_resumed], ?_⟩
    rintro _ ⟨⟩
    exact machines.signal
  | @failed _ _ k n error machines =>
    refine ⟨k.signal, by rw [Outcome.mapMachine, ← machines.eq_resumed, show _ = _ from error], ?_⟩
    rintro _ ⟨⟩
    exact machines.signal
  | escaped escape => exact escape.elim
  | exhausted => exact ⟨m.signal, rfl, by rintro _ ⟨⟩⟩
  | lagging lags => exact lags.elim
  | parted lacked => exact lacked.elim

/-- A program that writes a line, makes a session, asks for a line, notes a failed assertion, and
fails inside of a block, for a jump that nothing takes up. -/
def Program.failing : Program :=
  ⟨[.session ⟨"S", [⟨.field ⟨"n", none, .value (.text "a" ⟨1, 30⟩), ⟨1, 24⟩⟩, true, false⟩], ⟨1, 7⟩⟩,
    .induce ⟨"x", none, .value (.call (.name "S" ⟨2, 12⟩) [] ⟨2, 12⟩), ⟨2, 1⟩⟩,
    .observe (.field (.name "x" ⟨3, 9⟩) "n" ⟨3, 10⟩) ⟨3, 1⟩,
    .induce ⟨"y", none, .external, ⟨4, 1⟩⟩,
    .assert (.boolean false ⟨5, 8⟩) none ⟨5, 1⟩,
    .branch (.boolean true ⟨6, 5⟩) [.snap ⟨6, 12⟩] none ⟨6, 1⟩]⟩

/-- A program that declares the name `x` again, and asks for its value. -/
def Program.asksAgain : Program :=
  ⟨[.induce ⟨"x", none, .external, ⟨1, 7⟩⟩, .observe (.name "x" ⟨1, 38⟩) ⟨1, 30⟩]⟩

/-- After a program that failed, `x` can be declared again, and gets the second line of the input.
-/
theorem run_used_eq_run_new_failing :
    ∃ m, Program.failing.run ⟨.empty, 8⟩ 9 (.new "lib" ["one", "two"] none) =
      .failed (.raised (.jumpOutsideLoop "snap") ⟨6, 12⟩) m ∧
    m.scopes.globals.has "x" = true ∧ m.failures.length = 1 ∧ m.signal = ⟨6, 12⟩ ∧
    ∃ m', Program.asksAgain.run ⟨.empty, 8⟩ 9 m = .done () m' ∧
      m'.events = #[.line "a", .prompt "y: ", .prompt "x: ", .line "two"] ∧ m'.failures = [] := by
  obtain ⟨m, hrun, hx, hfailures, hsignal, hinput, hcapacity, hevents⟩ :
      ∃ m, Program.failing.run ⟨.empty, 8⟩ 9 (.new "lib" ["one", "two"] none) =
          .failed (.raised (.jumpOutsideLoop "snap") ⟨6, 12⟩) m ∧
        m.scopes.globals.has "x" = true ∧ m.failures.length = 1 ∧ m.signal = ⟨6, 12⟩ ∧
          m.input = ["two"] ∧
        m.capacity = none ∧ m.events = #[.line "a", .prompt "y: "] :=
    ⟨_, rfl, rfl, rfl, rfl, rfl, rfl, rfl⟩
  have hused : m.Used "lib" :=
    .run (.new ["one", "two"] none) ⟨.empty, 8⟩ 9 .failing (by rw [hrun]; rfl)
  obtain ⟨signal, hagain, -⟩ := run_used_eq_run_new hused ⟨.empty, 8⟩ 9 .asksAgain
  rw [hinput, hcapacity, hevents] at hagain
  exact ⟨m, hrun, hx, hfailures, hsignal, _, hagain, rfl, rfl⟩

end Trance
