import Trance.Proofs.Running.Course

/-!
# What is opened is closed again

Frames are opened for blocks, loops, calls and the first values of fields; calls go deeper; links
move to another directory. Whatever a run is busy with, once it is done or has failed the frames are
laid out as before, the run is as deep as before and in the directory where it was. On the way it
never goes deeper than the limit. -/

namespace Trance

open List Option

/-! ## Layouts -/

/-- Where a frame leads to: to the frame in which names are looked for next, and to the one that is
innermost again once the frame is closed. Frames are numbered from the global one on, which is 0. -/
structure Frame.Links where
  parent : Nat
  resume : Nat
deriving DecidableEq, Repr, Inhabited

/-- The links of a frame that is opened above a number of others. -/
def Frame.Kind.links (below : Nat) : Frame.Kind → Frame.Links
  | .block => ⟨below, below⟩
  | .call => ⟨0, below⟩

/-- The links of all frames, the innermost first, and the number of the innermost frame. -/
structure Scopes.Layout where
  links : List Frame.Links
  current : Nat
deriving DecidableEq, Repr, Inhabited

namespace Scopes

def linksOf : List Frame.Kind → List Frame.Links
  | [] => []
  | kind :: below => kind.links below.length :: linksOf below

def kinds (s : Scopes) : List Frame.Kind := s.frames.map (·.kind)

def layout (s : Scopes) : Layout := ⟨linksOf s.kinds, s.depth⟩

theorem resolveIn_cons (frame : Frame) (below : List Frame) (globals : Bindings) (name : String) :
    resolveIn (frame :: below) globals name = (frame.bindings.find? name).or
      (resolveIn
        (below.drop (below.length - (frame.kind.links below.length).parent)) globals name) := by
  rw [resolveIn]
  cases frame.bindings.find? name with
  | some symbol => rfl
  | none =>
    cases frame.kind with
    | block => simp [Frame.Kind.links]
    | call => simp [Frame.Kind.links, resolveIn]

theorem current_exit (frame : Frame) (below : List Frame) (globals : Bindings) :
    (exit ⟨frame :: below, globals⟩).layout.current = (frame.kind.links below.length).resume := by
  cases frame.kind <;> rfl

variable {t : Scopes}

theorem layout_eq_of_kinds {s : Scopes} (h : s.kinds = t.kinds) : s.layout = t.layout := by
  have hlength : s.kinds.length = t.kinds.length := by rw [h]
  simp only [kinds, length_map] at hlength
  simp only [layout, h, depth, hlength]

@[simp] theorem kinds_enter (s : Scopes) (kind : Frame.Kind) :
    (s.enter kind).kinds = kind :: s.kinds := rfl

@[simp] theorem kinds_exit (s : Scopes) : s.exit.kinds = s.kinds.tail := by
  simp [kinds, exit]

theorem kinds_define? {s : Scopes} {symbol : Symbol} (h : s.define? symbol = some t) :
    t.kinds = s.kinds := by
  unfold define? at h
  split at h
  · obtain ⟨globals, -, rfl⟩ := map_eq_some_iff.1 h
    rfl
  · rename_i frame below hframes
    obtain ⟨bindings, -, rfl⟩ := map_eq_some_iff.1 h
    simp [kinds, hframes]

theorem kinds_assign? (s : Scopes) (name : String) (value : Value) :
    ((s.assign? name value).getD s).kinds = s.kinds := by
  cases h : s.assign? name value with
  | none => rfl
  | some t =>
    obtain ⟨_, -, ⟨-, rfl⟩ | ⟨above, frame, below, hframes, -, rfl⟩⟩ := update?_eq_some h
    · rfl
    · simp [kinds, hframes]

end Scopes

/-! ## Machines in place -/

/-- The machine `m'` is where `m` was: its frames are of the same kinds, it is as deep, and in the
same directory. -/
structure Machine.InPlace (m m' : Machine) : Prop where
  kinds : m'.scopes.kinds = m.scopes.kinds
  depth : m'.depth = m.depth
  baseDir : m'.baseDir = m.baseDir

variable {D : Stmt → Machine → Prop} {b : Bool} {m m' : Machine}

/-- **No change of a machine displaces it.** -/
theorem Machine.Evolves.inPlace (h : m.Evolves D b m') : m.InPlace m' := by
  induction h with
  | refl | allocate | modify | outside | link | session | tranceify => exact ⟨rfl, rfl, rfl⟩
  | trans _ _ ih ih' =>
    exact ⟨ih'.kinds.trans ih.kinds, ih'.depth.trans ih.depth, ih'.baseDir.trans ih.baseDir⟩
  | define free => exact ⟨Scopes.kinds_define? free, rfl, rfl⟩
  | assign found kind value => exact ⟨Scopes.kinds_assign? _ _ value, rfl, rfl⟩
  | inFrame _ ih =>
    refine ⟨?_, ih.depth, ih.baseDir⟩
    have hkinds := ih.kinds
    simp only [Machine.push, Machine.pop, Scopes.kinds_enter, Scopes.kinds_exit] at hkinds ⊢
    rw [hkinds, tail_cons]
  | deeper _ ih =>
    refine ⟨ih.kinds, ?_, ih.baseDir⟩
    have hdepth := ih.depth
    simp only [Machine.deepen, Machine.rise] at hdepth ⊢
    omega
  | inDirectory _ ih => exact ⟨ih.kinds, ih.depth, rfl⟩

section

variable {cfg : Settings} {n : Nat}

theorem Task.evolves (task : Task) {a : task.Result} (h : task.step cfg n m = .done a m') :
    m.Evolves (fun _ _ => True) true m' :=
  ((Task.develops cfg n task m).done h).weaken (fun _ _ _ => trivial) fun _ => rfl

theorem Exec.develops_eval (e : Expr) :
    Exec.Develops (fun _ _ => True) false m (Exec.eval cfg n e) :=
  (Task.develops cfg n (.eval e) m).mono fun _ _ _ => trivial

/-! ## What is opened for a visit -/

/-- The machine `m` comes before `m'` in a run. A call goes deeper only below the limit. -/
inductive Machine.Precedes (limit : Nat) : Machine → Machine → Prop where
  | evolves {m₁ m₂} (h : m₁.Evolves (fun _ _ => True) true m₂) : Precedes limit m₁ m₂
  | trans {m₁ m₂ m₃} (first : Precedes limit m₁ m₂) (second : Precedes limit m₂ m₃) :
      Precedes limit m₁ m₃
  | frame {m₁} (kind : Frame.Kind) : Precedes limit m₁ (m₁.push kind)
  | deeper {m₁} (allowed : m₁.depth < limit) : Precedes limit m₁ m₁.deepen
  | directory {m₁} (dir : String) : Precedes limit m₁ (m₁.moved dir)

variable {v w : Visit}

theorem Course.precedes {visits : List Visit} {end? : Option Machine}
    (h : Course cfg v b m visits end?) (hw : w ∈ visits) :
    m.Precedes cfg.maxDepth w.machine := by
  induction h with
  | own | cut => cases hw
  | visit =>
    obtain rfl := mem_singleton.1 hw
    exact .evolves .refl
  | trans first _ ih ih' =>
    obtain hw | hw := mem_append.1 hw
    · exact ih hw
    · refine .trans (.evolves (first.evolves (fun _ _ _ => trivial) (fun w _ => ?_) rfl).binding)
        (ih' hw)
      exact (Task.develops cfg w.bound w.task w.machine).mono fun _ _ _ => trivial
  | inFrame _ ih => exact .trans (.frame _) (ih hw)
  | deeper allowed _ ih => exact .trans (.deeper allowed) (ih hw)
  | inDirectory _ ih => exact .trans (.directory _) (ih hw)

/-- **What is reached begins where the machine was, or in what is opened for it.** -/
theorem Visit.precedes_of_reaches (h : v.Reaches cfg w) :
    v.machine.Precedes cfg.maxDepth w.machine := by
  induction h with
  | refl => exact .evolves .refl
  | @tail w x _ edge ih =>
    obtain ⟨visits, hvisits, hcourse⟩ := Task.follows cfg w.bound w.task w.machine
    exact ih.trans (hcourse.precedes ((hvisits x).1 edge))

theorem Machine.Precedes.depth_le {limit : Nat} (h : m.Precedes limit m') (hm : m.depth ≤ limit) :
    m'.depth ≤ limit := by
  induction h with
  | evolves h => exact h.inPlace.depth ▸ hm
  | trans _ _ ih ih' => exact ih' (ih hm)
  | frame | directory => exact hm
  | deeper allowed => exact allowed

/-- **No visit is deeper than the limit.** -/
theorem Visit.depth_le_of_reaches (h : v.Reaches cfg w)
    (hv : v.machine.depth ≤ cfg.maxDepth) : w.machine.depth ≤ cfg.maxDepth :=
  (Visit.precedes_of_reaches h).depth_le hv

end

/-! ## Everything is restored -/

theorem Machine.global?_eq (h : m.scopes.frames = []) (name : String) :
    m.global? name = (m.scopes.globals.find? name).bind (·.value) := by
  have hresolve : m.scopes.resolve? name = m.scopes.globals.find? name := by
    rw [Scopes.resolve?, h, Scopes.resolveIn]
  unfold Machine.global? Bindings.has
  rw [hresolve]
  cases m.scopes.globals.find? name with
  | none => rfl
  | some symbol => rfl

/-- **Scopes, depth and directory are restored.** Whatever a run is busy with on whatever machine —
an expression, a statement, a list, a call, a new session, a link, a whole program — once it is
done, with any result, or has failed, with any error, the frames are laid out as before, and the
machine is as deep and in the same directory as before. On the way no visit is deeper than the
limit, if the start is not. After a whole program only the global frame is open, so global names are
read from the global bindings. -/
theorem scopes_depth_directory_restored (cfg : Settings) :
    (∀ (v : Visit) (m' : Machine), (v.task.step cfg v.bound v.machine).machine? = some m' →
      m'.scopes.layout = v.machine.scopes.layout ∧ m'.depth = v.machine.depth ∧
      m'.baseDir = v.machine.baseDir) ∧
    (∀ v w : Visit, v.Reaches cfg w → v.machine.depth ≤ cfg.maxDepth →
      w.machine.depth ≤ cfg.maxDepth) ∧
    (∀ (bound : Nat) (p : Program) (m : Machine),
      (∀ w, Visit.Reaches cfg ⟨bound, .program p, m.reset⟩ w →
        w.machine.depth ≤ cfg.maxDepth) ∧
      ∀ m', (p.run cfg bound m).machine? = some m' → m'.scopes.depth = 0 ∧
      m'.scopes.isGlobal = true ∧
          ∀ name, m'.global? name = (m'.scopes.globals.find? name).bind (·.value)) := by
  refine ⟨fun v m' h => ?_, fun v w h hv => Visit.depth_le_of_reaches h hv, fun bound p m =>
    ⟨?_, ?_⟩⟩
  · have hplace := (Task.develops cfg v.bound v.task v.machine m' h).inPlace
    exact ⟨Scopes.layout_eq_of_kinds hplace.kinds, hplace.depth, hplace.baseDir⟩
  · exact fun w h => Visit.depth_le_of_reaches h (Nat.zero_le _)
  · intro m' h
    have hkinds := (Task.develops cfg bound (.program p) m.reset m' h).inPlace.kinds
    have hframes : m'.scopes.frames = [] := map_eq_nil_iff.1 hkinds
    refine ⟨?_, ?_, Machine.global?_eq hframes⟩
    · rw [Scopes.depth, hframes, length_nil]
    · rw [Scopes.isGlobal, hframes, isEmpty_nil]

/-- A suggestion that calls itself inside of a block, without end. -/
def Program.endless : Program :=
  ⟨[.suggestion ⟨"f", [], none,
      [.branch (.boolean true ⟨2, 7⟩) [.expr (.call (.name "f" ⟨3, 5⟩) [] ⟨3, 6⟩) ⟨3, 5⟩] none
        ⟨2, 3⟩],
      false, false, ⟨1, 1⟩, .main⟩,
    .expr (.call (.name "f" ⟨5, 1⟩) [] ⟨5, 2⟩) ⟨5, 1⟩]⟩

/-- The third call fails below two blocks and two calls, and leaves the machine at the top. -/
theorem Program.endless_restored :
    ∃ m', Program.endless.run ⟨.empty, 2⟩ 20 (.new "" [] none) =
        .failed (.raised (.callDepthExceeded 2) ⟨3, 6⟩) m' ∧
      m'.scopes.depth = 0 ∧ m'.depth = 0 := by
  obtain ⟨m', hrun⟩ : ∃ m', Program.endless.run ⟨.empty, 2⟩ 20 (.new "" [] none) =
      .failed (.raised (.callDepthExceeded 2) ⟨3, 6⟩) m' := ⟨_, rfl⟩
  obtain ⟨htasks, -, hprograms⟩ := scopes_depth_directory_restored ⟨.empty, 2⟩
  have hmachine : (Program.endless.run ⟨.empty, 2⟩ 20 (.new "" [] none)).machine? = some m' := by
    rw [hrun]
    rfl
  have htask := htasks ⟨20, .program .endless, (Machine.new "" [] none).reset⟩ m' hmachine
  exact ⟨m', hrun, ((hprograms 20 .endless _).2 m' hmachine).1, htask.2.1⟩

end Trance
