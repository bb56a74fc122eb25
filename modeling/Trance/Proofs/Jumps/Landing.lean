import Mathlib.Data.Option.Basic
import Trance.Proofs.Jumps.Site
import Trance.Proofs.Running.Shadowing

/-!
# Where a jump to a label lands

A jump to a label leaves everything that is around it, until it comes to a list that has the label.
The lists around a statement are the lists of its body that a run is busy with when it comes to the
statement: the list that the statement stands in, the list around this one, and so on up to the list
of the body. Of these, the innermost one with the label goes on behind its first label of this name.
Whatever is between is left at once: blocks lose their frames, and loops neither step nor look at
their conditions again. -/

namespace Trance

open List Option Exec Visit

open Relation (ReflTransGen)

/-! ## Labels -/

namespace Stmt

def HasLabel (label : String) (all : List Stmt) : Prop := ∃ loc, .label label loc ∈ all

theorem afterLabel?_cases (label : String) (all : List Stmt) :
    ¬HasLabel label all ∧ afterLabel? label all = none ∨
    ∃ before loc behind, all = before ++ .label label loc :: behind ∧ ¬HasLabel label before ∧
      afterLabel? label all = some behind := by
  induction all with
  | nil => exact .inl ⟨by simp [HasLabel], rfl⟩
  | cons first rest ih =>
    by_cases hfirst : first.labelName? = some label
    · obtain ⟨loc, rfl⟩ : ∃ loc, first = .label label loc := by
        cases first with
        | label name loc => exact ⟨loc, by rw [Option.some.inj hfirst]⟩
        | _ => cases hfirst
      exact .inr ⟨[], loc, rest, rfl, by simp [HasLabel], by simp [afterLabel?]⟩
    · have hne : ∀ loc, .label label loc ≠ first := by
        rintro loc rfl
        exact hfirst rfl
      rw [afterLabel?_cons, if_neg hfirst]
      obtain ⟨hnone, hrest⟩ | ⟨before, loc, behind, rfl, hbefore, hrest⟩ := ih
      · refine .inl ⟨?_, hrest⟩
        rintro ⟨loc, hmem⟩
        exact (mem_cons.1 hmem).elim (hne loc) fun h => hnone ⟨loc, h⟩
      · refine .inr ⟨first :: before, loc, behind, rfl, ?_, hrest⟩
        rintro ⟨loc, hmem⟩
        exact (mem_cons.1 hmem).elim (hne loc) fun h => hbefore ⟨loc, h⟩

theorem afterLabel?_eq_none {label : String} {all : List Stmt} (h : ¬HasLabel label all) :
    afterLabel? label all = none := by
  obtain ⟨-, hnone⟩ | ⟨before, loc, behind, rfl, -⟩ := afterLabel?_cases label all
  · exact hnone
  · exact absurd ⟨loc, by simp⟩ h

end Stmt

/-! ## Inside of a body -/

/-- Whether a task is to run through a part of a body. -/
def Task.isPart : Task → Bool
  | exec _ | block _ | list .. | rounds .. => true
  | _ => false

/-- Whether a task is to run through a body: the main list, entrance blocks, or the body of a
suggestion. -/
def Task.opensBody : Task → Bool
  | main .. | entrances _ | body .. => true
  | _ => false

namespace Visit

section

variable (cfg : Settings)

/-- `Inside cfg passes v w`: while `v` runs through a part of a body, it starts `w`, another part of
the same body. If `v` is busy with a list, the list is one that `passes`. -/
structure Inside (passes : List Stmt → Prop) (v w : Visit) : Prop where
  starts : Starts cfg v w
  source : v.task.isPart = true
  target : w.task.isPart = true
  passes : ∀ all rest left, v.task = .list all rest left → passes all

/-- What leaves a part of a body, and the machine that is left behind. -/
def Leaves (flow : Flow) (m' : Machine) : Visit → Prop
  | ⟨n, .exec s, m⟩ => Exec.exec cfg n s m = .done flow m'
  | ⟨n, .block body, m⟩ => Exec.block (Exec.exec cfg n) n body m = .done flow m'
  | ⟨n, .list all rest left, m⟩ => sequence (Exec.exec cfg n) all left rest m = .done flow m'
  | ⟨n, .rounds cond step body left, m⟩ =>
    iterate (Exec.holds (eval cfg n) cond) (Exec.block (Exec.exec cfg n) n body)
      (perform (eval cfg n) step) left m = .done flow m'
  | _ => False

end

variable {cfg : Settings} {v w : Visit}

theorem Starts.opensBody (h : Starts cfg v w) (hv : v.task.isPart = false)
    (hw : w.task.isPart = true) : v.task.opensBody = true := by
  cases h with
  | bodyList | entered | mainHead => rfl
  | _ => simp [Task.isPart] at hv hw

theorem exists_body {u : Visit} (h : u.Reaches cfg w) (hu : u.task.isPart = false)
    (hw : w.task.isPart = true) : ∃ v root, u.Reaches cfg v ∧ v.task.opensBody = true ∧
      Starts cfg v root ∧ ReflTransGen (Inside cfg fun _ => True) root w := by
  induction h with
  | refl => exact absurd (hw.symm.trans hu) (by simp)
  | @tail v w hreaches edge ih =>
    cases hv : v.task.isPart with
    | false => exact ⟨v, w, hreaches, edge.opensBody hv hw, edge, .refl⟩
    | true =>
      obtain ⟨v', root, hreaches', hopens, hstarts, hchain⟩ := ih hv
      exact ⟨v', root, hreaches', hopens, hstarts,
        hchain.tail ⟨edge, hv, hw, fun _ _ _ _ => trivial⟩⟩

end Visit

/-! ## Frames -/

/-- The machine `m'` is `m` but for the innermost frames, which are those of blocks. -/
def Machine.Shed (m m' : Machine) : Prop :=
  ∃ inner : List Frame, (∀ frame ∈ inner, frame.kind = .block) ∧
    m = { m' with scopes := { m'.scopes with frames := inner ++ m'.scopes.frames } }

variable {m m' : Machine} {found : Symbol} {name : String}

theorem Machine.Shed.pop {below : List Frame.Kind} (h : m.Shed m')
    (hkinds : m'.scopes.kinds = .block :: below) : m.Shed m'.pop := by
  obtain ⟨inner, hinner, rfl⟩ := h
  obtain ⟨frame, frames, hframes, hkind, -⟩ := map_eq_cons_iff.1 hkinds
  refine ⟨inner ++ [frame], ?_, ?_⟩
  · simpa [or_imp, forall_and, hkind] using hinner
  · simp only [Machine.pop, Scopes.exit, hframes, tail_cons, append_assoc, singleton_append]

/-- What a name stands for in one frame, but for what can be assigned. Frames are counted from the
innermost one outwards, down to the global bindings. -/
def Scopes.fixedAt (s : Scopes) (i : Nat) (name : String) : Option Symbol :=
  ((s.fixed.1.map Prod.snd ++ [s.fixed.2])[i]?).bind (· name)

theorem Scopes.fixedAt_zero (s : Scopes) (name : String) :
    s.fixedAt 0 name = s.innermost.fixed name := by
  unfold fixedAt innermost fixed
  cases s.frames <;> rfl

theorem Scopes.fixedAt_exit {s : Scopes} (h : s.frames ≠ []) (i : Nat) (name : String) :
    s.exit.fixedAt i name = s.fixedAt (i + 1) name := by
  unfold fixedAt fixed exit
  cases hframes : s.frames with
  | nil => exact absurd hframes h
  | cons frame below => rfl

theorem Bindings.fixed_add? {bindings later : Bindings} {symbol : Symbol}
    (h : bindings.add? symbol = some later) (hfound : bindings.fixed name = some found) :
    later.fixed name = some found := by
  unfold Bindings.add? at h
  split at h
  · cases h
  · cases h
    obtain ⟨own, hown, rfl⟩ := map_eq_some_iff.1 hfound
    simp only [Bindings.find?] at hown
    simp only [Bindings.fixed, Bindings.find?, List.find?_append, hown, some_or, map_some]

theorem Scopes.fixedAt_define? {s t : Scopes} {symbol : Symbol} {i : Nat}
    (h : s.define? symbol = some t) (hfound : s.fixedAt i name = some found) :
    t.fixedAt i name = some found := by
  unfold define? at h
  cases hframes : s.frames with
  | nil =>
    simp only [hframes, map_eq_some_iff] at h
    obtain ⟨globals, hadd, rfl⟩ := h
    cases i with
    | zero =>
      simp only [fixedAt, fixed, hframes] at hfound ⊢
      exact Bindings.fixed_add? hadd hfound
    | succ i => simp [fixedAt, fixed, hframes] at hfound
  | cons frame below =>
    simp only [hframes, map_eq_some_iff] at h
    obtain ⟨bindings, hadd, rfl⟩ := h
    cases i with
    | zero =>
      simp only [fixedAt, fixed, hframes] at hfound ⊢
      exact Bindings.fixed_add? hadd hfound
    | succ i =>
      simp only [fixedAt, fixed, hframes] at hfound ⊢
      exact hfound

/-- **Names that are bound in a frame stay bound, as long as the frame is open.** -/
theorem Machine.Evolves.fixedAt {D : Stmt → Machine → Prop} {b : Bool} (h : m.Evolves D b m')
    {i : Nat} (hfound : m.scopes.fixedAt i name = some found) :
    m'.scopes.fixedAt i name = some found := by
  induction h generalizing i with
  | refl | allocate | modify | outside | link | session | tranceify => exact hfound
  | trans _ _ ih ih' => exact ih' (ih hfound)
  | define free => exact Scopes.fixedAt_define? free hfound
  | assign found kind value =>
    simpa only [Scopes.fixedAt, Scopes.fixed_assign? value found kind] using hfound
  | @inFrame b m kind m' inside ih =>
    have hopen : m'.scopes.frames ≠ [] := by
      intro hnil
      have hkinds := inside.inPlace.kinds
      rw [Scopes.kinds, hnil] at hkinds
      cases hkinds
    rw [Machine.pop, Scopes.fixedAt_exit hopen]
    exact ih hfound
  | deeper _ ih | inDirectory _ ih => exact ih hfound

/-! ## What a jump leaves -/

theorem Exec.inFrame_of_done {α : Type} {x : Exec α} {kind : Frame.Kind} {a : α}
    (h : x (m.push kind) = .done a m') : Exec.inFrame kind x m = .done a m'.pop := by
  show between (Machine.push kind) Machine.pop x m = _
  simp only [between, h]

namespace Visit

variable {cfg : Settings} {label : String} {loc : Location} {v w : Visit} {m' : Machine}

/-- A jump that leaves a part of a body leaves what is around it, unless this is a list with the
label. If a frame was opened for the part, it is closed. -/
theorem Inside.leaves (h : v.Inside cfg (¬Stmt.HasLabel label ·) w)
    (hw : w.Leaves cfg (.jump label loc) m') :
    v.Leaves cfg (.jump label loc) m' ∨ v.Leaves cfg (.jump label loc) m'.pop ∧
      ∃ below, m'.scopes.kinds = .block :: below := by
  obtain ⟨edge, hsource, htarget, hpasses⟩ := h
  cases edge with
  | yes done holds =>
    refine .inl ((bind_of_done done _).trans ?_)
    simp only [holds, if_true]
    exact hw
  | no done fails =>
    refine .inl ((bind_of_done done _).trans ?_)
    simp only [fails, Bool.false_eq_true, if_false]
    exact hw
  | whileLoop | entrance => exact .inl hw
  | loop =>
    refine .inr ⟨inFrame_of_done ?_, _, (Task.evolves (.rounds ..) hw).inPlace.kinds⟩
    exact hw
  | loopStart =>
    refine .inr ⟨inFrame_of_done ?_, _, (Task.evolves (.exec _) hw).inPlace.kinds⟩
    exact bind_of_done hw _
  | loopStarted done =>
    have hkinds := (Task.evolves (.rounds ..) hw).inPlace.kinds
    refine .inr ⟨inFrame_of_done ?_, _, hkinds.trans (Task.evolves (.exec _) done).inPlace.kinds⟩
    exact (bind_of_done done _).trans hw
  | block =>
    exact .inr ⟨inFrame_of_done hw, _, (Task.evolves (.list ..) hw).inPlace.kinds⟩
  | head =>
    refine .inl ((bind_of_done hw _).trans ?_)
    simp only [Stmt.afterLabel?_eq_none (hpasses _ _ _ rfl)]
    rfl
  | next done => exact .inl ((bind_of_done done _).trans hw)
  | jumped done found =>
    refine .inl ((bind_of_done done _).trans ?_)
    simp only [found]
    exact hw
  | roundBody held =>
    refine .inl ((bind_of_done held _).trans ?_)
    exact bind_of_done hw _
  | again held done goesOn stepped =>
    refine .inl ((bind_of_done held _).trans ((bind_of_done done _).trans ?_))
    obtain rfl | ⟨loc, rfl⟩ := goesOn
    · exact (bind_of_done stepped _).trans hw
    · exact (bind_of_done stepped _).trans hw
  | _ => simp [Task.isPart] at hsource htarget

/-- **A jump leaves everything around it that has no list with the label.** The frames that were
opened on the way to the jump are closed, and nothing else has changed since but that the jump is
noted. -/
theorem leaves_of_inside {i : Nat}
    (h : ReflTransGen (Inside cfg (¬Stmt.HasLabel label ·)) v
      ⟨i + 1, .exec (.sinkTo label loc), m⟩) :
    ∃ m', v.Leaves cfg (.jump label loc) m' ∧ { m with signal := loc }.Shed m' := by
  induction h using ReflTransGen.head_induction_on with
  | refl => exact ⟨{ m with signal := loc }, rfl, [], by simp, rfl⟩
  | head edge _ ih =>
    obtain ⟨m', hleaves, hshed⟩ := ih
    obtain hsame | ⟨hpop, below, hkinds⟩ := edge.leaves hleaves
    · exact ⟨m', hsame, hshed⟩
    · exact ⟨m'.pop, hpop, hshed.pop hkinds⟩

theorem starts_rounds_of_leaves {n k : Nat} {cond step : Option Expr} {body : List Stmt}
    {m₁ : Machine}
    (hstarts : Starts cfg ⟨n, .rounds cond step body (k + 1), m⟩ ⟨n, .block body, m₁⟩)
    (hleaves : Leaves cfg (.jump label loc) m' ⟨n, .block body, m₁⟩) :
    ∀ x, Starts cfg ⟨n, .rounds cond step body (k + 1), m⟩ x →
      x = ⟨n, .block body, m₁⟩ ∨ ∃ e, cond = some e ∧ x = ⟨n, .eval e, m⟩ := by
  intro x hx
  cases hstarts with
  | roundBody held =>
    rw [starts_rounds] at hx
    obtain hcond | ⟨_, m₁', held', rfl, hx⟩ := hx
    · exact .inr hcond
    obtain ⟨-, rfl⟩ := Outcome.done.inj (held.symm.trans held')
    obtain rfl | ⟨flow, m₂, done, goesOn, -⟩ := hx
    · exact .inl rfl
    · obtain ⟨rfl, -⟩ := Outcome.done.inj (hleaves.symm.trans done)
      simp at goesOn

end Visit

/-! ## Lists -/

/-- A list of statements that is busy with one of them: the main list, or any other one. -/
structure Listing where
  bound : Nat
  main : Bool
  all : List Stmt
  first : Stmt
  rest : List Stmt
  left : Nat
  machine : Machine

namespace Listing

/-- The visit that goes on with some statements of the list. -/
def goesOn (l : Listing) (behind : List Stmt) (left : Nat) (m : Machine) : Visit :=
  ⟨l.bound, bif l.main then .main l.all behind left else .list l.all behind left, m⟩

/-- The list comes to the statement that it is busy with. -/
def visit (l : Listing) : Visit := l.goesOn (l.first :: l.rest) (l.left + 1) l.machine

/-- The statement is run. -/
def inner (l : Listing) : Visit := ⟨l.bound, .exec l.first, l.machine⟩

def run (cfg : Settings) (l : Listing) : Stmt → Exec Flow :=
  bif l.main then mainStmt (Exec.exec cfg l.bound) else Exec.exec cfg l.bound

/-- `Around cfg passes l w`: the list is around `w`. All lists in between are ones that `passes`. -/
structure Around (cfg : Settings) (passes : List Stmt → Prop) (l : Listing) (w : Visit) : Prop where
  starts : Starts cfg l.visit l.inner
  inside : ReflTransGen (Inside cfg passes) l.inner w

variable {cfg : Settings} {l : Listing}

variable {m : Machine}

theorem starts_goesOn {s : Stmt} {rest : List Stmt} {k : Nat} {w : Visit} :
    Starts cfg (l.goesOn (s :: rest) (k + 1) m) w ↔
      ((l.main = true → s.isHoisted = false) ∧ w = ⟨l.bound, .exec s, m⟩) ∨
        ∃ flow m₁, l.run cfg s m = .done flow m₁ ∧
          ∃ behind, GoesOn l.all rest flow behind ∧ w = l.goesOn behind k m₁ := by
  unfold goesOn run
  cases l.main with
  | true => simpa using starts_main
  | false => simpa using starts_list

theorem run_eq_exec {s : Stmt} (h : l.main = true → s.isHoisted = false) (m : Machine) :
    l.run cfg s m = Exec.exec cfg l.bound s m := by
  unfold run
  cases hmain : l.main with
  | true => simp [mainStmt, h hmain]
  | false => rfl

theorem exists_innermost (label : String) {v w : Visit}
    (h : ReflTransGen (Inside cfg fun _ => True) v w) (hw : ∃ s, w.task = .exec s) :
    ReflTransGen (Inside cfg (¬Stmt.HasLabel label ·)) v w ∨
      ∃ l : Listing, ReflTransGen (Inside cfg fun _ => True) v l.visit ∧
        Stmt.HasLabel label l.all ∧ l.Around cfg (¬Stmt.HasLabel label ·) w := by
  induction h using ReflTransGen.head_induction_on with
  | refl => exact .inl .refl
  | @head v v' edge _ ih =>
    obtain hfree | ⟨l, hchain, hl⟩ := ih
    · by_cases hpasses : ∀ all rest left, v.task = .list all rest left → ¬Stmt.HasLabel label all
      · exact .inl (.head ⟨edge.starts, edge.source, edge.target, hpasses⟩ hfree)
      · simp only [not_forall, not_not] at hpasses
        obtain ⟨all, rest, left, hlist, hlabel⟩ := hpasses
        obtain ⟨n, task, m⟩ := v
        obtain rfl : task = .list all rest left := hlist
        -- the same list again, at another statement, would not pass either
        have hagain : ∀ {behind k m'}, ReflTransGen (Inside cfg (¬Stmt.HasLabel label ·))
            ⟨n, .list all behind k, m'⟩ w → False := by
          intro behind k m' hchain
          obtain rfl | ⟨_, hedge, -⟩ := hchain.cases_head
          · obtain ⟨s, hs⟩ := hw
            cases hs
          · exact hedge.passes _ _ _ rfl hlabel
        have hstarts := edge.starts
        cases hstarts with
        | @head _ _ s rest k _ =>
          exact .inr ⟨⟨n, false, all, s, rest, k, m⟩, .refl, hlabel, edge.starts, hfree⟩
        | next | jumped => exact (hagain hfree).elim
    · exact .inr ⟨l, .head edge hchain, hl⟩

/-! ## Landing -/

/-- `Lands cfg label loc w l behind m'`: the jump of `w` lands in the list, which goes on with the
statements `behind` on the machine `m'`. -/
structure Lands (cfg : Settings) (label : String) (loc : Location) (w : Visit) (l : Listing)
    (behind : List Stmt) (m' : Machine) : Prop where
  /-- Behind the statement that is left by the jump, the list goes on there, and does nothing
  else. -/
  starts : ∀ x, Starts cfg l.visit x ↔ x = l.inner ∨ x = l.goesOn behind l.left m'
  /-- The list has the outcome that it has from there on. -/
  outcome : sequence (l.run cfg) l.all (l.left + 1) (l.first :: l.rest) l.machine =
    sequence (l.run cfg) l.all l.left behind m'
  /-- The next statement is run on this machine. In the main list, hoisted statements are passed
  over. -/
  next : ∀ skipped s rest k, behind = skipped ++ s :: rest → l.left = skipped.length + (k + 1) →
    (∀ t ∈ skipped, l.main = true ∧ t.isHoisted = true) → (l.main = true → s.isHoisted = false) →
    Reaches cfg (l.goesOn behind l.left m') (l.goesOn (s :: rest) (k + 1) m') ∧
      Starts cfg (l.goesOn (s :: rest) (k + 1) m') ⟨l.bound, .exec s, m'⟩ ∧
      sequence (l.run cfg) l.all l.left behind m' =
        sequence (l.run cfg) l.all (k + 1) (s :: rest) m'
  /-- A loop in between does nothing behind the body that is left, and is left itself. -/
  loops : ∀ n cond step body k m₁ m₂, ReflTransGen (Inside cfg (¬Stmt.HasLabel label ·)) l.inner
      ⟨n, .rounds cond step body (k + 1), m₁⟩ →
    Starts cfg ⟨n, .rounds cond step body (k + 1), m₁⟩ ⟨n, .block body, m₂⟩ →
    ReflTransGen (Inside cfg (¬Stmt.HasLabel label ·)) ⟨n, .block body, m₂⟩ w →
    (∀ x, Starts cfg ⟨n, .rounds cond step body (k + 1), m₁⟩ x →
      x = ⟨n, .block body, m₂⟩ ∨ ∃ e, cond = some e ∧ x = ⟨n, .eval e, m₁⟩) ∧
    ∃ m₃, Leaves cfg (.jump label loc) m₃ ⟨n, .rounds cond step body (k + 1), m₁⟩
  /-- Since the jump was noted only frames of blocks have been closed. -/
  shed : { w.machine with signal := loc }.Shed m'
  /-- The frames are those of the list. -/
  kinds : m'.scopes.kinds = l.machine.scopes.kinds
  /-- What the list had bound is still bound. -/
  names : ∀ name symbol, l.machine.scopes.innermost.fixed name = some symbol →
    m'.scopes.innermost.fixed name = some symbol

theorem goesOn_skipped (cfg : Settings) {skipped rest : List Stmt} {k : Nat}
    (h : ∀ t ∈ skipped, l.main = true ∧ t.isHoisted = true) :
    Reaches cfg (l.goesOn (skipped ++ rest) (skipped.length + k) m) (l.goesOn rest k m) ∧
      sequence (l.run cfg) l.all (skipped.length + k) (skipped ++ rest) m =
        sequence (l.run cfg) l.all k rest m := by
  induction skipped with
  | nil =>
    rw [nil_append, length_nil, Nat.zero_add]
    exact ⟨.refl, rfl⟩
  | cons t skipped ih =>
    obtain ⟨⟨hmain, hhoisted⟩, hrest⟩ := forall_mem_cons.1 h
    obtain ⟨hreaches, hsequence⟩ := ih hrest
    have hrun : l.run cfg t m = .done .normal m := by
      simp only [run, hmain, cond_true, mainStmt, hhoisted, if_true]
      rfl
    rw [cons_append, length_cons, Nat.add_right_comm]
    refine ⟨.head (starts_goesOn.2 (.inr ⟨_, _, hrun, _, .inl ⟨rfl, rfl⟩, rfl⟩)) hreaches, ?_⟩
    exact (bind_of_done hrun _).trans hsequence

/-- **A jump lands in the innermost list around it that has the label.** -/
theorem Around.lands {label : String} {loc : Location} {i : Nat} {behind : List Stmt}
    (h : l.Around cfg (¬Stmt.HasLabel label ·) ⟨i + 1, .exec (.sinkTo label loc), m⟩)
    (hbehind : Stmt.afterLabel? label l.all = some behind) :
    ∃ m', l.Lands cfg label loc ⟨i + 1, .exec (.sinkTo label loc), m⟩ behind m' := by
  obtain ⟨m', hleaves, hshed⟩ := leaves_of_inside h.inside
  have hhere : l.main = true → l.first.isHoisted = false := by
    obtain ⟨hhere, -⟩ | ⟨_, _, -, _, -, heq⟩ := starts_goesOn.1 h.starts
    · exact hhere
    · unfold inner goesOn at heq
      cases hmain : l.main <;> simp [hmain] at heq
  have hrun : l.run cfg l.first l.machine = .done (.jump label loc) m' :=
    (run_eq_exec hhere l.machine).trans hleaves
  have hevolves := Task.evolves (.exec l.first) hleaves
  have houtcome : sequence (l.run cfg) l.all (l.left + 1) (l.first :: l.rest) l.machine =
      sequence (l.run cfg) l.all l.left behind m' := by
    refine (bind_of_done hrun _).trans ?_
    simp only [hbehind]
  refine ⟨m', ⟨fun x => ?_, houtcome, ?_, ?_, hshed, hevolves.inPlace.kinds, ?_⟩⟩
  · refine starts_goesOn.trans (or_congr (and_iff_right hhere) ?_)
    simp [hrun, GoesOn, hbehind]
  · rintro skipped s rest k rfl hleft hskipped hs
    rw [hleft]
    obtain ⟨hreaches, hsequence⟩ := goesOn_skipped cfg hskipped
    exact ⟨hreaches, starts_goesOn.2 (.inl ⟨hs, rfl⟩), hsequence⟩
  · intro n cond step body k m₁ m₂ _ hstarts hinside
    obtain ⟨m₃, hbody, -⟩ := leaves_of_inside hinside
    refine ⟨starts_rounds_of_leaves hstarts hbody, ?_⟩
    have hedge : Inside cfg (¬Stmt.HasLabel label ·) ⟨n, .rounds cond step body (k + 1), m₁⟩
      ⟨n, .block body, m₂⟩ := ⟨hstarts, rfl, rfl, by rintro _ _ _ ⟨⟩⟩
    obtain ⟨m₄, hloop, -⟩ := leaves_of_inside (.head hedge hinside)
    exact ⟨m₄, hloop⟩
  · intro name symbol hfound
    rw [← Scopes.fixedAt_zero] at hfound ⊢
    exact hevolves.fixedAt hfound

end Listing

/-- **Where jumps land.** Whatever run comes to a jump to a label, the jump is inside of a body: the
main list, an entrance block, or the body of a suggestion. If some list of this body around the jump
has the label, take the innermost one. This list goes on right behind its first label of the name,
in the scope of the list as it was when the jump was made: the frames of inner blocks are gone, and
what the list had bound is still bound. Loops in between are left without another step or another
look at their conditions. -/
theorem jump_lands_behind_innermost_label (cfg : Settings) (p : Program) (bound : Nat)
    (start : Machine) {i : Nat} {label : String} {loc : Location} {m : Machine}
    (h : Visit.Reaches cfg ⟨bound, .program p, start.reset⟩ ⟨i + 1, .exec (.sinkTo label loc), m⟩) :
    (∃ v root, Visit.Reaches cfg ⟨bound, .program p, start.reset⟩ v ∧ v.task.opensBody = true ∧
      Visit.Starts cfg v root ∧
      ReflTransGen (Visit.Inside cfg fun _ => True) root ⟨i + 1, .exec (.sinkTo label loc), m⟩) ∧
    ∀ outer : Listing, outer.Around cfg (fun _ => True) ⟨i + 1, .exec (.sinkTo label loc), m⟩ →
      Stmt.HasLabel label outer.all →
      ∃ l : Listing, (l = outer ∨
        ReflTransGen (Visit.Inside cfg fun _ => True) outer.inner l.visit) ∧
        l.Around cfg (¬Stmt.HasLabel label ·) ⟨i + 1, .exec (.sinkTo label loc), m⟩ ∧
        ∃ before at' behind m', l.all = before ++ .label label at' :: behind ∧
        ¬Stmt.HasLabel label before ∧
          l.Lands cfg label loc ⟨i + 1, .exec (.sinkTo label loc), m⟩ behind m' := by
  refine ⟨Visit.exists_body h rfl rfl, fun outer houter hlabel => ?_⟩
  have hlands : ∀ l : Listing, Stmt.HasLabel label l.all →
      l.Around cfg (¬Stmt.HasLabel label ·) ⟨i + 1, .exec (.sinkTo label loc), m⟩ →
      ∃ before at' behind m', l.all = before ++ .label label at' :: behind ∧
        ¬Stmt.HasLabel label before ∧
        l.Lands cfg label loc ⟨i + 1, .exec (.sinkTo label loc), m⟩ behind m' := by
    intro l hl haround
    obtain ⟨hnone, -⟩ | ⟨before, at', behind, hall, hbefore, hbehind⟩ :=
      Stmt.afterLabel?_cases label l.all
    · exact absurd hl hnone
    · obtain ⟨m', hm'⟩ := haround.lands hbehind
      exact ⟨before, at', behind, m', hall, hbefore, hm'⟩
  obtain hfree | ⟨l, hchain, hl, haround⟩ :=
    Listing.exists_innermost label houter.inside ⟨_, rfl⟩
  · exact ⟨outer, .inl rfl, ⟨houter.starts, hfree⟩, hlands outer hlabel ⟨houter.starts, hfree⟩⟩
  · exact ⟨l, .inr hchain, haround, hlands l hl haround⟩

/-- A jump out of the inner one of two loops, to a label that stands behind each of them. -/
def Program.outermost : Program :=
  ⟨[.induce ⟨"seen", none, .value (.text "no" ⟨1, 15⟩), ⟨1, 1⟩⟩, .whileLoop (.boolean true ⟨2, 8⟩)
      [.whileLoop (.boolean true ⟨3, 10⟩) [.expr
        (.assign (.name "seen" ⟨4, 7⟩) (.text "yes" ⟨4, 14⟩) ⟨4, 12⟩) ⟨4, 7⟩,
         .sinkTo "out" ⟨5, 7⟩] ⟨3, 5⟩,
       .observe (.text "skipped" ⟨7, 13⟩) ⟨7, 5⟩, .label "out" ⟨8, 5⟩, .snap ⟨9, 5⟩] ⟨2, 1⟩,
    .label "out" ⟨11, 1⟩]⟩

/-- The machine with a value for `seen`, and with some blocks open. -/
def Machine.seeing (value : String) (blocks : Nat) : Machine :=
  { Machine.new "" [] none with
    scopes := ⟨List.replicate blocks ⟨.block, []⟩, [⟨"seen", .variable, none, some (.text value)⟩]⟩ }

def Listing.outermost : Listing :=
  ⟨20, true, Program.outermost.statements, Program.outermost.statements[1], [.label "out" ⟨11, 1⟩],
    18, .seeing "no" 0⟩

/-- The main list has the label, and so has the list of the outer loop. Wherever the jump lands,
`seen` has the value that it was given in the inner loop. -/
theorem Listing.outermost_lands :
    Visit.Reaches ⟨default, 256⟩ ⟨20, .program .outermost, (Machine.new "" [] none).reset⟩
      ⟨18, .exec (.sinkTo "out" ⟨5, 7⟩), .seeing "yes" 2⟩ ∧
    Listing.outermost.Around ⟨default, 256⟩ (fun _ => True)
      ⟨18, .exec (.sinkTo "out" ⟨5, 7⟩), .seeing "yes" 2⟩ ∧
    Stmt.HasLabel "out" Listing.outermost.all ∧
    ∃ l : Listing, l.Around ⟨default, 256⟩ (¬Stmt.HasLabel "out" ·)
        ⟨18, .exec (.sinkTo "out" ⟨5, 7⟩), .seeing "yes" 2⟩ ∧
      ∃ before at' behind m', l.all = before ++ .label "out" at' :: behind ∧
      ¬Stmt.HasLabel "out" before ∧
        l.Lands ⟨default, 256⟩ "out" ⟨5, 7⟩
          ⟨18, .exec (.sinkTo "out" ⟨5, 7⟩), .seeing "yes" 2⟩ behind m' ∧
        m'.scopes.globals = [⟨"seen", .variable, none, some (.text "yes")⟩] := by
  have hstarts : Visit.Starts ⟨default, 256⟩ Listing.outermost.visit Listing.outermost.inner :=
    .mainHead rfl
  have hinside : ReflTransGen (Visit.Inside ⟨default, 256⟩ fun _ => True) Listing.outermost.inner
      ⟨18, .exec (.sinkTo "out" ⟨5, 7⟩), .seeing "yes" 2⟩ :=
    .head ⟨.whileLoop, rfl, rfl, fun _ _ _ _ => trivial⟩ <|
    .head ⟨.roundBody rfl, rfl, rfl, fun _ _ _ _ => trivial⟩ <|
    .head ⟨.block, rfl, rfl, fun _ _ _ _ => trivial⟩ <|
    .head ⟨.head, rfl, rfl, fun _ _ _ _ => trivial⟩ <|
    .head ⟨.whileLoop, rfl, rfl, fun _ _ _ _ => trivial⟩ <|
    .head ⟨.roundBody rfl, rfl, rfl, fun _ _ _ _ => trivial⟩ <|
    .head ⟨.block, rfl, rfl, fun _ _ _ _ => trivial⟩ <|
    .head ⟨.next rfl, rfl, rfl, fun _ _ _ _ => trivial⟩ <|
    .single ⟨.head, rfl, rfl, fun _ _ _ _ => trivial⟩
  have hmain : Visit.Reaches ⟨default, 256⟩ ⟨20, .program .outermost,
      (Machine.new "" [] none).reset⟩ Listing.outermost.visit :=
    .head (.starting rfl rfl rfl (by simp)) (.single (.mainNext rfl))
  have hreaches := hmain.trans (.head hstarts (hinside.lift id fun _ _ h => h.starts))
  have hlabel : Stmt.HasLabel "out" Listing.outermost.all :=
    ⟨⟨11, 1⟩, by simp [outermost, Program.outermost]⟩
  obtain ⟨l, -, haround, before, at', behind, m', hall, hbefore, hlands⟩ :=
    (jump_lands_behind_innermost_label _ _ _ _ hreaches).2 _ ⟨hstarts, hinside⟩ hlabel
  obtain ⟨inner, -, hshed⟩ := hlands.shed
  exact ⟨hreaches, ⟨hstarts, hinside⟩, hlabel, l, haround, before, at', behind, m', hall, hbefore,
    hlands, (congrArg (·.scopes.globals) hshed).symm⟩

end Trance
