import Trance.Proofs.Running.Evolution
import Trance.Proofs.Running.Starts

/-!
# The course of a task

A task is done in turns. It changes the machine itself, and it starts visits, one after the other,
each on the machine that is there by then; around some of them it opens a frame, goes one call
deeper or moves to another directory. This is the course of the task. The visits of the course are
exactly those that the task starts, whether the task is done, fails or is cut short.

What a visit starts has a smaller bound or is less nested, so what is true of a visit whenever it is
true of those that it starts is true of every visit. -/

namespace Trance

open Visit Exec

section

variable (cfg : Settings)

/-- On the way of a visit a declaration takes effect, and the machine is `m'` right behind it. -/
def Visit.Declares (v : Visit) (s : Stmt) (m' : Machine) : Prop :=
  ∃ n m, Reaches cfg v ⟨n, .declare s, m⟩ ∧ declare (eval cfg n) s m = .done () m'

end

/-- Whether a task may bind names in the frame where it is started. -/
def Task.binds : Task → Bool
  | body .. | exec _ | declare _ | induce _ | list .. => true
  | link .. | merge _ | program _ | hoist _ | follow _ | main .. => true
  | _ => false

def Task.asserts : Task → Bool
  | exec (.assert ..) => true
  | _ => false

/-! ## Visits from the inside out -/

/-- The number of accesses to fields and items at the end of an expression. -/
def Expr.accesses : Expr → Nat
  | .field object .. | .index object .. => object.accesses + 1
  | _ => 0

/-- How many kinds of tasks can be nested in one of this kind before the bound becomes smaller. -/
def Task.height : Task → Nat
  | eval _ | exec _ | call .. | link .. => 0
  | values _ | place .. | detached _ | list .. | main .. | follow _ => 1
  | fields .. | block _ | body .. => 2
  | record .. | rounds .. | entrances _ => 3
  | default .. => 4
  | statics .. | members .. => 5
  | instantiate .. | declare _ | induce _ => 6
  | merge _ | hoist _ => 7
  | program _ => 8

/-- How much is left to do for a task that starts others of its kind. -/
def Task.size : Task → Nat
  | values rest | fields _ rest | statics _ rest | members _ _ rest => rest.length
  | place _ target => target.accesses
  | list _ _ left | main _ _ left | rounds _ _ _ left => left
  | merge rest | hoist rest | follow rest | entrances rest => rest.length
  | _ => 0

variable {v : Visit}

theorem Visit.Starts.decreases {cfg : Settings} {w : Visit} (h : Starts cfg v w) :
    w.bound < v.bound ∨ w.bound = v.bound ∧
      (w.task.height < v.task.height ∨ w.task.height = v.task.height ∧
        w.task.size < v.task.size) := by
  cases h <;> simp [Task.height, Task.size, Expr.accesses]

/-- **What is true of a visit if it is true of those that it starts is true of every visit.** -/
theorem Visit.induction (cfg : Settings) {motive : Visit → Prop}
    (h : ∀ v, (∀ w, Starts cfg v w → motive w) → motive v) (v : Visit) : motive v :=
  h v fun w _ => Visit.induction cfg h w
termination_by (v.bound, v.task.height, v.task.size)
decreasing_by
  rename_i edge
  simpa only [Prod.lex_def] using edge.decreases

/-- The bound of a visit, or of the rounds of its task, is used up. -/
def Visit.Spent (v : Visit) : Prop :=
  match v.task with
  | .eval _ | .exec _ | .call .. | .link .. => v.bound = 0
  | .list _ _ left | .main _ _ left | .rounds _ _ _ left => left = 0
  | _ => False

/-! ## Courses -/

section

variable (cfg : Settings)

/-- `Course cfg v b m visits end?`: on behalf of `v` the machine `m` is changed, and the visits are
made, one after the other. This ends on the machine `end?`, or is cut short, outside of the visits
only if `v` is spent. Names are bound in the innermost frame of `m` only if `b`, and no failure is
noted outside of the visits unless `v` is to run an assertion. -/
inductive Course (v : Visit) : Bool → Machine → List Visit → Option Machine → Prop where
  | own {b m m'} (changes : m.Evolves (v.Declares cfg) b m')
      (noted : v.task.asserts = false → m'.failures = m.failures) : Course v b m [] (some m')
  | cut {b m} (spent : v.Spent) : Course v b m [] none
  | visit {b n task m} (binds : (task.binds || b) = b) :
      Course v b m [⟨n, task, m⟩] (task.step cfg n m).machine?
  | trans {b m visits m₁ more end?} (first : Course v b m visits (some m₁))
      (second : Course v b m₁ more end?) : Course v b m (visits ++ more) end?
  -- what is opened is closed again
  | inFrame {b m kind visits end?} (inside : Course v true (m.push kind) visits end?) :
      Course v b m visits (end?.map Machine.pop)
  | deeper {b m visits end?} (allowed : m.depth < cfg.maxDepth)
      (inside : Course v b m.deepen visits end?) : Course v b m visits (end?.map Machine.rise)
  | inDirectory {b m dir visits end?} (inside : Course v b (m.moved dir) visits end?) :
      Course v b m visits (end?.map (Machine.moved m.baseDir))

/-- On behalf of `v` a step follows a course on a machine, whose visits are those in `T`. -/
def Exec.Follows {α : Type} (v : Visit) (b : Bool) (T : Visit → Prop) (m : Machine) (x : Exec α) :
    Prop :=
  ∃ visits, (∀ w, T w ↔ w ∈ visits) ∧ Course cfg v b m visits (x m).machine?

/-- A task follows a course, whose visits are those that it starts. -/
def Task.Follows (n : Nat) (task : Task) : Prop :=
  ∀ m, Exec.Follows cfg ⟨n, task, m⟩ task.binds (Starts cfg ⟨n, task, m⟩) m (task.step cfg n)

end

variable {cfg : Settings}

namespace Exec

theorem depth_lt_of_requireDepth {limit : Nat} {loc : Location} {m m' : Machine}
    (h : requireDepth limit loc m = .done () m') : m' = m ∧ m.depth < limit := by
  simp only [requireDepth, Bind.bind, Exec.bind, machine] at h
  split at h
  · cases h
  · cases h
    exact ⟨rfl, by omega⟩

theorem callExpr_of_calledByValue {limit : Nat} {eval : Expr → Exec Value} {call : Caller}
    {callee : Expr} {args : List Expr} {loc : Location} (h : callee.calledByValue = true) :
    callExpr limit eval call callee args loc = callValue eval call callee args loc := by
  cases callee with
  | name | field => cases h
  | _ => rfl

theorem machine?_between {α : Type} (before after : Machine → Machine) (x : Exec α) (m : Machine) :
    (between before after x m).machine? = (x (before m)).machine?.map after := by
  unfold between
  cases x (before m) <;> rfl

namespace Follows

variable {α β : Type} {v : Visit} {b : Bool} {T T' : Visit → Prop} {m : Machine} {x : Exec α}

theorem congr (hT : ∀ w, T w ↔ T' w) (h : Follows cfg v b T' m x) : Follows cfg v b T m x := by
  obtain ⟨visits, hvisits, hcourse⟩ := h
  exact ⟨visits, fun w => (hT w).trans (hvisits w), hcourse⟩

theorem own (hT : ∀ w, ¬T w) (hx : Changes (v.Declares cfg) b m x) : Follows cfg v b T m x := by
  obtain ⟨m', hend, hevolves, hnoted⟩ := hx
  refine ⟨[], by simpa using hT, ?_⟩
  rw [hend]
  exact .own hevolves fun _ => hnoted

theorem reads (hT : ∀ w, ¬T w) (hx : Reads False x) : Follows cfg v b T m x := own hT (.reads hx)

theorem checkAssertion (hv : v.task.asserts = true) (holds : Bool) (message : Option String)
    (loc : Location) : Follows cfg v b (fun _ => False) m (checkAssertion holds message loc) := by
  refine ⟨[], by simp, ?_⟩
  cases holds with
  | true => exact .own .refl fun _ => rfl
  | false =>
    exact .own (.outside m.events m.input m.capacity _ m.signal) fun h => by rw [hv] at h; cases h

theorem visit (n : Nat) (task : Task) (hb : (task.binds || b) = b) :
    Follows cfg v b (· = ⟨n, task, m⟩) m (task.step cfg n) :=
  ⟨[⟨n, task, m⟩], by simp, .visit hb⟩

/-- One step after another. What the second one starts depends on how the first has been done. -/
theorem bind {S : α → Machine → Visit → Prop} {f : α → Exec β} (hx : Follows cfg v b T m x)
    (hf : ∀ a m₁, x m = .done a m₁ → Follows cfg v b (S a m₁) m₁ (f a)) :
    Follows cfg v b (fun w => T w ∨ ∃ a m₁, x m = .done a m₁ ∧ S a m₁ w) m (x >>= f) := by
  obtain ⟨visits, hvisits, hcourse⟩ := hx
  simp only [Follows, Bind.bind, Exec.bind]
  cases hrun : x m with
  | done a m₁ =>
    obtain ⟨more, hmore, hcourse'⟩ := hf a m₁ hrun
    rw [hrun] at hcourse
    exact ⟨visits ++ more, by simp [hvisits, hmore], .trans hcourse hcourse'⟩
  | failed e m₁ | exhausted =>
    rw [hrun] at hcourse
    exact ⟨visits, by simp [hvisits], hcourse⟩

theorem first (n : Nat) (task : Task) (hb : (task.binds || b) = b)
    {S : task.Result → Machine → Visit → Prop} {f : task.Result → Exec β}
    (hf : ∀ a m₁, task.step cfg n m = .done a m₁ → Follows cfg v b (S a m₁) m₁ (f a)) :
    Follows cfg v b (fun w => w = ⟨n, task, m⟩ ∨
      ∃ a m₁, task.step cfg n m = .done a m₁ ∧ S a m₁ w) m (task.step cfg n >>= f) :=
  (visit n task hb).bind hf

theorem after {S : α → Machine → Visit → Prop} {f : α → Exec β} (hx : Changes (v.Declares cfg) b m x)
    (hf : ∀ a m₁, x m = .done a m₁ → Follows cfg v b (S a m₁) m₁ (f a)) :
    Follows cfg v b (fun w => ∃ a m₁, x m = .done a m₁ ∧ S a m₁ w) m (x >>= f) :=
  congr (fun w => by simp) ((own (fun _ => id) hx).bind hf)

theorem look {S : α → Machine → Visit → Prop} {f : α → Exec β} (hx : Reads False x)
    (hf : ∀ a m₁, x m = .done a m₁ → Follows cfg v b (S a m₁) m₁ (f a)) :
    Follows cfg v b (fun w => ∃ a m₁, x m = .done a m₁ ∧ S a m₁ w) m (x >>= f) :=
  after (.reads hx) hf

theorem before {f : α → Exec β} (hx : Follows cfg v b T m x)
    (hf : ∀ a m₁, Changes (v.Declares cfg) b m₁ (f a)) : Follows cfg v b T m (x >>= f) :=
  congr (fun w => by simp) (hx.bind fun a m₁ _ => own (fun _ => id) (hf a m₁))

theorem result {f : α → Exec β} (hx : Follows cfg v b T m x) (hf : ∀ a, Reads False (f a)) :
    Follows cfg v b T m (x >>= f) :=
  hx.before fun a _ => .reads (hf a)

theorem last (n : Nat) (task : Task) (hb : (task.binds || b) = b) {f : task.Result → Exec β}
    (hf : ∀ a, Reads False (f a)) :
    Follows cfg v b (· = ⟨n, task, m⟩) m (task.step cfg n >>= f) :=
  (visit n task hb).result hf

theorem exhausted (hv : v.Spent) (hT : ∀ w, ¬T w) : Follows cfg v b T m (exhausted : Exec α) :=
  ⟨[], by simpa using hT, .cut hv⟩

theorem machine {f : Machine → Exec β} (hf : Follows cfg v b T m (f m)) :
    Follows cfg v b T m (machine >>= f) := hf

theorem update {change : Machine → Machine} {f : Unit → Exec β}
    (hchange : m.Evolves (v.Declares cfg) b (change m)) (hnoted : (change m).failures = m.failures)
    (hf : Follows cfg v b T (change m) (f ())) : Follows cfg v b T m (update change >>= f) := by
  obtain ⟨visits, hvisits, hcourse⟩ := hf
  exact ⟨visits, hvisits, .trans (.own hchange fun _ => hnoted) hcourse⟩

theorem between {b' : Bool} (before after : Machine → Machine) (hx : Follows cfg v b' T (before m) x)
    (h : ∀ {visits end?}, Course cfg v b' (before m) visits end? →
      Course cfg v b m visits (end?.map after)) :
    Follows cfg v b T m (between before after x) := by
  obtain ⟨visits, hvisits, hcourse⟩ := hx
  refine ⟨visits, hvisits, ?_⟩
  rw [machine?_between]
  exact h hcourse

theorem inFrame {kind : Frame.Kind} (hx : Follows cfg v true T (m.push kind) x) :
    Follows cfg v b T m (inFrame kind x) :=
  between (Machine.push kind) Machine.pop hx .inFrame

theorem deeper (allowed : m.depth < cfg.maxDepth) (hx : Follows cfg v b T m.deepen x) :
    Follows cfg v b T m (deeper x) :=
  between Machine.deepen Machine.rise hx (.deeper allowed)

theorem inDirectory {dir : String} (hx : Follows cfg v b T (m.moved dir) x) :
    Follows cfg v b T m (inDirectory dir x) :=
  between (Machine.moved dir) (Machine.moved m.baseDir) hx .inDirectory

end Follows

end Exec

namespace Task.Follows

variable {n : Nat}

open Exec (Changes)

/-! ### Expressions -/

theorem values (exprs : List Expr) : Follows cfg n (.values exprs) := by
  intro m
  cases exprs with
  | nil => exact .reads (by rintro w ⟨⟩) (.pure [])
  | cons e rest =>
    refine .congr (fun _ => starts_values) ?_
    show Exec.Follows _ _ _ _ m ((e :: rest).mapM (Exec.eval cfg n))
    rw [List.mapM_cons]
    exact .first n (.eval e) rfl fun _ _ _ =>
      .last n (.values rest) rfl fun _ => .pure _

theorem place (loc : Location) (target : Expr) : Follows cfg n (.place loc target) := by
  intro m
  cases target with
  | name => exact .reads (by rintro w ⟨⟩) (.pure _)
  | field object member at' =>
    refine .congr (fun _ => starts_place_field) ?_
    refine .first n (.eval object) rfl fun v m₁ _ => ?_
    cases v with
    | session ref => exact .reads (by simp) (.pure _)
    | _ => exact .congr (by simp) (.last n (.place loc object) rfl fun _ => .pure _)
  | index object index at' =>
    refine .congr (fun _ => starts_place_index) ?_
    exact .first n (.eval index) rfl fun v m₁ _ =>
      .last n (.place loc object) rfl fun _ => .pure _
  | _ => exact .reads (by rintro w ⟨⟩) (.fail _ loc)

/-! ### Records and sessions -/

theorem fields (given : List (String × Expr)) (members : List Variable) :
    Follows cfg n (.fields given members) := by
  intro m
  cases members with
  | nil => exact .reads (by rintro w ⟨⟩) (.pure [])
  | cons member rest =>
    refine .congr (fun _ => starts_fields) ?_
    show Exec.Follows _ _ _ _ m ((member :: rest).mapM (Exec.recordField (Exec.eval cfg n) given))
    rw [List.mapM_cons]
    refine .bind ?_ fun v m₁ _ => .last n (.fields given rest) rfl fun _ => .pure _
    unfold Exec.recordField
    cases hgiven : Table.find? given member.name with
    | some e => exact .congr (by simp) (.last n (.eval e) rfl fun _ => .pure _)
    | none =>
      cases hstart : member.start with
      | value init =>
        exact .congr (by simp) (.last n (.detached init) rfl fun _ => .pure _)
      | _ => exact .reads (by simp) (.pure _)

theorem record (typeName : String) (given : List (String × Expr)) (loc : Location) :
    Follows cfg n (.record typeName given loc) := by
  intro m
  refine .congr (fun _ => starts_record) (.machine ?_)
  cases hdecl : m.records.find? typeName with
  | none => exact .reads (by simp) (.fail _ loc)
  | some decl =>
    simp only [Option.some.injEq, exists_eq_left']
    split
    · rename_i hfit
      refine .reads ?_ (.fail _ loc)
      rintro w ⟨hnone, _⟩
      rw [hfit] at hnone
      cases hnone
    · rename_i hfit
      simp only [hfit, true_and]
      exact .last n (.fields given decl.members) rfl fun _ => .pure _

theorem default (typeName : Option String) (loc : Location) :
    Follows cfg n (.default typeName loc) := by
  intro m
  refine .congr (fun _ => starts_default) ?_
  cases typeName with
  | none => exact .reads (by simp) (.pure _)
  | some name =>
    refine .machine ?_
    cases hknown : m.records.has name with
    | true => exact .congr (by simp [hknown]) (.visit n (.record name [] loc) rfl)
    | false => exact .reads (by simp [hknown]) (.pure _)

theorem statics (object : Instance) (members : List Member) :
    Follows cfg n (.statics object members) := by
  intro m
  cases members with
  | nil => exact .reads (by rintro w ⟨⟩) (.pure object)
  | cons member rest =>
    refine .congr (fun _ => starts_statics) ?_
    refine .bind ?_ fun object' m₁ _ => .visit n (.statics object' rest) rfl
    unfold Exec.addStatic
    cases hdecl : member.decl with
    | method decl => exact .reads (by simp) (.pure _)
    | field field =>
      cases hstart : field.start with
      | value init =>
        simp only [hstart]
        exact .congr (by simp [hstart]) (.last n (.detached init) rfl fun _ => .pure _)
      | _ =>
        simp only [hstart]
        exact .reads (by simp [hstart]) (.pure _)

theorem members (loc : Location) (object : Instance) (members : List Member) :
    Follows cfg n (.members loc object members) := by
  intro m
  cases members with
  | nil => exact .reads (by rintro w ⟨⟩) (.pure object)
  | cons member rest =>
    refine .congr (fun _ => starts_members) ?_
    refine .bind ?_ fun object' m₁ _ => .visit n (.members loc object' rest) rfl
    unfold Exec.addMember
    cases hdecl : member.decl with
    | method decl =>
      simp only
      split
      · exact .reads (by simp) (.pure _)
      · exact .reads (by simp) (.pure _)
    | field field =>
      cases hstart : field.start with
      | value init =>
        simp only [hstart]
        exact .congr (by simp [hstart]) (.last n (.detached init) rfl fun _ => .pure _)
      | _ =>
        simp only [hstart]
        exact .congr (by simp [hstart]) (.last n (.default field.typeName loc) rfl fun _ => .pure _)

theorem instantiate (name : String) (args : List Value) (loc : Location) :
    Follows cfg n (.instantiate name args loc) := by
  intro m
  refine .congr (fun _ => starts_instantiate) (.machine ?_)
  cases hfound : m.sessions.find? name with
  | none => exact .reads (by simp) (.fail _ loc)
  | some decl =>
    simp only [Option.some.injEq, exists_eq_left']
    refine .look (.requireDepth cfg.maxDepth loc) fun _ m₁ hdepth => ?_
    obtain ⟨rfl, allowed⟩ := Exec.depth_lt_of_requireDepth hdepth
    refine .bind (.deeper allowed (.visit n (.members loc _ _) rfl)) fun object m₂ _ =>
      .after (.allocate object) fun ref m₃ _ => ?_
    cases hinit : decl.constructor? with
    | some init =>
      exact .congr (by simp) (.last n (.call init args (some ref) loc) rfl fun _ => .pure _)
    | none =>
      refine .reads (by simp) ?_
      simp only
      split
      · exact .pure _
      · exact .fail _ loc

/-! ### Declarations -/

theorem declare (stmt : Stmt) : Follows cfg n (.declare stmt) := by
  intro m
  cases stmt with
  | suggestion decl => exact .own (by rintro w ⟨⟩) (.define _ _)
  | session decl =>
    refine .congr (fun w => starts_declare.trans (by simp)) (.first n (.statics _ _) rfl
      fun object m₁ hbuilt => .own (fun _ => id) ((Changes.allocate object).bind fun ref m₂ hknown =>
        (Changes.define _ _).bind fun _ m₃ hdefined => .update (.session ?_) rfl))
    refine ⟨n, m, .refl, ?_⟩
    have hbuilt : Exec.buildStatic (Exec.eval cfg n) decl m = .done object m₁ := hbuilt
    simp only [Exec.declare, Bind.bind, Exec.bind, hbuilt, hknown, hdefined]
    rfl
  | tranceify decl =>
    refine .own (by rintro w ⟨⟩) ((Changes.define _ _).bind fun _ m₁ hdefined =>
      .update (.tranceify ?_) rfl)
    refine ⟨n, m, .refl, ?_⟩
    simp only [Exec.declare, Bind.bind, Exec.bind, hdefined]
    rfl
  | _ => exact .reads (by rintro w ⟨⟩) (.pure ())

theorem induce (decl : Variable) : Follows cfg n (.induce decl) := by
  intro m
  refine .congr (fun _ => starts_induce) ?_
  show Exec.Follows _ _ _ _ m (Exec.induce (Exec.eval cfg n) decl)
  unfold Exec.induce
  cases hstart : decl.start with
  | external => exact .own (by simp) ((Changes.readExternal decl).bind fun _ _ _ => .define _ _)
  | value init =>
    exact .congr (by simp) ((Exec.Follows.visit n (.eval init) rfl).before fun _ _ => .define _ _)
  | unset =>
    exact .congr (by simp) ((Exec.Follows.visit n (.default decl.typeName decl.location) rfl).before
      fun _ _ => .define _ _)

/-! ### Calls -/

theorem callMember (object : Expr) (member : String) (at' : Location) (args : List Expr)
    (loc : Location) : Follows cfg (n + 1) (.eval (.call (.field object member at') args loc)) := by
  refine fun m => .congr (fun _ => starts_call_member) ?_
  refine .first n (.eval object) rfl fun target m₁ _ =>
    .look (.memberValue target member object.isThis loc) fun method m₂ _ =>
      .first n (.values args) rfl fun given m₃ _ => ?_
  cases method with
  | suggestion decl =>
    cases target with
    | session ref =>
      exact .congr (by simp) (.look (.receiver ref decl) fun own m₄ _ =>
         .visit n (.call decl given (some own) loc) rfl)
    | _ => exact .congr (by simp) (.visit n (.call decl given none loc) rfl)
  | _ => exact .reads (by simp) (.fail _ loc)

theorem callName (name : String) (at' : Location) (args : List Expr) (loc : Location) :
    Follows cfg (n + 1) (.eval (.call (.name name at') args loc)) := by
  refine fun m => .congr (fun _ => starts_call_name) ?_
  show Exec.Follows _ _ _ _ m (Exec.callName cfg.maxDepth (Exec.eval cfg n)
    (Exec.call cfg n) name args loc)
  refine .machine ?_
  cases hfound : m.scopes.resolve? name with
  | none =>
    exact .congr (by simp) ((Exec.Follows.visit n (.values args) rfl).before fun given _ =>
      .intrinsic name given loc)
  | some symbol =>
    dsimp only
    split
    · rename_i decl hvalue
      refine .congr (fun w => ?_)
        (.first n (.values args) rfl fun given m₁ _ => .visit n (.call decl given none loc) rfl)
      simp only [reduceCtorEq, false_and, false_or, Option.some.injEq, exists_eq_left', hvalue,
        Value.suggestion.injEq, ne_eq, forall_eq', or_false]
      exact or_iff_left_of_imp fun h => .inl h.2
    · rename_i hkind hvalue
      have hvalue : ∀ decl, symbol.value ≠ some (.suggestion decl) := hvalue
      exact .congr (fun w => by simp [hkind, hvalue]; rfl)
        (.first n (.values args) rfl fun given m₁ _ => .visit n (.instantiate name given loc) rfl)
    · rename_i hvalue hkind
      have hvalue : ∀ decl, symbol.value ≠ some (.suggestion decl) := hvalue
      exact .reads (by simp [show symbol.kind ≠ .session from hkind, hvalue]) (.fail _ loc)

theorem callValue {callee : Expr} (hother : callee.calledByValue = true) (args : List Expr)
    (loc : Location) : Follows cfg (n + 1) (.eval (.call callee args loc)) := by
  refine fun m => .congr (fun _ => starts_call_value hother) ?_
  show Exec.Follows _ _ _ _ m (Exec.callExpr _ _ _ callee args loc)
  rw [Exec.callExpr_of_calledByValue hother]
  refine .first n (.eval callee) rfl fun v m₁ _ => ?_
  cases v with
  | suggestion decl =>
    simp only [Value.suggestion.injEq, exists_eq_left']
    exact .first n (.values args) rfl fun given m₂ _ => .visit n (.call decl given none loc) rfl
  | _ => exact .reads (by simp) (.fail _ loc)

theorem binary (op : BinaryOp) (l r : Expr) (loc : Location) :
    Follows cfg (n + 1) (.eval (.binary op l r loc)) := by
  refine fun m => .congr (fun _ => starts_binary) ?_
  cases op with
  | conj =>
    refine .first n (.eval l) rfl fun v m₁ _ => ?_
    split
    · rename_i htruthy
      exact .congr (by simp [htruthy]) (.last n (.eval r) rfl fun _ => .pure _)
    · rename_i htruthy
      exact .reads (by simp [htruthy]) (.pure _)
  | disj =>
    refine .first n (.eval l) rfl fun v m₁ _ => ?_
    split
    · rename_i htruthy
      exact .reads (by simp [htruthy]) (.pure _)
    · rename_i htruthy
      exact .congr (by simp [htruthy]) (.last n (.eval r) rfl fun _ => .pure _)
  | _ =>
    exact .first n (.eval l) rfl fun v m₁ _ =>
      .congr (by simp) (.last n (.eval r) rfl fun _ => .ofExcept _)

theorem eval (expr : Expr) : Follows cfg (n + 1) (.eval expr) := by
  intro m
  cases expr with
  | number | text | boolean => exact .reads (by rintro w ⟨⟩) (.pure _)
  | name name loc => exact .reads (by rintro w ⟨⟩) (.nameValue name loc)
  | binary op l r loc => exact binary op l r loc m
  | unary op e loc =>
    exact .congr (fun _ => starts_unary) (.last n (.eval e) rfl fun _ => .ofExcept _)
  | call callee args loc =>
    cases callee with
    | name name at' => exact callName name at' args loc m
    | field object member at' => exact callMember object member at' args loc m
    | _ => exact callValue rfl args loc m
  | field object member loc =>
    exact .congr (fun _ => starts_field) (.last n (.eval object) rfl fun _ =>
      .memberValue _ member _ loc)
  | index object index loc =>
    exact .congr (fun _ => starts_index) (.first n (.eval object) rfl fun _ m₁ _ =>
      .last n (.eval index) rfl fun _ => .ofExcept _)
  | assign target value loc =>
    exact .congr (fun _ => starts_assign) (.first n (.eval value) rfl fun v m₁ _ =>
      .result (.before (.visit n (.place loc target) rfl) fun _ _ => .modifyPlace _ loc _) fun _ =>
        .pure _)
  | record typeName given loc =>
    exact .congr (fun _ => starts_literal) (.visit n (.record typeName given loc) rfl)
  | array items loc =>
    exact .congr (fun _ => starts_array) (.last n (.values items) rfl fun _ => .pure _)

/-! ### Statements -/

variable {m : Machine}

theorem sequence {run : Stmt → Exec Flow} {all rest : List Stmt} {s : Stmt} {k : Nat}
    {head : Visit → Prop} {next : List Stmt → Task} (hrun : Exec.Follows cfg v true head m (run s))
    (hnext : ∀ behind m₁, Exec.Follows cfg v true (· = ⟨n, next behind, m₁⟩) m₁
      (Exec.sequence run all k behind)) :
    Exec.Follows cfg v true (fun w => head w ∨ ∃ flow m₁, run s m = .done flow m₁ ∧
      ∃ behind, GoesOn all rest flow behind ∧ w = ⟨n, next behind, m₁⟩) m
      (Exec.sequence run all (k + 1) (s :: rest)) := by
  refine hrun.bind fun flow m₁ _ => ?_
  cases flow with
  | normal => exact .congr (by simp [GoesOn]) (hnext rest m₁)
  | jump label loc =>
    cases hbehind : Stmt.afterLabel? label all with
    | none =>
      simp only [hbehind]
      exact .reads (by simp [GoesOn, hbehind]) (.pure _)
    | some behind =>
      simp only [hbehind]
      exact .congr (by simp [GoesOn, hbehind]) (hnext behind m₁)
  | snap | sink | awaken => exact .reads (by simp [GoesOn]) (.pure _)

theorem list (all rest : List Stmt) (left : Nat) : Follows cfg n (.list all rest left) := by
  intro m
  cases left with
  | zero => exact .exhausted rfl (by rintro w ⟨⟩)
  | succ k =>
    cases rest with
    | nil => exact .reads (by rintro w ⟨⟩) (.pure _)
    | cons s rest =>
      exact .congr (fun _ => starts_list) (sequence (.visit n (.exec s) rfl) fun behind _ =>
        .visit n (.list all behind k) rfl)

theorem main (all rest : List Stmt) (left : Nat) : Follows cfg n (.main all rest left) := by
  intro m
  cases left with
  | zero => exact .exhausted rfl (by rintro w ⟨⟩)
  | succ k =>
    cases rest with
    | nil => exact .reads (by rintro w ⟨⟩) (.pure _)
    | cons s rest =>
      refine .congr (fun _ => starts_main) (sequence ?_ fun behind _ =>
        .visit n (.main all behind k) rfl)
      unfold Exec.mainStmt
      cases hhoisted : s.isHoisted with
      | true => exact .reads (by simp) (.pure _)
      | false => exact .congr (by simp) (.visit n (.exec s) rfl)

theorem body (decl : Suggestion) (args : List Value) (receiver : Option SessionRef) :
    Follows cfg n (.body decl args receiver) := fun _ =>
  .congr (fun _ => starts_body) <| .after (.bindThis receiver) fun _ _ _ =>
      .after (.bindParams _ _) fun _ _ _ => .visit n (.list decl.body decl.body n) rfl

theorem call (decl : Suggestion) (args : List Value) (receiver : Option SessionRef)
    (loc : Location) : Follows cfg (n + 1) (.call decl args receiver loc) := by
  refine fun m => .congr (fun _ => starts_call) ?_
  show Exec.Follows _ _ _ _ m (Exec.callBody cfg.maxDepth (Exec.exec cfg n) n decl args receiver loc)
  unfold Exec.callBody
  split
  · rename_i hcount
    exact .reads (by simp [hcount]) (.fail _ loc)
  · rename_i hcount
    simp only [not_not.1 hcount, true_and]
    refine .look (.requireDepth cfg.maxDepth loc) fun _ m₁ hdepth => ?_
    obtain ⟨rfl, allowed⟩ := Exec.depth_lt_of_requireDepth hdepth
    refine .result (.deeper allowed
      (.inFrame (.visit n (.body decl args receiver) rfl))) fun flow => ?_
    cases flow with
    | awaken => exact .pure _
    | _ => exact .bind (.rejectEscape _) fun _ => .pure _

theorem entrances (rest : List Stmt) : Follows cfg n (.entrances rest) := by
  intro m
  cases rest with
  | nil => exact .reads (by rintro w ⟨⟩) (.pure _)
  | cons s rest =>
    cases s with
    | entrance body loc =>
      refine .congr (fun _ => starts_entrances) (.first n (.block body) rfl fun flow m₁ _ => ?_)
      cases flow with
      | awaken => exact .reads (by simp) (.pure _)
      | normal => exact .congr (by simp) (.visit n (.entrances rest) rfl)
      | snap | sink | jump =>
        exact .congr (by simp) (.look (S := fun _ _ _ => False)
          (.rejectEscape _) fun _ _ hrejected => by cases hrejected)
    | _ =>
      exact .congr (fun _ => starts_entrances_of_ne (by simp)) (.visit n (.entrances rest) rfl)

theorem perform (expr : Option Expr) :
    Exec.Follows cfg v false (fun w => ∃ e, expr = some e ∧ w = ⟨n, .eval e, m⟩) m
      (Exec.perform (Exec.eval cfg n) expr) := by
  cases expr with
  | none => exact .reads (by simp) (.pure _)
  | some e => exact .congr (by simp) (.last n (.eval e) rfl fun _ => .pure _)

theorem rounds (cond next : Option Expr) (stmts : List Stmt) (left : Nat) :
    Follows cfg n (.rounds cond next stmts left) := by
  intro m
  cases left with
  | zero => exact .exhausted rfl (by rintro w ⟨⟩)
  | succ k =>
    refine .congr (fun _ => starts_rounds) (.bind ?_ fun held m₁ _ => ?_)
    · cases cond with
      | none => exact .reads (by simp) (.pure _)
      | some e => exact .congr (by simp) (.last n (.eval e) rfl fun _ => .pure _)
    cases held with
    | false => exact .reads (by simp) (.pure _)
    | true =>
      simp only [true_and]
      refine .first n (.block stmts) rfl fun flow m₂ _ => ?_
      cases flow with
      | normal | sink =>
        exact .congr (by simp) (.bind (perform next) fun _ m₃ _ =>
           .visit n (.rounds cond next stmts k) rfl)
      | snap | jump | awaken => exact .reads (by simp) (.pure _)

theorem only {s : Stmt} {w : Visit} (hfork : s.forks = false) (hw : only? n m s = some w)
    (h : Exec.Follows cfg ⟨n + 1, .exec s, m⟩ true (· = w) m (Exec.exec cfg (n + 1) s)) :
    Exec.Follows cfg ⟨n + 1, .exec s, m⟩ true (Starts cfg ⟨n + 1, .exec s, m⟩) m
      (Exec.exec cfg (n + 1) s) :=
  .congr (fun w' => (starts_exec hfork).trans (by rw [hw, Option.some.injEq, eq_comm])) h

theorem exec (stmt : Stmt) : Follows cfg (n + 1) (.exec stmt) := by
  intro m
  have hnone : ∀ {s : Stmt}, s.forks = false → only? n m s = none →
      ∀ w, ¬Starts cfg ⟨n + 1, .exec s, m⟩ w := by
    intro s hfork hnone w edge
    rw [starts_exec hfork, hnone] at edge
    cases edge
  cases stmt with
  | induce decl => exact only rfl rfl (.last n (.induce decl) rfl fun _ => .pure _)
  | branch cond yes no loc =>
    refine .congr (fun _ => starts_branch) (.first n (.eval cond) rfl fun v m₁ _ => ?_)
    split
    · rename_i hholds
      exact .congr (by simp [hholds]) (.visit n (.block yes) rfl)
    · rename_i hfails
      cases no with
      | none => exact .reads (by simp [hfails]) (.pure _)
      | some no => exact .congr (by simp [hfails]) (.visit n (.block no) rfl)
  | whileLoop cond stmts loc => exact only rfl rfl (.visit n (.rounds (some cond) none stmts n) rfl)
  | loop init cond next stmts loc =>
    cases init with
    | none => exact only rfl rfl (.inFrame (.visit n (.rounds cond next stmts n) rfl))
    | some init =>
      refine .congr (fun _ => starts_loop) (.inFrame (.first n (.exec init) rfl fun flow m₁ _ => ?_))
      cases flow with
      | normal => exact .congr (by simp) (.visit n (.rounds cond next stmts n) rfl)
      | _ => exact .reads (by simp) (.pure _)
  | suggestion | session | tranceify =>
    exact only rfl rfl (.last n (.declare _) rfl fun _ => .pure _)
  | observe expr loc =>
    exact only rfl rfl ((Exec.Follows.visit n (.eval expr) rfl).before fun _ _ =>
      (Changes.writeLine _).bind fun _ _ _ => .pure _)
  | awaken value loc =>
    cases value with
    | none => exact .reads (hnone rfl rfl) (.pure _)
    | some expr => exact only rfl rfl (.last n (.eval expr) rfl fun _ => .pure _)
  | snap | sink | sinkTo => exact .own (hnone rfl rfl) (.makeJump _ _)
  | label => exact .reads (hnone rfl rfl) (.pure _)
  | assert cond message loc =>
    exact only rfl rfl (.congr (by simp) (.first n (.eval cond) rfl fun v m₁ _ =>
      .result (.checkAssertion rfl _ message loc) fun _ => .pure _))
  | entrance stmts loc => exact only rfl rfl (.visit n (.block stmts) rfl)
  | mindLink path loc => exact only rfl rfl (.last n (.link path loc) rfl fun _ => .pure _)
  | expr expr loc => exact only rfl rfl (.last n (.eval expr) rfl fun _ => .pure _)

/-! ### Links and programs -/

theorem merge (rest : List Stmt) : Follows cfg n (.merge rest) := by
  intro m
  cases rest with
  | nil => exact .reads (by rintro w ⟨⟩) (.pure ())
  | cons s rest =>
    refine .congr (fun _ => starts_merge) (.bind (.machine ?_) fun _ m₁ _ =>
      .visit n (.merge rest) rfl)
    simp only
    split
    · rename_i htaken
      refine .reads ?_ (.pure ())
      rintro w (⟨path, loc, rfl, _⟩ | ⟨hfree, _⟩)
      · cases htaken
      · rw [hfree] at htaken
        cases htaken
    rename_i hfree
    cases s with
    | mindLink path loc =>
      exact .congr (by simp [Stmt.isDeclaration]) (.visit n (.link path loc) rfl)
    | induce decl => exact .congr (by simp [hfree, Stmt.isDeclaration]) (.visit n (.induce decl) rfl)
    | suggestion decl =>
      exact .congr (by simp [hfree, Stmt.isDeclaration]) (.visit n (.declare (.suggestion decl)) rfl)
    | session decl =>
      exact .congr (by simp [hfree, Stmt.isDeclaration]) (.visit n (.declare (.session decl)) rfl)
    | tranceify decl =>
      exact .congr (by simp [hfree, Stmt.isDeclaration]) (.visit n (.declare (.tranceify decl)) rfl)
    | _ => exact .reads (by simp [Stmt.isDeclaration]) (.pure ())

theorem link (path : String) (loc : Location) : Follows cfg (n + 1) (.link path loc) := by
  intro m
  refine .congr (fun _ => starts_link) (.machine ?_)
  simp only
  split
  · rename_i hlinked
    refine .reads ?_ (.pure ())
    rintro w ⟨hnew, _⟩
    rw [hlinked] at hnew
    cases hnew
  rename_i hnew
  rw [Bool.not_eq_true] at hnew
  simp only [hnew, true_and]
  refine .update (.link _) rfl ?_
  cases hread : cfg.files.read (Path.join m.baseDir path) with
  | error e => exact .reads (by simp) (.fail _ loc)
  | ok source =>
    simp only [Except.ok.injEq, exists_eq_left']
    cases hparsed : Program.ofText (cfg.files.key (Path.join m.baseDir path)).origin source with
    | error e => exact .reads (by simp) (.fail _ loc)
    | ok p =>
      simp only [Except.ok.injEq, exists_eq_left']
      exact .inDirectory (.visit n (.merge p.statements) rfl)

theorem hoist (rest : List Stmt) : Follows cfg n (.hoist rest) := by
  intro m
  cases rest with
  | nil => exact .reads (by rintro w ⟨⟩) (.pure ())
  | cons s rest =>
    exact .congr (fun _ => starts_hoist) (.first n (.declare s) rfl fun _ m₁ _ =>
      .visit n (.hoist rest) rfl)

theorem follow (rest : List Stmt) : Follows cfg n (.follow rest) := by
  intro m
  cases rest with
  | nil => exact .reads (by rintro w ⟨⟩) (.pure ())
  | cons s rest =>
    refine .congr (fun _ => starts_follow) (.bind ?_ fun _ m₁ _ => .visit n (.follow rest) rfl)
    cases s with
    | mindLink path loc => exact .congr (by simp) (.visit n (.link path loc) rfl)
    | _ => exact .reads (by simp) (.pure ())

theorem program (p : Program) : Follows cfg n (.program p) := by
  refine fun m => .congr (fun _ => starts_program) ?_
  refine .first n (.hoist p.statements) rfl fun _ m₁ _ =>
    .first n (.follow p.statements) rfl fun _ m₂ _ =>
    .first n (.entrances p.statements) rfl fun (flow : Flow) m₃ _ => ?_
  cases flow with
  | awaken => exact .reads (by simp) (.pure ())
  | _ =>
    exact .congr (by simp) (.last n (.main p.statements p.statements n) rfl fun _ =>
      .rejectEscape _)

end Task.Follows

/-- **Every task follows a course, whose visits are those that it starts.** -/
theorem Task.follows (cfg : Settings) (n : Nat) (task : Task) : task.Follows cfg n := by
  cases task with
  | eval expr =>
    cases n with
    | zero => exact fun _ => .exhausted rfl (by rintro w ⟨⟩)
    | succ n => exact .eval expr
  | values exprs => exact .values exprs
  | place loc target => exact .place loc target
  | detached expr =>
    exact fun _ => .congr (fun _ => starts_detached) (.inFrame (.visit n (.eval expr) rfl))
  | record typeName given loc => exact .record typeName given loc
  | fields given rest => exact .fields given rest
  | default typeName loc => exact .default typeName loc
  | statics object rest => exact .statics object rest
  | members loc object rest => exact .members loc object rest
  | instantiate name args loc => exact .instantiate name args loc
  | call decl args receiver loc =>
    cases n with
    | zero => exact fun _ => .exhausted rfl (by rintro w ⟨⟩)
    | succ n => exact .call decl args receiver loc
  | body decl args receiver => exact .body decl args receiver
  | exec stmt =>
    cases n with
    | zero => exact fun _ => .exhausted rfl (by rintro w ⟨⟩)
    | succ n => exact .exec stmt
  | declare stmt => exact .declare stmt
  | induce decl => exact .induce decl
  | block stmts =>
    exact fun _ => .congr (fun _ => starts_block) (.inFrame (.visit n (.list stmts stmts n) rfl))
  | list all rest left => exact .list all rest left
  | rounds cond next stmts left => exact .rounds cond next stmts left
  | link path loc =>
    cases n with
    | zero => exact fun _ => .exhausted rfl (by rintro w ⟨⟩)
    | succ n => exact .link path loc
  | merge rest => exact .merge rest
  | program p => exact .program p
  | hoist rest => exact .hoist rest
  | follow rest => exact .follow rest
  | entrances rest => exact .entrances rest
  | main all rest left => exact .main all rest left

/-! ## Every task of a run

A task changes the machine by its own changes and by the visits that it starts. So from the inside
out, every task takes every machine only where it can evolve to. -/

theorem Visit.Declares.of_starts {cfg : Settings} {w : Visit} {s : Stmt} {m' : Machine}
    (h : w.Declares cfg s m') (edge : Starts cfg v w) : v.Declares cfg s m' := by
  obtain ⟨n, m, hreaches, hdone⟩ := h
  exact ⟨n, m, .head edge hreaches, hdone⟩

def Task.Develops (cfg : Settings) (n : Nat) (task : Task) : Prop :=
  ∀ m, Exec.Develops (Declares cfg ⟨n, task, m⟩) task.binds m (task.step cfg n)

theorem Course.evolves {cfg : Settings} {D : Stmt → Machine → Prop} {b : Bool} {m : Machine}
    {visits : List Visit} {end? : Option Machine} (h : Course cfg v b m visits end?)
    (hv : ∀ s m, v.Declares cfg s m → D s m)
    (hvisits : ∀ w ∈ visits, Develops D w.task.binds w.machine (w.task.step cfg w.bound))
    {m' : Machine} (hend : end? = some m') : m.Evolves D b m' := by
  induction h generalizing m' with
  | own changes _ =>
    cases hend
    exact changes.mono hv
  | cut => cases hend
  | visit binds =>
    exact (hvisits _ (List.mem_singleton.2 rfl) m' hend).weaken (fun _ _ h => h) (by simp_all)
  | trans _ _ ih ih' =>
    obtain ⟨hfirst, hsecond⟩ := List.forall_mem_append.1 hvisits
    exact (ih hfirst rfl).trans (ih' hsecond hend)
  | inFrame _ ih =>
    obtain ⟨m₁, rfl, rfl⟩ := Option.map_eq_some_iff.1 hend
    exact .inFrame (ih hvisits rfl)
  | deeper _ _ ih =>
    obtain ⟨m₁, rfl, rfl⟩ := Option.map_eq_some_iff.1 hend
    exact .deeper (ih hvisits rfl)
  | inDirectory _ ih =>
    obtain ⟨m₁, rfl, rfl⟩ := Option.map_eq_some_iff.1 hend
    exact .inDirectory (ih hvisits rfl)

/-- **Every task takes every machine only where it can evolve to.** -/
theorem Task.develops (cfg : Settings) (n : Nat) (task : Task) : task.Develops cfg n := by
  suffices h : ∀ v : Visit,
      Exec.Develops (v.Declares cfg) v.task.binds v.machine (v.task.step cfg v.bound) from
    fun m => h ⟨n, task, m⟩
  refine Visit.induction cfg fun v ih m' hm' => ?_
  obtain ⟨visits, hvisits, hcourse⟩ := Task.follows cfg v.bound v.task v.machine
  refine hcourse.evolves (fun _ _ hs => hs) (fun w hw => ?_) hm'
  have edge := (hvisits w).2 hw
  exact (ih w edge).mono fun _ _ hs => hs.of_starts edge

end Trance
