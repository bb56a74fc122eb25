import Trance.Proofs.Running.Custody

/-!
# Programs without loops

Without loops and jumps to labels, statements are run through once, and all that a run can come back
to is what it calls. Every call is one deeper than what makes it, a new session builds its fields
one call deeper too, and the depth of calls is limited. So a program without loops comes to an end,
whatever its suggestions, constructors and fields call.

There is one way around the limit: the fields of a record start with expressions that are evaluated
without going deeper. If such an expression makes a record, a record type can start from itself
without end.

The end may be that the run breaks off: an assignment to a place inside of a field holds the object
that has the field, and on the way to the place it can meet this object.

A visit that is cut short is spent, or starts a visit that is cut short. Each visit is given a
number, which becomes smaller whenever the bound does, as long as nothing goes deeper. So a visit is
not cut short if its bound is greater than this number and the numbers of all the depths that are
left. -/

namespace Trance

open List

/-! ## Code without loops -/

mutual

/-- Whether an expression makes no record, but for what it calls. -/
def Expr.isRecordFree : Expr → Bool
  | .number .. | .text .. | .boolean .. | .name .. => true
  | .binary _ left right _ => left.isRecordFree && right.isRecordFree
  | .unary _ operand _ => operand.isRecordFree
  | .call callee args _ => callee.isRecordFree && areRecordFree args
  | .field object _ _ => object.isRecordFree
  | .index object position _ => object.isRecordFree && position.isRecordFree
  | .assign target value _ => target.isRecordFree && value.isRecordFree
  | .record .. => false
  | .array items _ => areRecordFree items

def areRecordFree : List Expr → Bool
  | [] => true
  | first :: rest => first.isRecordFree && areRecordFree rest

end

theorem areRecordFree_iff {es : List Expr} : areRecordFree es = true ↔
    ∀ e ∈ es, e.isRecordFree = true := by
  induction es with
  | nil => simp [areRecordFree]
  | cons first rest ih => simp [areRecordFree, ih]

theorem Expr.isRecordFree_child {e : Expr} (h : e.isRecordFree = true) :
    ∀ child ∈ e.children, child.isRecordFree = true := by
  cases e with
  | record => exact nomatch h
  | _ => simp_all [isRecordFree, children, areRecordFree_iff]

def Start.isRecordFree : Start → Bool
  | .value e => e.isRecordFree
  | .unset | .external => true

/-- Whether a statement leads to nothing twice: it is no loop, no jump to a label and no link, and
no declaration of a record type whose fields start with records. -/
def Stmt.isLoopFree : Stmt → Bool
  | .whileLoop .. | .loop .. | .sinkTo .. | .mindLink .. => false
  | .tranceify decl => decl.members.all fun member => member.start.isRecordFree
  | _ => true

/-! ## What is cut short -/

section

variable {cfg : Settings}

theorem Course.spent_or_mem {v : Visit} {b : Bool} {m : Machine} {visits : List Visit}
    {end? : Option Machine} (h : Course cfg v b m visits end?) (hend : end? = none) :
    v.Spent ∨ ∃ w ∈ visits, (w.task.step cfg w.bound w.machine).machine? = none := by
  induction h with
  | own => cases hend
  | cut spent => exact .inl spent
  | visit => exact .inr ⟨_, mem_singleton_self _, hend⟩
  | trans _ _ _ ih' =>
    refine (ih' hend).imp_right ?_
    rintro ⟨w, hw, hcut⟩
    exact ⟨w, mem_append_right _ hw, hcut⟩
  | inFrame _ ih | deeper _ _ ih | inDirectory _ ih => exact ih (Option.map_eq_none_iff.1 hend)

theorem Visit.spent_or_starts {v : Visit} (h : (v.task.step cfg v.bound v.machine).machine? = none) :
    v.Spent ∨ ∃ w, Visit.Starts cfg v w ∧ (w.task.step cfg w.bound w.machine).machine? = none := by
  obtain ⟨visits, hvisits, hcourse⟩ := Task.follows cfg v.bound v.task v.machine
  refine (hcourse.spent_or_mem h).imp_right ?_
  rintro ⟨w, hw, hcut⟩
  exact ⟨w, (hvisits w).2 hw, hcut⟩

end

theorem Machine.Precedes.le_depth {limit : Nat} {m m' : Machine} (h : m.Precedes limit m') :
    m.depth ≤ m'.depth := by
  induction h with
  | evolves h => exact h.inPlace.depth.ge
  | trans _ _ ih ih' => exact ih.trans ih'
  | frame | directory => exact Nat.le_refl _
  | deeper => exact Nat.le_succ _

/-! ## Statements that do not jump -/

namespace Exec

def Calm (x : Exec Flow) : Prop := ∀ m label loc m', x m ≠ .done (.jump label loc) m'

namespace Calm

variable {α : Type} {exec : Stmt → Exec Flow} {rest : List Stmt}

theorem pure {flow : Flow} (h : ∀ label loc, flow ≠ .jump label loc) : Calm (Pure.pure flow) := by
  rintro m label loc m' ⟨⟩
  exact h label loc rfl

theorem bind {x : Exec α} {f : α → Exec Flow} (h : ∀ a, Calm (f a)) : Calm (x >>= f) := by
  intro m label loc m' hdone
  obtain ⟨a, m₁, -, hf⟩ := bind_eq_done hdone
  exact h a m₁ label loc m' hf

theorem sequence (h : ∀ s ∈ rest, Calm (exec s)) (all : List Stmt) (left : Nat) :
    Calm (Exec.sequence exec all left rest) := by
  induction left generalizing rest with
  | zero => rintro m label loc m' ⟨⟩
  | succ left ih =>
    cases rest with
    | nil => exact pure nofun
    | cons s rest =>
      obtain ⟨hs, hrest⟩ := forall_mem_cons.1 h
      intro m label loc m' hdone
      obtain ⟨flow, m₁, hrun, hnext⟩ := bind_eq_done hdone
      cases flow with
      | normal => exact ih hrest m₁ label loc m' hnext
      | jump label' loc' => exact hs m label' loc' m₁ hrun
      | snap | sink | awaken => cases hnext

theorem block (h : ∀ s ∈ rest, Calm (exec s)) (bound : Nat) : Calm (Exec.block exec bound rest) := by
  intro m label loc m' hdone
  simp only [Exec.block, inFrame, between] at hdone
  split at hdone
  · rename_i flow m₁ hrun
    obtain ⟨rfl, -⟩ := Outcome.done.inj hdone
    exact sequence h rest bound _ label loc m₁ hrun
  · cases hdone
  · cases hdone

end Calm

theorem calm_exec {p : Program} (h : ∀ part ∈ p.parts, part.isLoopFree = true) (cfg : Settings)
    (n : Nat) {s : Stmt} (hs : s ∈ p.parts) : Calm (exec cfg n s) := by
  induction s using Stmt.induction_children generalizing n with
  | h s ih =>
    cases n with
    | zero => rintro m label loc m' ⟨⟩
    | succ n =>
      have hchild : ∀ child ∈ s.children, Calm (exec cfg n child) :=
        fun child hchild => ih child hchild n (mem_listParts_of_child hs hchild)
      have hfree := h s hs
      cases s with
      | branch cond yes no loc =>
        obtain ⟨hyes, hno⟩ := forall_mem_append.1 hchild
        refine .bind fun v => ?_
        split
        · exact .block hyes n
        · cases no with
          | none => exact .pure nofun
          | some no => exact .block hno n
      | entrance => exact .block hchild n
      | label => exact .pure nofun
      | snap | sink => exact .bind fun _ => .pure nofun
      | awaken expr =>
        cases expr with
        | none => exact .pure nofun
        | some => exact .bind fun _ => .pure nofun
      | observe | assert => exact .bind fun _ => .bind fun _ => .pure nofun
      | induce | suggestion | session | tranceify | expr => exact .bind fun _ => .pure nofun
      | whileLoop | loop | sinkTo | mindLink => cases hfree

theorem calm_mainStmt {p : Program} (h : ∀ part ∈ p.parts, part.isLoopFree = true) (cfg : Settings)
    (n : Nat) {s : Stmt} (hs : s ∈ p.parts) : Calm (mainStmt (exec cfg n) s) := by
  unfold mainStmt
  split
  · exact .pure nofun
  · exact calm_exec h cfg n hs

end Exec

/-! ## How much is left -/

/-- The size of an expression. If it makes a record, what the fields of the record start with comes
on top. -/
noncomputable def Expr.weight (size : Nat) (e : Expr) :
    Nat := sizeOf e + if e.isRecordFree then 0 else size

theorem Expr.weight_pos (size : Nat) (e : Expr) : 0 < e.weight size := by
  have hpos : 0 < sizeOf e := by cases e <;> simp +arith
  exact Nat.add_pos_left hpos _

theorem Expr.weight_child {size : Nat} {e child : Expr} (h : child ∈ e.children) :
    child.weight size < e.weight size := by
  have hlt := Expr.sizeOf_lt_of_mem_children h
  unfold weight
  cases hfree : e.isRecordFree with
  | true =>
    rw [Expr.isRecordFree_child hfree child h]
    exact Nat.add_lt_add_right hlt _
  | false =>
    split
    · simp only [Bool.false_eq_true, if_false]
      omega
    · exact Nat.add_lt_add_right hlt _

/-- The sizes of the statements, bodies and expressions of a program are limited. -/
structure Program.Limited (p : Program) (size : Nat) : Prop where
  main : p.statements.length ≤ size
  stmt : ∀ s ∈ p.parts, sizeOf s ≤ size
  inside : ∀ s ∈ p.parts, s.children.length ≤ size
  expr : ∀ s ∈ p.parts, ∀ e ∈ exprParts s.exprs, sizeOf e ≤ size

theorem exists_forall_le {α : Type} (f : α → Nat) (xs : List α) : ∃ size, ∀ x ∈ xs, f x ≤ size := by
  induction xs with
  | nil => exact ⟨0, forall_mem_nil _⟩
  | cons x xs ih =>
    obtain ⟨size, hsize⟩ := ih
    refine ⟨f x + size, forall_mem_cons.2 ⟨Nat.le_add_right _ _, fun y hy => ?_⟩⟩
    exact (hsize y hy).trans (Nat.le_add_left _ _)

theorem Program.exists_limited (p : Program) : ∃ size, p.Limited size := by
  obtain ⟨a, ha⟩ := exists_forall_le (fun s => sizeOf s + s.children.length) p.parts
  obtain ⟨b, hb⟩ := exists_forall_le sizeOf (p.parts.flatMap fun s => exprParts s.exprs)
  refine ⟨p.statements.length + a + b, by omega, fun s hs => ?_, fun s hs => ?_, fun s hs e he => ?_⟩
  · have := ha s hs
    omega
  · have := ha s hs
    omega
  · have := hb e (mem_flatMap.2 ⟨s, hs, he⟩)
    omega

/-- How often the bound can become smaller below a task before a call goes deeper: not more than
`left` times. -/
def Task.Fits (size left : Nat) : Task → Prop
  | .eval e | .place _ e | .detached e => e.weight size ≤ left
  | .values exprs => ∀ e ∈ exprs, e.weight size ≤ left
  | .record _ given _ => size ≤ left ∧ ∀ field ∈ given, field.2.weight size ≤ left
  | .fields given rest => (∀ field ∈ given, field.2.weight size ≤ left) ∧
      ∀ member ∈ rest, ∀ e, member.start = .value e → e.weight size ≤ left
  | .default .. => size ≤ left
  | .statics .. | .members .. | .declare _ | .induce _ | .hoist _ => 2 * size ≤ left
  | .instantiate .. | .call .. | .follow _ => True
  | .exec s => sizeOf s + 2 * size ≤ left
  | .block rest => rest.length ≤ left ∧ ∀ s ∈ rest, sizeOf s + 2 * size ≤ left
  | .list _ rest turns | .main _ rest turns =>
    rest.length < turns ∧ ∀ s ∈ rest, sizeOf s + 2 * size ≤ left
  | .entrances rest => ∀ s ∈ rest, sizeOf s + 2 * size ≤ left
  | .body .. => 3 * size ≤ left
  | .program p => 3 * size ≤ left ∧ p.statements.length ≤ size
  | .rounds .. | .link .. | .merge _ => False

/-- What a visit that has `left` left starts: with the same bound as much is left, with a smaller
bound less is left, or it is one call deeper. -/
inductive Visit.Narrows (limit size left : Nat) (v w : Visit) : Prop where
  | same (bound : w.bound = v.bound) (fits : w.task.Fits size left)
  | less {rest : Nat} (bound : v.bound = w.bound + 1) (lt : rest < left)
      (fits : w.task.Fits size rest)
  | deeper (allowed : v.machine.depth < limit) (depth : w.machine.depth = v.machine.depth + 1)
      (bound : v.bound ≤ w.bound + 1) (fits : w.task.Fits size (3 * size))

section

variable {cfg : Settings} {p : Program} {limit size left n : Nat} {m m' : Machine}

theorem Stmt.isLink_of_isLoopFree {s : Stmt} (h : s.isLoopFree = true) : s.isLink = false := by
  cases s with
  | mindLink => cases h
  | _ => rfl

/-- A program without loops as its own sources. It links nothing. -/
def Program.loopFreeSources (files : Store) (p : Program)
    (h : ∀ part ∈ p.parts, part.isLoopFree = true) :
    Sources files :=
  p.ownSources files fun s hs => s.isLink_of_isLoopFree (h s hs)

variable {h : ∀ part ∈ p.parts, part.isLoopFree = true} {linked : List FileKey}

namespace Program.Limited

theorem weight_le (hp : p.Limited size) {e : Expr}
    (he : (p.loopFreeSources cfg.files h).HasExpr linked e) : e.weight size ≤ 2 * size := by
  obtain ⟨s, hs, he⟩ := he
  have hsize := hp.expr s hs e he
  unfold Expr.weight
  split <;> omega

theorem start_le (hp : p.Limited size) (h : ∀ part ∈ p.parts, part.isLoopFree = true)
    {decl : Tranceify}
    (hdecl : .tranceify decl ∈ p.parts) {member : Variable} (hmember : member ∈ decl.members)
    {e : Expr} (hstart : member.start = .value e) : e.weight size ≤ size := by
  have hstarts := all_eq_true.1 (h _ hdecl) member hmember
  rw [hstart] at hstarts
  have hfree : e.isRecordFree = true := hstarts
  have hexpr : (p.loopFreeSources .empty h).HasExpr [] e :=
    Sources.hasExpr_member hdecl hmember hstart
  obtain ⟨s, hs, he⟩ := hexpr
  rw [Expr.weight, if_pos hfree]
  exact hp.expr s hs e he

theorem body_le (hp : p.Limited size) {decl : Suggestion}
    (hdecl : (p.loopFreeSources cfg.files h).Callable linked decl) : decl.body.length ≤ size := by
  obtain hfree | ⟨session, member, hsession, hmember, hmethod⟩ := hdecl
  · exact hp.inside _ hfree
  · refine le_trans (List.Sublist.length_le ?_) (hp.inside _ hsession)
    refine sublist_flatten_of_mem (mem_map.2 ⟨member, hmember, ?_⟩)
    rw [MemberOf.body, hmethod]

theorem exec_fits (hp : p.Limited size) {s : Stmt} (hs : s ∈ p.parts) (hleft : 3 * size ≤ left) :
    sizeOf s + 2 * size ≤ left := by
  have hsize := hp.stmt s hs
  omega

theorem block_fits (hp : p.Limited size) {s : Stmt} (hs : s ∈ p.parts) {body : List Stmt}
    (hbody : body.Sublist s.children) (hfits : sizeOf s + 2 * size ≤ left + 1) :
    Task.Fits size left (.block body) := by
  have hlength := hbody.length_le.trans (hp.inside s hs)
  have hpos : 0 < sizeOf s := by cases s <;> simp +arith
  refine ⟨by omega, fun child hchild => ?_⟩
  have hlt := Stmt.sizeOf_lt_of_mem_children (hbody.subset hchild)
  omega

end Program.Limited

namespace Visit.Narrows

theorem child {e child : Expr} (hchild : child ∈ e.children) (hfits : e.weight size ≤ left) :
    Narrows limit size left ⟨n + 1, .eval e, m⟩ ⟨n, .eval child, m'⟩ :=
  .less rfl ((Expr.weight_child hchild).trans_le hfits) (Nat.le_refl _)

theorem inside {e : Expr} {task : Task} (hfits : e.weight size ≤ left)
    (htask : (∀ child ∈ e.children, child.weight size ≤ left - 1) → task.Fits size (left - 1)) :
    Narrows limit size left ⟨n + 1, .eval e, m⟩ ⟨n, task, m'⟩ := by
  have hpos := Expr.weight_pos size e
  refine .less rfl (by omega) (htask fun child hchild => ?_)
  have hlt : child.weight size < e.weight size := Expr.weight_child hchild
  omega

theorem part {s : Stmt} {task : Task} (hfits : sizeOf s + 2 * size ≤ left)
    (htask : sizeOf s + 2 * size ≤ left - 1 + 1 → 2 * size ≤ left - 1 → task.Fits size (left - 1)) :
    Narrows limit size left ⟨n + 1, .exec s, m⟩ ⟨n, task, m'⟩ := by
  have hpos : 0 < sizeOf s := by cases s <;> simp +arith
  exact .less rfl (by omega) (htask (by omega) (by omega))

end Visit.Narrows

variable {v : Visit}

/-- **What is started fits into what is left**, or is one call deeper. -/
theorem Visit.Starts.narrows {w : Visit} (edge : Visit.Starts cfg v w) (hp : p.Limited size)
    (hv : v.Sourced (p.loopFreeSources cfg.files h)) (hleft : left < v.bound)
    (hfits : v.task.Fits size left) : v.Narrows cfg.maxDepth size left w := by
  have hw := (edge.descends hv).toSourced.task
  cases edge with
  -- expressions
  | first | second | operand | callee | object | indexed | index | assigned =>
    exact .child (by simp [Expr.children]) hfits
  | receiver =>
    refine .inside hfits fun hparts => ?_
    exact (Expr.weight_child (mem_singleton_self _)).le.trans (hparts _ mem_cons_self)
  | memberArgs | builtinArgs | nameArgs | sessionArgs | valueArgs =>
    exact .inside hfits fun hparts e he => hparts e (mem_cons_of_mem _ he)
  | methodCall | fieldCall | nameCall | sessionCall | valueCall =>
    exact .inside hfits fun _ => trivial
  | target => exact .inside hfits fun hparts => hparts _ mem_cons_self
  | @literal n typeName given loc m =>
    refine .inside hfits fun hparts => ⟨?_, fun field hfield => hparts _ (mem_map_of_mem hfield)⟩
    have hpos : 0 < sizeOf (Expr.record typeName given loc) := by simp +arith
    have hweight : sizeOf (Expr.record typeName given loc) + size ≤ left := hfits
    omega
  | items => exact .inside hfits fun hparts => hparts
  | value => exact .same rfl (hfits _ mem_cons_self)
  | moreValues => exact .same rfl fun e he => hfits e (mem_cons_of_mem _ he)
  | placeObject | placeInside | placeIndex | placeIndexed =>
    exact .same rfl ((Expr.weight_child (by simp [Expr.children])).le.trans hfits)
  | detached | moreStatics | moreMembers | staticMembers | hoisted | moreHoisted =>
    exact .same rfl hfits
  -- records
  | recordFields found =>
    refine .same rfl ⟨hfits.2, fun member hmember e hstart => ?_⟩
    exact (hp.start_le h (hv.sound.records _ _ found).2 hmember hstart).trans hfits.1
  | fieldGiven found => exact .same rfl (hfits.1 _ (Table.mem_of_find? found))
  | fieldStart _ start => exact .same rfl (hfits.2 _ mem_cons_self _ start)
  | moreFields =>
    exact .same rfl ⟨hfits.1, fun member hmember => hfits.2 member (mem_cons_of_mem _ hmember)⟩
  | defaultRecord => exact .same rfl ⟨hfits, forall_mem_nil _⟩
  -- sessions
  | staticStart | memberStart | induceValue => exact .same rfl ((hp.weight_le hw).trans hfits)
  | memberDefault | induceDefault =>
    exact .same rfl ((Nat.le_mul_of_pos_left size Nat.two_pos).trans hfits)
  | build _ allowed =>
    obtain ⟨rfl, hdepth⟩ := Exec.depth_lt_of_requireDepth allowed
    exact .deeper hdepth rfl (Nat.le_succ _) (Nat.mul_le_mul_right size (by decide))
  | construct | following | moreFollowed => exact .same rfl trivial
  -- calls
  | called _ allowed =>
    obtain ⟨rfl, hdepth⟩ := Exec.depth_lt_of_requireDepth allowed
    exact .deeper hdepth rfl (Nat.le_refl _) (Nat.le_refl _)
  | bodyList =>
    have hlength := hp.body_le hv.task.1
    have hle : 3 * size ≤ left := hfits
    refine .same rfl ⟨lt_of_le_of_lt ?_ hleft, fun s hs => hp.exec_fits (hv.task.1.body s hs) hfits⟩
    omega
  -- statements
  | induced | declared => exact .part hfits fun _ hle => hle
  | cond | observed | awakened | asserted | performed =>
    exact .part hfits fun _ hle => (hp.weight_le hw).trans hle
  | yes => exact .part hfits fun hle _ => hp.block_fits hv.task (sublist_append_left _ _) hle
  | no => exact .part hfits fun hle _ => hp.block_fits hv.task (sublist_append_right _ _) hle
  | entrance => exact .part hfits fun hle _ => hp.block_fits hv.task (.refl _) hle
  | whileLoop | loop | loopStart | loopStarted | linked => cases h _ hv.task
  -- lists
  | block => exact .same rfl ⟨hfits.1.trans_lt hleft, hfits.2⟩
  | head | mainHead => exact .same rfl (hfits.2 _ mem_cons_self)
  | next | mainNext =>
    exact .same rfl ⟨Nat.lt_of_succ_lt_succ hfits.1, fun s hs => hfits.2 s (mem_cons_of_mem _ hs)⟩
  | jumped done =>
    exact absurd done (Exec.calm_exec h cfg _ (hv.task.2 _ mem_cons_self) _ _ _ _)
  | mainJumped done =>
    exact absurd done (Exec.calm_mainStmt h cfg _ (hv.task.2 _ mem_cons_self) _ _ _ _)
  | roundCond | roundBody | roundStep | again | linkedFile => exact hfits.elim
  | mergeLink | mergeVariable | mergeDeclaration | moreMerged => exact hfits.elim
  -- the phases of a program
  | hoisting => exact .same rfl ((Nat.mul_le_mul_right size (by decide)).trans hfits.1)
  | followed => cases h _ (hv.task _ mem_cons_self)
  | entering => exact .same rfl fun s hs => hp.exec_fits (hv.task s hs) hfits.1
  | starting =>
    have hle := hfits.1
    have hlength := hfits.2
    refine .same rfl ⟨lt_of_le_of_lt ?_ hleft, fun s hs => hp.exec_fits (hv.task s hs) hfits.1⟩
    omega
  | entered =>
    refine .same rfl (hp.block_fits (hv.task _ mem_cons_self) (.refl _) ?_)
    exact (hfits _ mem_cons_self).trans (Nat.le_succ _)
  | moreEntered | passed => exact .same rfl fun s hs => hfits s (mem_cons_of_mem _ hs)

theorem Visit.Spent.not_fits (hspent : v.Spent) (hleft : left < v.bound) :
    ¬ v.task.Fits size left := by
  obtain ⟨bound, task, m⟩ := v
  cases task with
  | eval | exec | call | link =>
    obtain rfl : bound = 0 := hspent
    exact absurd hleft (Nat.not_lt_zero _)
  | list _ _ turns | main _ _ turns =>
    obtain rfl : turns = 0 := hspent
    exact fun hfits => Nat.not_lt_zero _ hfits.1
  | rounds => exact id
  | _ => exact hspent.elim

/-- A visit that fits into its bound is not cut short. The bound has room for what is left, and for
everything at the depths that are left. -/
theorem Visit.ends_of_fits (hp : p.Limited size)
    (hv : v.Sourced (p.loopFreeSources cfg.files h)) (hfits : v.task.Fits size left)
    (hbound : (cfg.maxDepth - v.machine.depth) * (3 * size + 2) + left < v.bound) :
    (v.task.step cfg v.bound v.machine).machine? ≠ none := by
  induction v using Visit.induction cfg generalizing left with
  | h v ih =>
    intro hcut
    have hleft : left < v.bound := by omega
    obtain hspent | ⟨w, edge, hcut⟩ := Visit.spent_or_starts hcut
    · exact hspent.not_fits hleft hfits
    have hw := (edge.descends hv).toSourced
    have hdepth := (Visit.precedes_of_reaches (.single edge)).le_depth
    have hroom := Nat.mul_le_mul_right (3 * size + 2) (Nat.sub_le_sub_left hdepth cfg.maxDepth)
    cases edge.narrows hp hv hleft hfits with
    | same bound fits | less bound lt fits => exact ih w edge hw fits (by omega) hcut
    | deeper allowed depth bound fits =>
      refine ih w edge hw fits ?_ hcut
      have hsucc : cfg.maxDepth - v.machine.depth = cfg.maxDepth - w.machine.depth + 1 := by omega
      rw [hsucc, Nat.succ_mul] at hbound
      omega

end

/-- A suggestion that makes a session, one of whose fields starts with a call of the suggestion. -/
def Program.intertwined : Program :=
  ⟨[.suggestion ⟨"f", [], none, [.awaken (some (.call (.name "S" ⟨1, 27⟩) [] ⟨1, 28⟩)) ⟨1, 20⟩],
    false, false,
      ⟨1, 7⟩, .main⟩,
    .session ⟨"S", [⟨.field ⟨"x", none, .value (.call (.name "f" ⟨2, 24⟩) [] ⟨2, 25⟩), ⟨2, 20⟩⟩,
      true, false⟩], ⟨2, 1⟩⟩,
    .observe (.call (.name "f" ⟨3, 9⟩) [] ⟨3, 10⟩) ⟨3, 1⟩]⟩

/-- A session has itself in a field, and an item of this field is assigned to. -/
def Program.entangled : Program :=
  ⟨[.session ⟨"S", [⟨.field ⟨"me", none, .unset, ⟨1, 26⟩⟩, true, false⟩], ⟨1, 7⟩⟩,
    .induce ⟨"s", none, .value (.call (.name "S" ⟨1, 50⟩) [] ⟨1, 51⟩), ⟨1, 39⟩⟩,
    .expr (.assign (.field (.name "s" ⟨1, 55⟩) "me" ⟨1, 56⟩) (.name "s" ⟨1, 62⟩) ⟨1, 60⟩) ⟨1, 55⟩,
    .expr (.assign (.index (.field (.name "s" ⟨1, 65⟩) "me" ⟨1, 66⟩) (.boolean true ⟨1, 70⟩) ⟨1, 69⟩)
      (.boolean true ⟨1, 78⟩) ⟨1, 76⟩) ⟨1, 65⟩]⟩

end Trance
