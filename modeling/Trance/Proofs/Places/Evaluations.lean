import Trance.Proofs.Running.Course
import Trance.Proofs.Running.Ending

/-!
# What an assignment evaluates in its target

The target of an assignment is a chain of accesses. To find the place that it stands for, the chain
is walked from its end: at an index the index is evaluated, and at a field the whole chain before
it, to see whether it is a session. If it is one, the walk ends there; if not, the same chain is
walked on. So what stands in the chain is evaluated again for each field behind it, and the place is
the one that the last evaluations select. -/

namespace Trance

open List

/-! ## Chains -/

/-- A chain of accesses to fields and items, from a name or from a call. -/
inductive Expr.Chain : Expr → Prop where
  | name (x : String) (loc : Location) : Chain (.name x loc)
  | call (callee : Expr) (args : List Expr) (loc : Location) : Chain (.call callee args loc)
  | field {object : Expr} (h : Chain object) (member : String) (loc : Location) :
      Chain (.field object member loc)
  | index {object : Expr} (h : Chain object) (index : Expr) (loc : Location) :
      Chain (.index object index loc)

namespace Expr

/-- The parts of a chain that are evaluated for themselves: an index goes by the number of its
access, and a call, from which the chain starts, by zero. -/
def part? (j : Nat) : Expr → Option Expr
  | .field object _ _ => object.part? j
  | .index object e _ => if j = object.accesses + 1 then some e else object.part? j
  | .call callee args loc => if j = 0 then some (.call callee args loc) else none
  | _ => none

/-- The numbers of the parts, in the order in which the value of the chain evaluates them. -/
def parts : Expr → List Nat
  | .field object _ _ => object.parts
  | .index object _ _ => object.parts ++ [object.accesses + 1]
  | .call .. => [0]
  | _ => []

/-- The numbers of the accesses to fields. -/
def fields : Expr → List Nat
  | .field object _ _ => object.fields ++ [object.accesses + 1]
  | .index object _ _ => object.fields
  | _ => []

/-- The numbers of the parts, in the order in which a walk evaluates them that ends at an access to
a field of a session, or else at the name where the chain starts. -/
def visited (kept : Nat) : Expr → List Nat
  | .field object _ _ =>
    object.parts ++ if object.accesses + 1 = kept then [] else object.visited kept
  | .index object _ _ => (object.accesses + 1) :: object.visited kept
  | _ => []

/-- An expression is a chain, or the object of an access in it. -/
inductive Begins (e : Expr) : Expr → Prop where
  | refl : Begins e e
  | field {object : Expr} (h : Begins e object) (member : String) (loc : Location) :
      Begins e (.field object member loc)
  | index {object : Expr} (h : Begins e object) (index : Expr) (loc : Location) :
      Begins e (.index object index loc)

variable {t : Expr} {j kept : Nat}

theorem le_accesses_of_mem_parts (h : t.Chain) (hj : j ∈ t.parts) : j ≤ t.accesses := by
  induction h with
  | name => cases hj
  | call => exact Nat.le_of_eq (mem_singleton.1 hj)
  | field _ _ _ ih => exact Nat.le_succ_of_le (ih hj)
  | index _ _ _ ih =>
    obtain hj | hj := mem_append.1 hj
    · exact Nat.le_succ_of_le (ih hj)
    · exact Nat.le_of_eq (mem_singleton.1 hj)

theorem le_accesses_of_mem_visited (h : t.Chain) (hj : j ∈ t.visited kept) : j ≤ t.accesses := by
  induction h with
  | name | call => cases hj
  | field h _ _ ih =>
    obtain hj | hj := mem_append.1 hj
    · exact Nat.le_succ_of_le (le_accesses_of_mem_parts h hj)
    · split at hj
      · cases hj
      · exact Nat.le_succ_of_le (ih hj)
  | index _ _ _ ih =>
    obtain rfl | hj := mem_cons.1 hj
    · exact Nat.le_refl _
    · exact Nat.le_succ_of_le (ih hj)

theorem le_accesses_of_mem_fields (h : t.Chain) (hj : j ∈ t.fields) : j ≤ t.accesses := by
  induction h with
  | name | call => cases hj
  | field _ _ _ ih =>
    obtain hj | hj := mem_append.1 hj
    · exact Nat.le_succ_of_le (ih hj)
    · exact Nat.le_of_eq (mem_singleton.1 hj)
  | index _ _ _ ih => exact Nat.le_succ_of_le (ih hj)

theorem le_accesses_of_part? (h : t.Chain) {e : Expr} (hj : t.part? j = some e) :
    j ≤ t.accesses := by
  induction h with
  | name => cases hj
  | call =>
    simp only [part?] at hj
    split at hj
    · exact Nat.le_of_eq ‹_›
    · cases hj
  | field _ _ _ ih => exact Nat.le_succ_of_le (ih hj)
  | index _ _ _ ih =>
    simp only [part?] at hj
    split at hj
    · exact Nat.le_of_eq ‹_›
    · exact Nat.le_succ_of_le (ih hj)

theorem count_parts (h : t.Chain) (hj : j ∈ t.parts) : t.parts.count j = 1 := by
  induction h with
  | name => cases hj
  | call => rw [mem_singleton.1 hj]; rfl
  | field _ _ _ ih => exact ih hj
  | @index object h _ _ ih =>
    rw [parts, count_append]
    obtain hj | hj := mem_append.1 hj
    · have hne : object.accesses + 1 ≠ j := by
        have := le_accesses_of_mem_parts h hj
        omega
      rw [ih hj, count_singleton, if_neg (by simpa using hne)]
    · obtain rfl := mem_singleton.1 hj
      have hnew : object.accesses + 1 ∉ object.parts := fun hmem => by
        have := le_accesses_of_mem_parts h hmem
        omega
      rw [count_eq_zero_of_not_mem hnew, count_singleton_self]

end Expr

/-! ## Evaluations in a row -/

/-- An evaluation of a part of a chain, with its result. -/
structure Evaluation where
  part : Nat
  bound : Nat
  expr : Expr
  before : Machine
  value : Value
  after : Machine

namespace Evaluation

def visit (evaluation : Evaluation) : Visit :=
  ⟨evaluation.bound, .eval evaluation.expr, evaluation.before⟩

/-- The last evaluation of a part in a log. -/
def last? (log : List Evaluation) (part : Nat) : Option Evaluation :=
  log.reverse.find? (·.part == part)

theorem last?_append_of_some {log : List Evaluation} {part : Nat} {evaluation : Evaluation}
    (h : last? log part = some evaluation) (first : List Evaluation) :
    last? (first ++ log) part = some evaluation := by
  rw [last?, reverse_append, List.find?_append, ← last?, h]
  rfl

theorem last?_cons_of_notMem {log : List Evaluation} (evaluation : Evaluation)
    (h : evaluation.part ∉ log.map part) :
    last? (evaluation :: log) evaluation.part = some evaluation := by
  have hnone : log.reverse.find? (·.part == evaluation.part) = none := by
    refine List.find?_eq_none.2 fun other hother heq => h ?_
    exact mem_map.2 ⟨other, mem_reverse.1 hother, beq_iff_eq.1 heq⟩
  rw [last?, reverse_cons, List.find?_append, hnone]
  simp

end Evaluation

section

variable (cfg : Settings)

/-- Evaluations that are done one after the other, with nothing between them that changes the
machine. -/
inductive Evaluation.InRow : Machine → List Evaluation → Machine → Prop where
  | nil {m : Machine} : InRow m [] m
  | cons {evaluation : Evaluation} {rest : List Evaluation} {m : Machine}
      (done : Exec.eval cfg evaluation.bound evaluation.expr evaluation.before =
        .done evaluation.value evaluation.after)
      (more : InRow evaluation.after rest m) : InRow evaluation.before (evaluation :: rest) m

/-- `v.Logs cfg t log m`: until the machine is `m`, the visit comes to the evaluations in the log,
in this order, each of them an evaluation of a part of the chain `t`. Whatever else it comes to is
inside of one of these, or is about the chain itself or the object of one of its accesses. -/
structure Visit.Logs (v : Visit) (t : Expr) (log : List Evaluation) (m : Machine) : Prop where
  row : Evaluation.InRow cfg v.machine log m
  parts : ∀ evaluation ∈ log, t.part? evaluation.part = some evaluation.expr
  reached : ∀ evaluation ∈ log, v.Reaches cfg evaluation.visit
  complete : ∀ w, v.Reaches cfg w → (∃ evaluation ∈ log, evaluation.visit.Reaches cfg w) ∨
    ∃ e, e.Begins t ∧ (w.task = .eval e ∨ ∃ loc, w.task = .place loc e)

end

variable {cfg : Settings}

theorem Evaluation.InRow.append {m m₁ m₂ : Machine} {first second : List Evaluation}
    (h : InRow cfg m first m₁) (h' : InRow cfg m₁ second m₂) :
    InRow cfg m (first ++ second) m₂ := by
  induction h with
  | nil => exact h'
  | cons done _ ih => exact .cons done (ih h')

namespace Visit.Logs

variable {u v w : Visit} {t object : Expr} {log log' : List Evaluation} {m m' : Machine}

variable {e : Expr}

theorem part {j k : Nat} {value : Value} (hpart : t.part? j = some e)
    (hdone : Exec.eval cfg k e m = .done value m') :
    Logs cfg ⟨k, .eval e, m⟩ t [⟨j, k, e, m, value, m'⟩] m' where
  row := @Evaluation.InRow.cons _ ⟨j, k, e, m, value, m'⟩ _ _ hdone .nil
  parts := forall_mem_singleton.2 hpart
  reached := forall_mem_singleton.2 .refl
  complete _ hw := .inl ⟨_, mem_singleton_self _, hw⟩

theorem nothing (he : e.Begins t) (htask : v.task = .eval e ∨ ∃ loc, v.task = .place loc e)
    (hstarts : ∀ w, ¬v.Starts cfg w) : Logs cfg v t [] v.machine where
  row := .nil
  parts := forall_mem_nil _
  reached := forall_mem_nil _
  complete w hw := by
    obtain rfl | ⟨u, hstart, -⟩ := hw.cases_head
    · exact .inr ⟨e, he, htask⟩
    · exact absurd hstart (hstarts u)

theorem single (h : Logs cfg u t log m) (he : e.Begins t)
    (htask : v.task = .eval e ∨ ∃ loc, v.task = .place loc e) (hmachine : u.machine = v.machine)
    (hstarts : ∀ w, v.Starts cfg w ↔ w = u) : Logs cfg v t log m where
  row := hmachine ▸ h.row
  parts := h.parts
  reached evaluation hmem := .head ((hstarts u).2 rfl) (h.reached evaluation hmem)
  complete w hw := by
    obtain rfl | ⟨u', hstart, hw⟩ := hw.cases_head
    · exact .inr ⟨e, he, htask⟩
    · obtain rfl := (hstarts u').1 hstart
      exact h.complete w hw

theorem both (first : Logs cfg u t log m) (second : Logs cfg w t log' m')
    (he : e.Begins t) (htask : v.task = .eval e ∨ ∃ loc, v.task = .place loc e)
    (hmachine : u.machine = v.machine) (hmachine' : w.machine = m)
    (hstarts : ∀ x, v.Starts cfg x ↔ x = u ∨ x = w) : Logs cfg v t (log ++ log') m' where
  row := (hmachine ▸ first.row).append (hmachine' ▸ second.row)
  parts evaluation hmem := (mem_append.1 hmem).elim (first.parts _) (second.parts _)
  reached evaluation hmem := (mem_append.1 hmem).elim
    (fun hmem => .head ((hstarts u).2 (.inl rfl)) (first.reached _ hmem))
    (fun hmem => .head ((hstarts w).2 (.inr rfl)) (second.reached _ hmem))
  complete x hx := by
    obtain rfl | ⟨y, hstart, hx⟩ := hx.cases_head
    · exact .inr ⟨e, he, htask⟩
    · obtain rfl | rfl := (hstarts y).1 hstart
      · obtain ⟨evaluation, hmem, hin⟩ | hon := first.complete x hx
        · exact .inl ⟨evaluation, mem_append_left _ hmem, hin⟩
        · exact .inr hon
      · obtain ⟨evaluation, hmem, hin⟩ | hon := second.complete x hx
        · exact .inl ⟨evaluation, mem_append_right _ hmem, hin⟩
        · exact .inr hon

theorem behind_field (h : Logs cfg v object log m) (member : String) (loc : Location) :
    Logs cfg v (.field object member loc) log m where
  row := h.row
  parts := h.parts
  reached := h.reached
  complete w hw := by
    refine (h.complete w hw).imp_right ?_
    rintro ⟨e, he, htask⟩
    exact ⟨e, he.field member loc, htask⟩

theorem behind_index (hobject : object.Chain) (h : Logs cfg v object log m) (index : Expr)
    (loc : Location) : Logs cfg v (.index object index loc) log m where
  row := h.row
  parts evaluation hmem := by
    have hpart := h.parts evaluation hmem
    have hle := Expr.le_accesses_of_part? hobject hpart
    rw [Expr.part?, if_neg (by omega), hpart]
  reached := h.reached
  complete w hw := by
    refine (h.complete w hw).imp_right ?_
    rintro ⟨e, he, htask⟩
    exact ⟨e, he.index index loc, htask⟩

end Visit.Logs

namespace Expr

/-! ## What is evaluated for the value of a chain -/

variable {t : Expr} {m : Machine} {n kept j : Nat} {log : List Evaluation} {p : Place}

open Exec in
/-- **The value of a chain** takes an evaluation of each part, from the start of the chain to its
end. -/
theorem Chain.logs_eval (h : t.Chain) {k : Nat} {m' : Machine} {value : Value}
    (hdone : eval cfg k t m = .done value m') :
    ∃ log, Visit.Logs cfg ⟨k, .eval t, m⟩ t log m' ∧ log.map Evaluation.part = t.parts := by
  induction h generalizing k m m' value with
  | name x loc =>
    cases k with
    | zero => cases hdone
    | succ k =>
      obtain rfl : m' = m := Reads.done (.nameValue x loc) hdone
      exact ⟨[], .nothing .refl (.inl rfl) (by rintro w ⟨⟩), rfl⟩
  | call callee args loc => exact ⟨_, .part rfl hdone, rfl⟩
  | @field object h member loc ih =>
    cases k with
    | zero => cases hdone
    | succ k =>
      obtain ⟨target, m₁, hobject, hmember⟩ := bind_eq_done hdone
      obtain rfl : m' = m₁ := Reads.done (.memberValue target member _ loc) hmember
      obtain ⟨log, hlog, hparts⟩ := ih hobject
      exact ⟨log, (hlog.behind_field member loc).single .refl (.inl rfl) rfl fun _ =>
        Visit.starts_field, hparts⟩
  | @index object h index loc ih =>
    cases k with
    | zero => cases hdone
    | succ k =>
      obtain ⟨target, m₁, hobject, hrest⟩ := bind_eq_done hdone
      obtain ⟨selected, m₂, hindex, hitem⟩ := bind_eq_done hrest
      obtain rfl : m' = m₂ := Reads.done (.ofExcept _) hitem
      obtain ⟨log, hlog, hparts⟩ := ih hobject
      have hlast : Visit.Logs cfg ⟨k, .eval index, m₁⟩ (.index object index loc) _ m' :=
        .part (j := object.accesses + 1) (if_pos rfl) hindex
      refine ⟨_, (hlog.behind_index h index loc).both hlast .refl (.inl rfl) rfl rfl fun w => ?_, ?_⟩
      · rw [Visit.starts_index, hobject]
        simp
      · rw [map_append, hparts]
        rfl

/-! ## What is evaluated for its place -/

/-- The place that a walk comes to which ends on a machine: the variable where the chain starts, or
a field of the session that the object of an access turns out to be; and from there the fields of
the accesses behind it, and the items at the indices, as they have been evaluated last. -/
inductive Selects (cfg : Settings) (n kept : Nat) (log : List Evaluation) (m : Machine) :
    Expr → Place → Prop where
  | variable (start : kept = 0) (x : String) (loc : Location) :
      Selects cfg n kept log m (.name x loc) ⟨.variable x loc, []⟩
  | session {object : Expr} {ref : SessionRef} {m₀ : Machine} (hkept : object.accesses + 1 = kept)
      (done : Exec.eval cfg n object m₀ = .done (.session ref) m) (member : String)
        (loc : Location) :
      Selects cfg n kept log m (.field object member loc) ⟨.field ref member object.isThis, []⟩
  | field {object : Expr} {p : Place} (h : Selects cfg n kept log m object p)
      (hkept : object.accesses + 1 ≠ kept) (member : String) (loc : Location) :
      Selects cfg n kept log m (.field object member loc) (p.step (.field member))
  | index {object : Expr} {p : Place} {evaluation : Evaluation}
      (h : Selects cfg n kept log m object p)
      (last : Evaluation.last? log (object.accesses + 1) = some evaluation) (index : Expr)
        (loc : Location) :
      Selects cfg n kept log m (.index object index loc) (p.step (.index evaluation.value))

theorem Selects.append (h : Selects cfg n kept log m t p) (first : List Evaluation) :
    Selects cfg n kept (first ++ log) m t p := by
  induction h with
  | «variable» start x loc => exact .variable start x loc
  | session hkept done member loc => exact .session hkept done member loc
  | field _ hkept member loc ih => exact .field ih hkept member loc
  | index _ last index loc ih =>
    exact .index ih (Evaluation.last?_append_of_some last first) index loc

theorem Selects.kept_le (h : Selects cfg n kept log m t p) : kept ≤ t.accesses := by
  induction h with
  | «variable» start => exact Nat.le_of_eq start
  | session hkept => exact Nat.le_of_eq hkept.symm
  | field _ _ _ _ ih | index _ _ _ _ ih => exact Nat.le_succ_of_le ih

open Exec in
/-- **The place of a chain** takes the evaluations of a walk from the end of the chain, and is the
place that the last of them select. -/
theorem Chain.logs_place (h : t.Chain) {loc : Location} {m' : Machine}
    (hdone : place (eval cfg n) loc t m = .done p m') :
    ∃ kept log, Visit.Logs cfg ⟨n, .place loc t, m⟩ t log m' ∧
      log.map Evaluation.part = t.visited kept ∧ Selects cfg n kept log m' t p := by
  induction h generalizing m m' p with
  | name x nameLoc =>
    cases hdone
    exact ⟨0, [], .nothing .refl (.inr ⟨loc, rfl⟩) (by rintro w ⟨⟩), rfl, .variable rfl x nameLoc⟩
  | call => cases hdone
  | @field object h member fieldLoc ih =>
    obtain ⟨target, m₁, hobject, hrest⟩ := bind_eq_done hdone
    obtain ⟨log, hlog, hparts⟩ := h.logs_eval hobject
    have hobjectLog := hlog.behind_field member fieldLoc
    by_cases hsession : ∃ ref, target = .session ref
    · -- the walk ends here
      obtain ⟨ref, rfl⟩ := hsession
      cases hrest
      refine ⟨object.accesses + 1, log, hobjectLog.single .refl (.inr ⟨loc, rfl⟩) rfl fun w => ?_,
        ?_, .session rfl hobject member fieldLoc⟩
      · rw [Visit.starts_place_field, hobject]
        simp
      · rw [hparts, visited, if_pos rfl, append_nil]
    · have hplain : ∀ ref, target ≠ .session ref := fun ref href => hsession ⟨ref, href⟩
      obtain ⟨inner, m₂, hinner, hstep⟩ := bind_eq_done (x := place (eval cfg n) loc object)
        (f := fun p => pure (p.step (.field member))) (show _ = _ by
          cases target with
          | session ref => exact absurd rfl (hplain ref)
          | _ => exact hrest)
      cases hstep
      obtain ⟨kept, log', hlog', hvisited, hselects⟩ := ih hinner
      have hkept : object.accesses + 1 ≠ kept := by
        have := hselects.kept_le
        omega
      refine ⟨kept, log ++ log', hobjectLog.both (hlog'.behind_field member fieldLoc) .refl
        (.inr ⟨loc, rfl⟩) rfl rfl fun w => ?_, ?_,
          .field (hselects.append log) hkept member fieldLoc⟩
      · rw [Visit.starts_place_field, hobject]
        simp [hplain]
      · rw [map_append, hparts, hvisited, visited, if_neg hkept]
  | @index object h index indexLoc ih =>
    obtain ⟨selected, m₁, hindex, hrest⟩ := bind_eq_done hdone
    obtain ⟨inner, m₂, hinner, hstep⟩ := bind_eq_done hrest
    cases hstep
    obtain ⟨kept, log, hlog, hvisited, hselects⟩ := ih hinner
    have hfirst : Visit.Logs cfg ⟨n, .eval index, m⟩ (.index object index indexLoc) _ m₁ :=
      .part (j := object.accesses + 1) (if_pos rfl) hindex
    have hnew : object.accesses + 1 ∉ log.map Evaluation.part := fun hmem => by
      have := le_accesses_of_mem_visited h (hvisited ▸ hmem)
      omega
    have hlast := Evaluation.last?_cons_of_notMem ⟨object.accesses + 1, n, index, m, selected,
      m₁⟩ hnew
    refine ⟨kept, _ :: log, hfirst.both (hlog.behind_index h index indexLoc) .refl
      (.inr ⟨loc, rfl⟩) rfl rfl
      fun w => ?_, ?_, .index (hselects.append [_]) hlast index indexLoc⟩
    · rw [Visit.starts_place_index, hindex]
      simp
    · rw [map_cons, hvisited]
      rfl

/-! ## How often each part is evaluated -/

/-- The number of accesses to fields behind a part that a walk comes to. -/
def fieldsBehind (kept j : Nat) (t : Expr) : Nat :=
  t.fields.countP fun i => decide (j < i ∧ kept ≤ i)

theorem fieldsBehind_field (kept j : Nat) (object : Expr) (member : String) (loc : Location) :
    fieldsBehind kept j (.field object member loc) = fieldsBehind kept j object +
      if j < object.accesses + 1 ∧ kept ≤ object.accesses + 1 then 1 else 0 := by
  simp only [fieldsBehind, fields, countP_append, countP_singleton, decide_eq_true_eq]

theorem fieldsBehind_eq_zero (ht : t.Chain) (h : t.accesses ≤ j ∨ t.accesses < kept) :
    fieldsBehind kept j t = 0 := by
  refine countP_eq_zero.2 fun i hi => ?_
  have := le_accesses_of_mem_fields ht hi
  simp only [decide_eq_true_eq]
  omega

theorem count_visited_index {object : Expr} (hobject : object.Chain) {index : Expr}
    {loc : Location} : (visited kept (.index object index loc)).count j =
      if j = object.accesses + 1 then 1 else (object.visited kept).count j := by
  rw [visited, count_cons]
  by_cases hj : j = object.accesses + 1
  · have hnew : j ∉ object.visited kept := fun hmem => by
      have := le_accesses_of_mem_visited hobject hmem
      omega
    rw [count_eq_zero_of_not_mem hnew, if_pos (beq_iff_eq.2 hj.symm), if_pos hj]
  · rw [if_neg fun heq => hj (beq_iff_eq.1 heq).symm, if_neg hj, Nat.add_zero]

/-- **A walk evaluates a part once for each field behind it**, up to where the walk ends, and an
index that it passes once more. -/
theorem Selects.count_visited (ht : t.Chain) (h : Selects cfg n kept log m t p)
    (hj : j ∈ t.parts) :
    (t.visited kept).count j = t.fieldsBehind kept j + if kept < j then 1 else 0 := by
  induction h with
  | «variable» => cases hj
  | @session object ref m₀ hkept done member loc =>
    cases ht with
    | field hobject =>
      have hle : j ≤ object.accesses := le_accesses_of_mem_parts hobject hj
      rw [visited, if_pos hkept, append_nil, count_parts hobject hj, fieldsBehind_field,
        fieldsBehind_eq_zero hobject (.inr (by omega)), if_pos (by omega), if_neg (by omega)]
  | @field object p h hkept member loc ih =>
    cases ht with
    | field hobject =>
      have hle : j ≤ object.accesses := le_accesses_of_mem_parts hobject hj
      have := h.kept_le
      rw [visited, if_neg hkept, count_append, count_parts hobject hj, ih hobject hj,
        fieldsBehind_field,
        if_pos (⟨by omega, by omega⟩ : j < object.accesses + 1 ∧ kept ≤ object.accesses + 1)]
      omega
  | @index object p evaluation h last index loc ih =>
    cases ht with
    | index hobject =>
      have hkept := h.kept_le
      rw [count_visited_index hobject, show fieldsBehind kept j (.index object index loc) =
        fieldsBehind kept j object from rfl]
      obtain hj | hj := mem_append.1 hj
      · have hle := le_accesses_of_mem_parts hobject hj
        rw [if_neg (by omega), ih hobject hj]
      · obtain rfl := mem_singleton.1 hj
        rw [if_pos rfl, fieldsBehind_eq_zero hobject (.inl (Nat.le_succ _)), if_pos (by omega)]

theorem Selects.count_visited_eq_one (ht : t.Chain) (h : Selects cfg n kept log m t p)
    (hfields : ∀ i ∈ t.fields, i ≤ kept) (hj : j ∈ t.parts) : (t.visited kept).count j = 1 := by
  induction h with
  | «variable» => cases hj
  | session hkept =>
    cases ht with
    | field hobject => rw [visited, if_pos hkept, append_nil, count_parts hobject hj]
  | field h =>
    have hle := h.kept_le
    exact absurd (hfields _ (mem_append_right _ mem_cons_self)) (by omega)
  | index h last index loc ih =>
    cases ht with
    | index hobject =>
      rw [count_visited_index hobject]
      obtain hj | hj := mem_append.1 hj
      · have hle := le_accesses_of_mem_parts hobject hj
        rw [if_neg (by omega), ih hobject hfields hj]
      · rw [if_pos (mem_singleton.1 hj)]

end Expr

namespace Exec

/-- A suggestion that tells that it is called, and awakens what `s` holds. -/
def announcing : Suggestion :=
  ⟨"get", [], none, [.observe (.text "called" ⟨1, 111⟩) ⟨1, 103⟩,
    .awaken (some (.name "s" ⟨1, 128⟩)) ⟨1, 121⟩], false,
    false, ⟨1, 84⟩, .main⟩

def announcedTarget : Expr :=
  .field (.field (.call (.name "get" ⟨1, 133⟩) [] ⟨1, 136⟩) "r" ⟨1, 138⟩) "x" ⟨1, 140⟩

/-- A machine in which `s` holds a session with a record in its field `r`. -/
def announcedMachine : Machine :=
  { Machine.new "" [] none with
    scopes := ⟨[], [⟨"get", .suggestion, none, some (.suggestion announcing)⟩,
      ⟨"s", .variable, none, some (.session ⟨0, "S"⟩)⟩]⟩
    heap := #[⟨"S", [("r", .record "R" [("x", .null)])], [], []⟩] }

end Exec

def Program.announced : Program :=
  ⟨[.session ⟨"S", [⟨.field ⟨"r", some "R", .unset, ⟨1, 26⟩⟩, true, false⟩], ⟨1, 7⟩⟩,
    .tranceify ⟨"R", [⟨"x", some "string", .unset, ⟨1, 55⟩⟩], ⟨1, 41⟩⟩,
    .induce ⟨"s", none, .value (.call (.name "S" ⟨1, 79⟩) [] ⟨1, 80⟩), ⟨1, 68⟩⟩,
    .suggestion Exec.announcing,
    .expr (.assign Exec.announcedTarget (.text "2" ⟨1, 145⟩) ⟨1, 143⟩) ⟨1, 133⟩,
    .observe (.field (.field (.name "s" ⟨1, 158⟩) "r" ⟨1, 159⟩) "x" ⟨1, 161⟩) ⟨1, 150⟩]⟩

def Program.announcedText : String :=
  "Focus session S \x7b expose induce r: R; \x7d tranceify R \x7b x: string; \x7d induce s = S(); " ++
  "suggestion get() \x7b observe \"called\"; awaken s; \x7d get().r.x = \"2\"; observe s.r.x; Relax"

set_option maxRecDepth 2000 in
theorem Program.ofText_announced : ofText .main announcedText = .ok announced := by
  with_unfolding_all rfl

end Trance
