import Mathlib.Data.List.Induction
import Trance.Proofs.Places.Slots

/-!
# Assignment to nested places

An assignment reads as a value what a longer access reads, and then walks the same expression once
more as a place. For a place that is reached from a variable, or from a field of a session, by field
names and numbers, both come to the same part of the same value, and what is written is that value
with the part replaced. -/

namespace Trance

open List Option Value

/-- An expression with accesses behind it. -/
def Expr.along (root : Expr) (path : List Access) : Expr := path.foldl Access.of root

theorem Expr.along_concat (root : Expr) (path : List Access) (a : Access) :
    root.along (path ++ [a]) = a.of (root.along path) := foldl_append

namespace Value

theorem walk_concat (path : List Access) (a : Access) (v : Value) :
    walk (path ++ [a]) v = walk path v >>= a.read := by
  induction path generalizing v with
  | nil =>
    simp only [nil_append, walk, bind, Except.bind]
    cases a.read v <;> rfl
  | cons b rest ih =>
    simp only [cons_append, walk, bind, Except.bind] at ih ⊢
    cases b.read v with
    | error => rfl
    | ok part => exact ih part

theorem Passes.of_concat {kind : Value → Bool} {path : List Access} {a : Access} {v : Value}
    (h : Passes kind (path ++ [a]) v) :
    Passes kind path v ∧ ∀ part, walk path v = .ok part → kind part = true := by
  induction path generalizing v with
  | nil =>
    refine ⟨trivial, ?_⟩
    rintro part ⟨⟩
    exact h.1
  | cons b rest ih =>
    refine ⟨⟨h.1, fun part hpart => (ih (h.2 part hpart)).1⟩, fun last hlast => ?_⟩
    simp only [walk, bind, Except.bind] at hlast
    cases hread : b.read v with
    | error => rw [hread] at hlast; cases hlast
    | ok part =>
      rw [hread] at hlast
      exact (ih (h.2 part hread)).2 last hlast

theorem Passes.mono {kind kind' : Value → Bool} (hkind : ∀ v, kind v = true → kind' v = true)
    {path : List Access} {v : Value} (h : Passes kind path v) : Passes kind' path v := by
  induction path generalizing v with
  | nil => trivial
  | cons a rest ih => exact ⟨hkind v h.1, fun part hpart => ih (h.2 part hpart)⟩

end Value

/-! ## Roots -/

/-- An expression that may name a slot: a name, or a member of what a name stands for. -/
inductive Root where
  | name (x : String) (loc : Location)
  | member (x f : String) (nameLoc loc : Location)

namespace Root

def expr : Root → Expr
  | .name x loc => .name x loc
  | .member x f nameLoc loc => .field (.name x nameLoc) f loc

def depth : Root → Nat
  | .name .. => 1
  | .member .. => 2

theorem depth_pos (root : Root) : 0 < root.depth := by
  cases root with
  | name => exact Nat.one_pos
  | member => exact Nat.two_pos

end Root

/-- A root names a slot, with the value that is read there. It names a variable or a parameter, or a
field of its own of an object, which is not concealed, unless the object is reached through `this`.
-/
inductive Machine.Holds (m : Machine) : Root → Slot → Value → Prop where
  | name {name : String} {loc : Location} {cell : Scopes.Cell} {symbol : Symbol}
      (hcell : m.scopes.cell? name = some cell) (hsymbol : m.scopes.symbol? cell = some symbol)
      (hkind : symbol.kind = .variable ∨ symbol.kind = .parameter) :
      Holds m (.name name loc) (.binding cell) (symbol.value.getD .null)
  | member {name member : String} {nameLoc loc : Location} {symbol : Symbol} {ref : SessionRef}
      {object : Instance} {held : Value}
      (hsymbol : m.scopes.resolve? name = some symbol)
        (hsession : symbol.value = some (.session ref))
      (hobject : m.heap[ref.id]? = some object) (hown : object.fields.find? member = some held)
      (hvisible : object.conceals member = false ∨ name = Expr.thisName) :
      Holds m (.member name member nameLoc loc) (.field ref.id member) held

theorem Machine.Holds.write {m : Machine} {root : Root} {slot : Slot} {held : Value}
    (h : m.Holds root slot held) (new : Value) : (m.write new slot).Holds root slot new := by
  cases h with
  | @name name loc cell symbol hcell hsymbol hkind =>
    refine @Holds.name _ _ _ _ (symbol.holding new)
      ((Scopes.cell?_write _ cell new name).trans hcell) ?_ hkind
    show (m.scopes.write cell new).symbol? cell = _
    rw [Scopes.symbol?_write, if_pos rfl, hsymbol]
    rfl
  | @member name member nameLoc loc symbol ref object held hsymbol hsession hobject hown hvisible =>
    refine @Holds.member _ _ _ _ _ _ _ (object.setField member new) _ hsymbol hsession ?_ ?_ hvisible
    · simp [Machine.write, Array.getElem?_modify, hobject]
    · simp [Instance.setField, Table.find?_insert]

namespace Exec

variable {cfg : Settings} {m : Machine} {root : Root} {slot : Slot} {held : Value}
  {path : List Access}

/-! ## Reading -/

theorem nameValue_done {name : String} {symbol : Symbol} {value : Value} (loc : Location)
    (hsymbol : m.scopes.resolve? name = some symbol) (hvalue : symbol.value = some value) :
    nameValue name loc m = .done value m := by
  simp only [nameValue, resolve?, machine, bind, Exec.bind, pure, Exec.pure, hsymbol, hvalue]

theorem conceals_and_not_isThis {object : Instance} {name member : String}
    (h : object.conceals member = false ∨ name = Expr.thisName) (nameLoc : Location) :
    (object.conceals member && !(Expr.name name nameLoc).isThis) = false := by
  obtain h | rfl := h
  · rw [h, Bool.false_and]
  · simp [Expr.isThis]

variable {k : Nat} {e : Expr} {v : Value}

theorem eval_root (h : m.Holds root slot held) (hk : root.depth ≤ k) :
    eval cfg k root.expr m = .done held m := by
  cases h with
  | @name name loc cell symbol hcell hsymbol hkind =>
    obtain ⟨k, rfl⟩ := Nat.exists_eq_add_of_le' hk
    have hresolve := Scopes.resolve?_of_cell hcell hsymbol
    show nameValue name loc m = _
    cases hvalue : symbol.value with
    | some value => exact nameValue_done loc hresolve hvalue
    | none =>
      simp only [nameValue, resolve?, machine, bind, Exec.bind, pure, Exec.pure, hresolve, hvalue]
      obtain hkind | hkind := hkind <;> rw [hkind] <;> rfl
  | @member name member nameLoc loc symbol ref object held hsymbol hsession hobject hown hvisible =>
    obtain ⟨k, rfl⟩ := Nat.exists_eq_add_of_le' hk
    have hconceals := conceals_and_not_isThis hvisible nameLoc
    show (nameValue name nameLoc >>= fun target => memberValue target member _ loc) m = _
    rw [bind_of_done (nameValue_done nameLoc hsymbol hsession)]
    simp only [memberValue, sessionMember, Exec.object, machine, bind, Exec.bind, pure, Exec.pure,
      hobject,
      getD_some, requireVisible, hconceals, Bool.false_eq_true, if_false, Instance.member?, hown]

theorem eval_root_exhausted (hk : k < root.depth) : eval cfg k root.expr m = .exhausted := by
  cases root with
  | name name loc =>
    obtain rfl : k = 0 := Nat.lt_one_iff.1 hk
    rfl
  | member name member nameLoc loc =>
    have hk : k < 2 := hk
    obtain rfl | rfl : k = 0 ∨ k = 1 := by omega
    · rfl
    · rfl

theorem eval_access (a : Access) (h : eval cfg (k + 1) e m = .done v m)
    (hv : (!v.isSession) = true) : eval cfg (k + 2) (a.of e) m = ofExcept (a.read v) m := by
  cases a with
  | field name loc =>
    show (eval cfg (k + 1) e >>= fun target => memberValue target name e.isThis loc) m = _
    rw [bind_of_done h]
    cases v with
    | session => cases hv
    | record typeName fields =>
      simp only [memberValue, Access.read]
      cases Table.find? fields name <;> rfl
    | _ => rfl
  | item index indexLoc loc =>
    show (eval cfg (k + 1) e >>= fun target => eval cfg (k + 1) (.number index indexLoc) >>=
      fun selected => ofExcept (target.at? selected loc)) m = _
    rw [bind_of_done h]
    rfl

theorem eval_access_failed {err : RuntimeError} (a : Access)
    (h : eval cfg k e m = .failed err m) : eval cfg (k + 1) (a.of e) m = .failed err m := by
  cases a <;> simp only [Access.of, eval, evalStep, bind, Exec.bind, h]

theorem eval_access_exhausted (a : Access) (h : eval cfg k e m = .exhausted) :
    eval cfg (k + 1) (a.of e) m = .exhausted := by
  cases a <;> simp only [Access.of, eval, evalStep, bind, Exec.bind, h]

/-- **What is read at a nested place** is what the accesses read from the value that the root holds,
given enough steps. -/
theorem eval_along (h : m.Holds root slot held) (hpasses : held.Passes (!·.isSession) path)
    (k : Nat) : eval cfg k (root.expr.along path) m =
      if k < root.depth + path.length then .exhausted else ofExcept (held.walk path) m := by
  induction path using List.reverseRecOn generalizing k with
  | nil =>
    split
    · exact eval_root_exhausted ‹_›
    · exact eval_root h (Nat.le_of_not_lt ‹_›)
  | append_singleton path a ih =>
    obtain ⟨hbefore, hlast⟩ := hpasses.of_concat
    rw [Expr.along_concat, Value.walk_concat, length_append, length_singleton]
    cases k with
    | zero =>
      rw [if_pos (by omega)]
      rfl
    | succ k =>
      by_cases hk : k < root.depth + path.length
      · rw [if_pos (by omega)]
        exact eval_access_exhausted a ((ih hbefore k).trans (if_pos hk))
      · have hread := (ih hbefore k).trans (if_neg hk)
        rw [if_neg (by omega)]
        cases hwalk : held.walk path with
        | error err =>
          rw [hwalk] at hread
          exact eval_access_failed a hread
        | ok part =>
          rw [hwalk] at hread
          have hdepth := root.depth_pos
          obtain ⟨k, rfl⟩ := Nat.exists_eq_add_of_le' (show 1 ≤ k by omega)
          exact eval_access a hread (hlast part hwalk)

theorem eval_along_done (h : m.Holds root slot held) (hpasses : held.Passes (!·.isSession) path)
    {m' : Machine} (hread : eval cfg k (root.expr.along path) m = .done v m') :
    root.depth + path.length ≤ k ∧ held.walk path = .ok v := by
  rw [eval_along h hpasses] at hread
  split at hread
  · cases hread
  · cases hwalk : held.walk path with
    | error err => rw [hwalk] at hread; cases hread
    | ok part =>
      rw [hwalk] at hread
      cases hread
      exact ⟨Nat.le_of_not_lt ‹_›, rfl⟩

/-! ## Writing -/

theorem place_access (a : Access) (loc : Location) (h : eval cfg (k + 1) e m = .done v m)
    (hv : (!v.isSession) = true) :
    place (eval cfg (k + 1)) loc (a.of e) m =
      (place (eval cfg (k + 1)) loc e >>= fun p => pure (p.step a.step)) m := by
  cases a with
  | field name nameLoc =>
    rw [Access.of, place, bind_of_done h]
    cases v with
    | session => cases hv
    | _ => rfl
  | item index indexLoc itemLoc => rfl

theorem place_along (h : m.Holds root slot held) (hpasses : held.Passes (!·.isSession) path)
    {last : Value} (hwalk : held.walk path = .ok last) (hk : root.depth + path.length ≤ k)
    (loc : Location) {r : Place.Root}
    (hroot : place (eval cfg k) loc root.expr m = .done ⟨r, []⟩ m) :
    place (eval cfg k) loc (root.expr.along path) m = .done ⟨r, path.map Access.step⟩ m := by
  induction path using List.reverseRecOn generalizing last with
  | nil => exact hroot
  | append_singleton path a ih =>
    obtain ⟨hbefore, hlast⟩ := hpasses.of_concat
    rw [Value.walk_concat] at hwalk
    rw [length_append, length_singleton] at hk
    cases hpart : held.walk path with
    | error err => rw [hpart] at hwalk; cases hwalk
    | ok part =>
      have hread : eval cfg k _ m = _ := eval_along h hbefore k
      rw [if_neg (by omega), hpart] at hread
      obtain ⟨k, rfl⟩ := Nat.exists_eq_add_of_le' (show 1 ≤ k by omega)
      rw [Expr.along_concat, place_access a loc hread (hlast part hpart),
        bind_of_done (ih hbefore hpart (by omega)), map_append]
      rfl

theorem place_root (cfg : Settings) (h : m.Holds root slot held) (hk : 0 < k) (loc : Location) :
    ∃ r, place (eval cfg k) loc root.expr m = .done ⟨r, []⟩ m ∧
      ∀ steps change new, (∀ busy, modifyAt busy loc change steps held = .ok new) →
        modifyPlace ⟨r, steps⟩ loc change m = .done () (m.write new slot) := by
  cases h with
  | @name name nameLoc cell symbol hcell hsymbol hkind =>
    refine ⟨.variable name nameLoc, rfl, fun steps change new hnew => ?_⟩
    have hresolve := Scopes.resolve?_of_cell hcell hsymbol
    have hassign : m.scopes.assign? name new = some (m.scopes.write cell new) := by
      rw [Scopes.assign?_eq, hcell]
      rfl
    have hkept : (decide (symbol.kind ≠ .variable) && decide (symbol.kind ≠ .parameter)) =
        false := by
      obtain hkind | hkind := hkind <;> simp [hkind]
    simp only [modifyPlace, modifyVariable, resolve?, machine, bind, Exec.bind, pure, Exec.pure,
      hresolve, hkept, Bool.false_eq_true, if_false, hnew, ofExcept, update, hassign, getD_some]
    rfl
  | @member name member nameLoc memberLoc symbol ref object held hsymbol hsession hobject hown hvisible =>
    obtain ⟨k, rfl⟩ := Nat.exists_eq_add_of_le' hk
    refine ⟨.field ref member (Expr.name name nameLoc).isThis, ?_, fun steps change new hnew => ?_⟩
    · show (nameValue name nameLoc >>= _) m = _
      rw [bind_of_done (nameValue_done nameLoc hsymbol hsession)]
      rfl
    · have hconceals := conceals_and_not_isThis hvisible nameLoc
      have hheap : m.heap.setIfInBounds ref.id (object.setField member new) =
          m.heap.modify ref.id (·.setField member new) := by
        refine Array.ext_getElem? fun i => ?_
        rw [Array.getElem?_setIfInBounds, Array.getElem?_modify]
        by_cases hi : ref.id = i
        · obtain ⟨hbound, hget⟩ := Array.getElem?_eq_some_iff.1 hobject
          simp [← hi, hbound, hget]
        · simp [hi]
      simp only [modifyPlace, modifySession, modifyField, Exec.object, machine, bind, Exec.bind,
        pure,
        Exec.pure, hobject, getD_some, requireVisible, hconceals, Bool.false_eq_true, if_false,
        Table.modify?_eq, hown, map_some, hnew, Except.map, ofExcept, setObject, update, if_true]
      exact congrArg (fun heap => Outcome.done () { m with heap }) hheap

/-- **What is written at a nested place** is the value that the root holds, with a new part. -/
theorem assign_along (h : m.Holds root slot held) (hpasses : held.Passes isContainer path)
    {old : Value} (hwalk : held.walk path = .ok old) (hk : root.depth + path.length ≤ k) (v : Value)
    (loc : Location) : assign (eval cfg k) (root.expr.along path) v loc m =
      .done () (m.write (put v (path.map Access.step) held) slot) := by
  have hdepth := root.depth_pos
  obtain ⟨r, hroot, hmodify⟩ := place_root cfg h (show 0 < k by omega) loc
  have hplace := place_along h (hpasses.mono fun _ =>
    not_isSession_of_isContainer) hwalk hk loc hroot
  rw [assign, bind_of_done hplace]
  exact hmodify _ _ _ fun busy => modifyAt_eq_put busy loc (get?_of_walk hpasses hwalk) v

/-! ## Failing -/

theorem Reads.exhausted {α : Type} : Reads True (Exec.exhausted : Exec α) :=
  fun _ => .inr ⟨trivial, rfl⟩

theorem reads_along (root : Root) (path : List Access) (k : Nat) :
    Reads True (eval cfg k (root.expr.along path)) := by
  induction path using List.reverseRecOn generalizing k with
  | nil =>
    cases k with
    | zero => exact .exhausted
    | succ k =>
      cases root with
      | name x loc => exact .nameValue x loc
      | member x f nameLoc loc =>
        cases k with
        | zero => exact .bind .exhausted fun target => .memberValue target f _ loc
        | succ k => exact .bind (.nameValue x nameLoc) fun target => .memberValue target f _ loc
  | append_singleton path a ih =>
    rw [Expr.along_concat]
    cases k with
    | zero => exact .exhausted
    | succ k =>
      cases a with
      | field name loc => exact .bind (ih k) fun target => .memberValue target name _ loc
      | item index indexLoc loc =>
        refine .bind (ih k) fun target => .bind ?_ fun selected => .ofExcept _
        cases k with
        | zero => exact .exhausted
        | succ k => exact .pure _

theorem reads_place (root : Root) (path : List Access) (k : Nat) (loc : Location) :
    Reads True (place (eval cfg k) loc (root.expr.along path)) := by
  induction path using List.reverseRecOn with
  | nil =>
    cases root with
    | name x nameLoc => exact .pure _
    | member x f nameLoc fieldLoc =>
      refine .bind (reads_along (.name x nameLoc) [] k) fun target => ?_
      cases target with
      | session ref => exact .pure _
      | _ => exact .bind (.pure _) fun _ => .pure _
  | append_singleton path a ih =>
    rw [Expr.along_concat]
    cases a with
    | field name nameLoc =>
      refine .bind (reads_along root path k) fun target => ?_
      cases target with
      | session ref => exact .pure _
      | _ => exact .bind ih fun _ => .pure _
    | item index indexLoc itemLoc =>
      refine .bind ?_ fun selected => .bind ih fun _ => .pure _
      cases k with
      | zero => exact .exhausted
      | succ k => exact .pure _

def Atomic {α : Type} (x : Exec α) : Prop := ∀ m err m', x m = .failed err m' → m' = m

namespace Atomic

variable {α β : Type}

theorem of_reads {x : Exec α} (h : Reads True x) :
    Atomic x := fun _ _ _ hfailed => h.eq (by rw [hfailed]; rfl)

theorem update (change : Machine → Machine) : Atomic (Exec.update change) := by
  rintro m err m' ⟨⟩

theorem after {x : Exec α} {f : α → Exec β} (hx : Reads True x) (hf : ∀ a, Atomic (f a)) :
    Atomic (x >>= f) := by
  intro m err m' h
  cases hrun : x m with
  | done a m₁ =>
    obtain rfl := hx.done hrun
    rw [bind_of_done hrun] at h
    exact hf a _ err m' h
  | failed err' m₁ =>
    simp only [bind, Exec.bind, hrun] at h
    cases h
    exact of_reads hx m err _ hrun
  | exhausted =>
    simp only [bind, Exec.bind, hrun] at h
    cases h

theorem modifyField (ref : SessionRef) (object : Instance) (name : String)
    (change : Value → Attempt Value) {rest : Exec Unit} (h : Atomic rest) :
    Atomic (Exec.modifyField ref object name change >>= fun found =>
      if found then pure () else rest) := by
  unfold Exec.modifyField
  cases object.fields.modify? name change with
  | none => exact h
  | some fields =>
    cases fields with
    | error err => exact of_reads (.throw err)
    | ok fields =>
      rintro m err m' ⟨⟩

theorem modifySession (ref : SessionRef) (name : String) (viaThis : Bool) (loc : Location)
    (change : SessionRef → Value → Attempt Value) :
    Atomic (Exec.modifySession ref name viaThis loc change) :=
  after (.object ref) fun own => after (.requireVisible own own.name name viaThis loc) fun _ =>
    modifyField ref own name (change ref) <| after (.staticObject own.name name loc) fun shared =>
      after (.requireVisible shared.2 own.name name viaThis loc) fun _ =>
        modifyField shared.1 shared.2 name (change shared.1) (of_reads (.fail _ loc))

theorem modifyVariable (name : String) (nameLoc loc : Location) (change : Value → Attempt Value) :
    Atomic (Exec.modifyVariable name nameLoc loc change) := by
  refine after (.resolve? name) fun symbol? => ?_
  cases symbol? with
  | none => exact of_reads (.fail _ nameLoc)
  | some symbol =>
    simp only
    split
    · exact of_reads (.fail _ loc)
    · exact after (.ofExcept _) fun value => update _

/-- **An assignment to a nested place that fails leaves everything as it was.** -/
theorem assign_along (root : Root) (path : List Access) (k : Nat) (v : Value) (loc : Location) :
    Atomic (assign (eval cfg k) (root.expr.along path) v loc) := by
  refine after (reads_place root path k loc) fun p => ?_
  obtain ⟨r, steps⟩ := p
  cases r with
  | «variable» name nameLoc => exact modifyVariable name nameLoc loc _
  | field ref name viaThis =>
    exact modifySession ref name viaThis loc fun held =>
      modifyAt (some held) loc (fun _ => .ok v) steps

end Atomic

/-! ## The laws -/

/-- **Assignment to nested places obeys the laws of reading and writing.** Let a root name a slot,
and let accesses behind it read a value, so that each of them goes on from a record or an array.
Then every value can be assigned there, and afterwards it is read there. A place of the same root
that is neither in front of the assigned one nor behind it reads what it read before, in each number
of steps, errors included, as long as it does not go on from a session. Every other slot holds what
it held: each variable in each frame, and each field of each session; nothing but the one slot is
written. A second assignment leaves what it would have left alone. And an assignment to any place of
this form that fails leaves everything as it was. -/
theorem nested_places_obey_laws (cfg : Settings) {m m' : Machine} {root : Root} {slot : Slot}
    {held old : Value} (hroot : m.Holds root slot held) {path : List Access}
    (hpath : held.Passes isContainer path) {k : Nat}
    (hread : eval cfg k (root.expr.along path) m = .done old m') (loc : Location) :
    (∀ v, ∃ m₁, assign (eval cfg k) (root.expr.along path) v loc m = .done () m₁ ∧
      (∀ e m₀, eval cfg k e m₀ = .done v m →
        eval cfg (k + 1) (.assign (root.expr.along path) e loc) m₀ = .done v m₁) ∧
      eval cfg k (root.expr.along path) m₁ = .done v m₁ ∧
      (∀ other, Place.Step.Apart (path.map Access.step) (other.map Access.step) →
        held.Passes (!·.isSession) other → ∀ n, eval cfg n (root.expr.along other) m₁ =
          (eval cfg n (root.expr.along other) m).mapMachine fun _ => m₁) ∧
      ((∃ new, m₁ = m.write new slot) ∧ ∀ other, other ≠ slot → m₁.held? other = m.held? other) ∧
      ∀ w, assign (eval cfg k) (root.expr.along path) w loc m₁ =
        assign (eval cfg k) (root.expr.along path) w loc m) ∧
    ∀ (n : Nat) (root : Root) (path : List Access) (v : Value) (m : Machine) (err : RuntimeError)
      (m' : Machine), assign (eval cfg n) (root.expr.along path) v loc m = .failed err m' →
      m' = m := by
  refine ⟨fun v => ?_, fun n root path v m err m' => Atomic.assign_along root path n v loc m err m'⟩
  have hplain : held.Passes (!·.isSession) path := hpath.mono fun _ => not_isSession_of_isContainer
  obtain ⟨hk, hwalk⟩ := eval_along_done hroot hplain hread
  have hget := get?_of_walk hpath hwalk
  obtain ⟨hwalk₁, hpath₁⟩ := walk_of_get? (get?_put hget v)
  have hroot₁ := hroot.write (put v (path.map Access.step) held)
  have hassign : assign (eval cfg k) _ v loc m = _ := assign_along hroot hpath hwalk hk v loc
  refine ⟨_, hassign, fun e m₀ he => ?_, ?_, fun other hapart hother n => ?_,
    ⟨⟨_, rfl⟩, fun other hne => m.held?_write_of_ne slot _ hne⟩, fun w => ?_⟩
  · show (eval cfg k e >>= fun value => assign _ _ value loc >>= fun _ => pure value) m₀ = _
    rw [bind_of_done he, bind_of_done hassign]
    rfl
  · rw [eval_along hroot₁ (hpath₁.mono fun _ => not_isSession_of_isContainer), if_neg
      (by omega), hwalk₁]
    rfl
  · obtain ⟨hsame, hother₁⟩ := walk_put_of_apart hget v hapart hother
    rw [eval_along hroot hother, eval_along hroot₁ hother₁, hsame]
    split
    · rfl
    · cases held.walk other <;> rfl
  · rw [assign_along hroot₁ hpath₁ hwalk₁ hk, assign_along hroot hpath hwalk hk, put_put hget,
      Machine.write_write]

def nestedRecord : Value := .record "T" [("a", .record "U" [("b", .text "1"), ("c", .text "2")])]

/-- A machine with a session in `x` that has a record in a field, and with a copy of the record in
`y`. -/
def copiedRecord : Machine :=
  { Machine.new "" [] none with
    scopes := ⟨[⟨.block, [⟨"x", .variable, none, some (.session ⟨0, "S"⟩)⟩]⟩],
      [⟨"y", .variable, none, some nestedRecord⟩]⟩
    heap := #[⟨"S", [("f", nestedRecord)], [], []⟩] }

/-- A part of a record in a field of a session is assigned; its neighbour, and the copy, are as
before. -/
theorem copied_record_obeys_laws :
    let root : Root := .member "x" "f" ⟨1, 1⟩ ⟨1, 2⟩
    let target := root.expr.along [.field "a" ⟨1, 4⟩, .field "b" ⟨1, 6⟩]
    let neighbour := root.expr.along [.field "a" ⟨1, 4⟩, .field "c" ⟨1, 6⟩]
    copiedRecord.Holds root (.field 0 "f") nestedRecord ∧
    nestedRecord.Passes isContainer [.field "a" ⟨1, 4⟩, .field "b" ⟨1, 6⟩] ∧
    eval ⟨default, 256⟩ 4 target copiedRecord = .done (.text "1") copiedRecord ∧
    ∃ m₁, assign (eval ⟨default, 256⟩ 4) target (.text "3") ⟨1, 8⟩ copiedRecord = .done () m₁ ∧
      eval ⟨default, 256⟩ 4 target m₁ = .done (.text "3") m₁ ∧
      eval ⟨default, 256⟩ 4 neighbour m₁ = .done (.text "2") m₁ ∧
      m₁.held? (.binding ⟨none, "y"⟩) = some nestedRecord := by
  have hroot : copiedRecord.Holds (.member "x" "f" ⟨1, 1⟩ ⟨1, 2⟩) (.field 0 "f") nestedRecord :=
    @Machine.Holds.member _ _ _ _ _ _ ⟨0, "S"⟩ _ _ rfl rfl rfl rfl (.inl rfl)
  have hpath : nestedRecord.Passes isContainer [.field "a" ⟨1, 4⟩, .field "b" ⟨1, 6⟩] := by
    refine ⟨rfl, ?_⟩
    rintro _ ⟨⟩
    refine ⟨rfl, ?_⟩
    rintro _ ⟨⟩
    trivial
  have hother : nestedRecord.Passes (!·.isSession) [.field "a" ⟨1, 4⟩, .field "c" ⟨1, 6⟩] := by
    refine ⟨rfl, ?_⟩
    rintro _ ⟨⟩
    refine ⟨rfl, ?_⟩
    rintro _ ⟨⟩
    trivial
  obtain ⟨m₁, hassign, -, hread, hapart, ⟨-, hslots⟩, -⟩ :=
    (nested_places_obey_laws ⟨default, 256⟩ hroot hpath (k := 4) rfl ⟨1, 8⟩).1 (.text "3")
  refine ⟨hroot, hpath, rfl, m₁, hassign, hread, ?_, hslots _ (by decide)⟩
  rw [hapart _ (by simp [Place.Step.Apart, Place.Step.Leads, Place.Step.Same, Access.step]) hother]
  rfl

end Exec

end Trance
