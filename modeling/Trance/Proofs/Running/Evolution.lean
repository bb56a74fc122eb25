import Trance.Proofs.Running.Isolation
import Trance.Proofs.Running.Visits

/-!
# How a run changes the machine

A run changes the machine in few ways: names are bound and variables assigned, objects are made and
their fields set, something is shown or asked for, a failed assertion or a jump is noted, a file is
linked, a declaration takes effect. It opens frames, goes one call deeper and moves to other
directories, and each time it goes back. -/

namespace Trance

open Exec

/-! ## Changes -/

/-- The machine once a session is known by its name, with the object that the name stands for. -/
def Machine.knowSession (m : Machine) (decl : Session) (ref : SessionRef) : Machine :=
  { m with sessions := m.sessions.insert decl.name decl, statics := m.statics.insert decl.name ref }

/-- The machine once a record type is known by its name. -/
def Machine.knowRecord (m : Machine) (decl : Tranceify) : Machine :=
  { m with records := m.records.insert decl.name decl }

/-- `Evolves D binds m m'`: the machine `m` can become `m'`. Declarations of sessions and record
types that take effect satisfy `D` with the machine right behind them; names are bound in the
innermost frame of `m` only if `binds`. -/
inductive Machine.Evolves (D : Stmt → Machine → Prop) : Bool → Machine → Machine → Prop where
  | refl {b m} : Evolves D b m m
  | trans {b m₁ m₂ m₃} (first : Evolves D b m₁ m₂) (second : Evolves D b m₂ m₃) : Evolves D b m₁ m₃
  | define {m symbol scopes} (free : m.scopes.define? symbol = some scopes) :
      Evolves D true m { m with scopes }
  | assign {b m name symbol} (found : m.scopes.resolve? name = some symbol)
      (kind : symbol.kind = .variable ∨ symbol.kind = .parameter) (value : Value) :
      Evolves D b m { m with scopes := (m.scopes.assign? name value).getD m.scopes }
  | allocate {b m} (object : Instance) : Evolves D b m { m with heap := m.heap.push object }
  | modify {b m} {ref : SessionRef} {object : Instance} {name change fields}
      (found : m.heap[ref.id]?.getD (Instance.empty ref.name) = object)
      (changed : object.fields.modify? (ε := RuntimeError) name change = some (.ok fields)) :
      Evolves D b m { m with heap := m.heap.setIfInBounds ref.id { object with fields } }
  | outside {b m} (events : Array Event) (input : List String) (capacity : Option Nat)
      (failures : List AssertionFailure) (signal : Location) :
      Evolves D b m { m with events, input, capacity, failures, signal }
  | link {b m} (key : FileKey) : Evolves D b m { m with linked := key :: m.linked }
  | session {m decl} {ref : SessionRef} (effective : D (.session decl) (m.knowSession decl ref)) :
      Evolves D true m (m.knowSession decl ref)
  | tranceify {m decl} (effective : D (.tranceify decl) (m.knowRecord decl)) :
      Evolves D true m (m.knowRecord decl)
  -- what is opened is closed again
  | inFrame {b m kind m'} (inside : Evolves D true (m.push kind) m') : Evolves D b m m'.pop
  | deeper {b m m'} (inside : Evolves D b m.deepen m') : Evolves D b m m'.rise
  | inDirectory {b m dir m'} (inside : Evolves D b (m.moved dir) m') :
      Evolves D b m (m'.moved m.baseDir)

namespace Machine.Evolves

variable {D D' : Stmt → Machine → Prop} {b : Bool} {m m' : Machine}

theorem weaken {b' : Bool} (h : Evolves D b m m') (hD : ∀ s m, D s m → D' s m)
    (hb : b = true → b' = true) : Evolves D' b' m m' := by
  induction h generalizing b' with
  | refl => exact .refl
  | trans _ _ ih ih' => exact (ih hb).trans (ih' hb)
  | define free =>
    obtain rfl := hb rfl
    exact .define free
  | assign found kind value => exact .assign found kind value
  | allocate object => exact .allocate object
  | modify found changed => exact .modify found changed
  | outside events input capacity failures signal =>
    exact .outside events input capacity failures signal
  | link key => exact .link key
  | session effective =>
    obtain rfl := hb rfl
    exact .session (hD _ _ effective)
  | tranceify effective =>
    obtain rfl := hb rfl
    exact .tranceify (hD _ _ effective)
  | inFrame _ ih => exact .inFrame (ih fun _ => rfl)
  | deeper _ ih => exact .deeper (ih hb)
  | inDirectory _ ih => exact .inDirectory (ih hb)

theorem mono (hD : ∀ s m, D s m → D' s m) (h : Evolves D b m m') :
    Evolves D' b m m' := h.weaken hD id

theorem binding (h : Evolves D b m m') : Evolves D true m m' :=
  h.weaken (fun _ _ hs => hs) fun _ => rfl

end Machine.Evolves

namespace Exec

variable {α β : Type}

/-! ## Steps that leave the machine alone -/

/-- A step that leaves the machine as it was, whether it is done or fails. It may be cut short if
`cut`. -/
def Reads (cut : Prop) (x : Exec α) : Prop := ∀ m, (x m).machine? = some m ∨ cut ∧ x m = .exhausted

namespace Reads

variable {cut : Prop}

theorem pure (a : α) : Reads cut (Pure.pure a : Exec α) := fun _ => .inl rfl

theorem throw (e : RuntimeError) : Reads cut (Exec.throw e : Exec α) := fun _ => .inl rfl

theorem fail (cause : RuntimeError.Cause) (loc : Location) : Reads cut (fail cause loc : Exec α) :=
  throw _

theorem ofExcept (a : Attempt α) : Reads cut (ofExcept a) := by
  cases a with
  | ok a => exact pure a
  | error e => exact throw e

theorem machine : Reads cut machine := fun _ => .inl rfl

theorem bind {x : Exec α} {f : α → Exec β} (hx : Reads cut x) (hf : ∀ a, Reads cut (f a)) :
    Reads cut (x >>= f) := by
  intro m
  simp only [Bind.bind, Exec.bind]
  cases hrun : x m with
  | done a m₁ =>
    obtain hend | ⟨-, hcut⟩ := hrun ▸ hx m
    · cases hend
      exact hf a m
    · cases hcut
  | failed e m₁ =>
    obtain hend | ⟨-, hcut⟩ := hrun ▸ hx m
    · exact .inl hend
    · cases hcut
  | exhausted =>
    obtain hend | ⟨hcut, -⟩ := hrun ▸ hx m
    · cases hend
    · exact .inr ⟨hcut, rfl⟩

theorem eq {x : Exec α} {m m' : Machine} (hx : Reads True x) (h : (x m).machine? = some m') :
    m' = m := by
  obtain hend | ⟨-, hcut⟩ := hx m
  · exact Option.some.inj (h.symm.trans hend)
  · rw [hcut] at h
    cases h

theorem done {x : Exec α} {a : α} {m m' : Machine} (hx : Reads True x) (h : x m = .done a m') :
    m' = m :=
  hx.eq (by rw [h]; rfl)

theorem resolve? (name : String) : Reads cut (resolve? name) := machine.bind fun _ => pure _

theorem object (ref : SessionRef) : Reads cut (object ref) := machine.bind fun _ => pure _

theorem staticObject (session member : String) (loc : Location) :
    Reads cut (staticObject session member loc) := by
  refine machine.bind fun m => ?_
  cases m.statics.find? session with
  | none => exact fail _ loc
  | some ref => exact (object ref).bind fun _ => pure _

theorem requireVisible (own : Instance) (session member : String) (viaThis : Bool)
    (loc : Location) : Reads cut (Exec.requireVisible own session member viaThis loc) := by
  unfold Exec.requireVisible
  split
  · exact fail _ loc
  · exact pure ()

theorem sessionMember (ref : SessionRef) (member : String) (viaThis : Bool) (loc : Location) :
    Reads cut (sessionMember ref member viaThis loc) := by
  refine (object ref).bind fun own => (requireVisible own _ member viaThis loc).bind fun _ => ?_
  cases own.member? member with
  | some value => exact pure value
  | none =>
    refine (staticObject own.name member loc).bind fun found =>
      (requireVisible found.2 own.name member viaThis loc).bind fun _ => ?_
    cases found.2.member? member with
    | some value => exact pure value
    | none => exact fail _ loc

theorem memberValue (target : Value) (member : String) (viaThis : Bool) (loc : Location) :
    Reads cut (Exec.memberValue target member viaThis loc) := by
  cases target with
  | record typeName fields =>
    unfold Exec.memberValue
    simp only
    cases Table.find? fields member with
    | some value => exact pure value
    | none => exact fail _ loc
  | session ref => exact sessionMember ref member viaThis loc
  | _ => exact fail _ loc

theorem receiver (ref : SessionRef) (method : Suggestion) :
    Reads cut (Exec.receiver ref method) := by
  unfold Exec.receiver
  split
  · exact machine.bind fun _ => pure _
  · exact pure ref

theorem requireDepth (limit : Nat) (loc : Location) : Reads cut (requireDepth limit loc) := by
  refine machine.bind fun m => ?_
  split
  · exact fail _ loc
  · exact pure ()

theorem onlyArgument (name : String) (args : List Value) (loc : Location) :
    Reads cut (Exec.onlyArgument name args loc) := by
  unfold Exec.onlyArgument
  split
  · exact pure _
  · exact fail _ loc

theorem nameValue (name : String) (loc : Location) : Reads cut (nameValue name loc) := by
  refine (resolve? name).bind fun symbol => ?_
  split
  · exact fail _ loc
  · split
    · exact pure _
    · exact fail _ loc
    · exact pure _

theorem rejectEscape (flow : Flow) : Reads cut (rejectEscape flow) := by
  refine machine.bind fun m => ?_
  cases flow with
  | normal | awaken => exact pure ()
  | snap | sink | jump => exact fail _ m.signal

end Reads

/-! ## Steps that evolve the machine -/

section

variable {D D' : Stmt → Machine → Prop} {b : Bool} {m : Machine} {x : Exec α}

/-- A step that takes the machine only where it can evolve to, whether it is done or fails. -/
def Develops (D : Stmt → Machine → Prop) (b : Bool) (m : Machine) (x : Exec α) : Prop :=
  ∀ m', (x m).machine? = some m' → m.Evolves D b m'

theorem Develops.done (h : Develops D b m x) {a : α} {m' : Machine} (hrun : x m = .done a m') :
    m.Evolves D b m' :=
  h m' (by rw [hrun]; rfl)

theorem Develops.mono (hD : ∀ s m, D s m → D' s m) (h : Develops D b m x) : Develops D' b m x :=
  fun m' hm' => (h m' hm').mono hD

end

/-- A step that comes to an end where the machine can evolve to, and notes no failure of an
assertion. -/
def Changes (D : Stmt → Machine → Prop) (b : Bool) (m : Machine) (x : Exec α) : Prop :=
  ∃ m', (x m).machine? = some m' ∧ m.Evolves D b m' ∧ m'.failures = m.failures

namespace Changes

variable {D : Stmt → Machine → Prop} {b : Bool} {m : Machine} {x : Exec α}

theorem develops (h : Changes D b m x) : Develops D b m x := by
  intro m' hm'
  obtain ⟨m₁, hend, hevolves, -⟩ := h
  rw [hend] at hm'
  cases hm'
  exact hevolves

theorem reads (h : Reads False x) : Changes D b m x := by
  obtain hend | ⟨hcut, -⟩ := h m
  · exact ⟨m, hend, .refl, rfl⟩
  · exact hcut.elim

theorem pure (a : α) : Changes D b m (Pure.pure a : Exec α) := reads (.pure a)

theorem fail (cause : RuntimeError.Cause) (loc : Location) :
    Changes D b m (fail cause loc : Exec α) :=
  reads (.fail cause loc)

/-- One step after another. The second one starts where the first has left the machine. -/
theorem bind {f : α → Exec β} (hx : Changes D b m x)
    (hf : ∀ a m₁, x m = .done a m₁ → Changes D b m₁ (f a)) : Changes D b m (x >>= f) := by
  obtain ⟨m₁, hend, hevolves, hnoted⟩ := hx
  simp only [Changes, Bind.bind, Exec.bind]
  cases hrun : x m with
  | done a m₂ =>
    rw [hrun] at hend
    cases hend
    obtain ⟨m₂, hend, hevolves', hnoted'⟩ := hf a m₁ hrun
    exact ⟨m₂, hend, hevolves.trans hevolves', hnoted'.trans hnoted⟩
  | failed e m₂ =>
    rw [hrun] at hend
    exact ⟨m₁, hend, hevolves, hnoted⟩
  | exhausted =>
    rw [hrun] at hend
    cases hend

theorem after {f : α → Exec β} (hx : Reads False x)
    (hf : ∀ a, x m = .done a m → Changes D b m (f a)) : Changes D b m (x >>= f) :=
  (reads hx).bind fun a m₁ hrun => by
    have hend := hx m
    simp only [hrun, false_and, or_false] at hend
    cases hend
    exact hf a hrun

theorem machine {f : Machine → Exec β} (hf : Changes D b m (f m)) : Changes D b m (machine >>= f) :=
  after .machine fun _ hrun => by
    cases hrun
    exact hf

theorem update {change : Machine → Machine} (h : m.Evolves D b (change m))
    (hnoted : (change m).failures = m.failures) : Changes D b m (update change) :=
  ⟨change m, rfl, h, hnoted⟩

/-! ## The machine -/

theorem define (symbol : Symbol) (loc : Location) : Changes D true m (define symbol loc) := by
  refine machine ?_
  cases hdefine : m.scopes.define? symbol with
  | none => exact fail _ loc
  | some scopes => exact update (.define hdefine) rfl

theorem allocate (object : Instance) : Changes D b m (allocate object) :=
  machine <| (update (.allocate object) rfl).bind fun _ _ _ => pure _

theorem writeLine (text : String) : Changes D b m (writeLine text) := by
  refine machine ?_
  split
  · exact update (.outside _ m.input m.capacity m.failures m.signal) rfl
  · exact reads (.throw _)
  · exact update (.outside _ m.input _ m.failures m.signal) rfl

theorem makeJump (flow : Flow) (loc : Location) : Changes D b m (makeJump flow loc) :=
  (update (.outside m.events m.input m.capacity m.failures loc) rfl).bind fun _ _ _ => pure flow

theorem readLine (prompt : String) : Changes D b m (readLine prompt) := by
  refine (update (.outside _ m.input m.capacity m.failures m.signal) rfl).bind fun _ m₁ _ =>
    machine ?_
  split
  · exact pure _
  · exact (update (.outside m₁.events _ m₁.capacity m₁.failures m₁.signal) rfl).bind fun _ _ _ =>
      pure _

theorem modifyVariable (name : String) (nameLoc loc : Location) (change : Value → Attempt Value) :
    Changes D b m (Exec.modifyVariable name nameLoc loc change) := by
  refine after (.resolve? name) fun symbol hsymbol => ?_
  cases symbol with
  | none => exact fail _ nameLoc
  | some symbol =>
    have hfound : m.scopes.resolve? name = some symbol := by
      cases hresolve : m.scopes.resolve? name with
      | none =>
        simp [Exec.resolve?, Bind.bind, Exec.bind, Exec.machine, hresolve, Pure.pure, Exec.pure]
          at hsymbol
      | some other =>
        simpa [Exec.resolve?, Bind.bind, Exec.bind, Exec.machine, hresolve, Pure.pure, Exec.pure]
          using hsymbol
    simp only
    split
    · exact fail _ loc
    · rename_i hkind
      refine after (.ofExcept _) fun value _ => update (.assign hfound ?_ value) rfl
      simpa [Decidable.or_iff_not_imp_left] using hkind

theorem modifyField {ref : SessionRef} {object : Instance} (name : String)
    (change : Value → Attempt Value)
    (hobject : m.heap[ref.id]?.getD (Instance.empty ref.name) = object) :
    Changes D b m (Exec.modifyField ref object name change) := by
  unfold Exec.modifyField
  cases hchange : object.fields.modify? name change with
  | none => exact pure false
  | some fields =>
    cases fields with
    | error e => exact after (.ofExcept _) fun _ h => nomatch h
    | ok fields => exact (update (.modify hobject hchange) rfl).bind fun _ _ _ => pure true

theorem object {f : Instance → Exec β} {ref : SessionRef}
    (hf : ∀ own, m.heap[ref.id]?.getD (Instance.empty ref.name) = own → Changes D b m (f own)) :
    Changes D b m (Exec.object ref >>= f) :=
  after (.object ref) fun own hown => by
    simp only [Exec.object, Bind.bind, Exec.bind, Exec.machine, Pure.pure, Exec.pure,
      Outcome.done.injEq, and_true] at hown
    exact hf own hown

theorem staticObject {f : SessionRef × Instance → Exec β} (session member : String) (loc : Location)
    (hf : ∀ ref shared, m.heap[ref.id]?.getD (Instance.empty ref.name) = shared →
      Changes D b m (f (ref, shared))) :
    Changes D b m (Exec.staticObject session member loc >>= f) := by
  refine after (.staticObject session member loc) fun found hfound => ?_
  simp only [Exec.staticObject, Bind.bind, Exec.bind, Exec.machine] at hfound
  cases hstatics : m.statics.find? session with
  | none => simp [hstatics, Exec.fail, Exec.throw] at hfound
  | some ref =>
    simp only [hstatics, Exec.object, Bind.bind, Exec.bind, Exec.machine, Pure.pure, Exec.pure,
      Outcome.done.injEq, and_true] at hfound
    subst hfound
    exact hf ref _ rfl

theorem modifySession (ref : SessionRef) (name : String) (viaThis : Bool) (loc : Location)
    (change : SessionRef → Value → Attempt Value) :
    Changes D b m (modifySession ref name viaThis loc change) := by
  refine object fun own hown => after (.requireVisible own _ name viaThis loc) fun _ _ =>
    (modifyField name (change ref) hown).bind fun changed m₁ _ => ?_
  cases changed with
  | true => exact pure ()
  | false =>
    refine staticObject own.name name loc fun ref shared hshared =>
      after (.requireVisible shared _ name viaThis loc) fun _ _ =>
        (modifyField name (change ref) hshared).bind fun changed _ _ => ?_
    cases changed with
    | true => exact pure ()
    | false => exact fail _ loc

theorem modifyPlace (place : Place) (loc : Location) (change : Value → Attempt Value) :
    Changes D b m (Exec.modifyPlace place loc change) := by
  unfold Exec.modifyPlace
  split
  · exact modifyVariable _ _ loc _
  · exact modifySession _ _ _ loc _

theorem intrinsic (name : String) (args : List Value) (loc : Location) :
    Changes D b m (Exec.intrinsic name args loc) := by
  unfold Exec.intrinsic
  split
  · refine after (.onlyArgument name args loc) fun arg _ => after (.ofExcept _) fun time _ => ?_
    exact (update (.outside _ m.input m.capacity m.failures m.signal) rfl).bind fun _ _ _ => pure _
  split
  · exact after (.onlyArgument name args loc) fun arg _ => (writeLine _).bind fun _ _ _ => pure _
  · exact fail _ loc

theorem bindThis (receiver : Option SessionRef) : Changes D true m (bindThis receiver) := by
  cases receiver with
  | none => exact pure ()
  | some ref =>
    refine update ?_ rfl
    generalize hdefine : m.scopes.define? _ = scopes
    cases scopes with
    | none => exact .refl
    | some scopes => exact .define hdefine

theorem bindParams (loc : Location) (params : List (Param × Value)) :
    Changes D true m (bindParams loc params) := by
  induction params generalizing m with
  | nil => exact pure ()
  | cons param rest ih => exact (define _ loc).bind fun _ _ _ => ih

theorem readExternal (decl : Variable) : Changes D b m (readExternal decl) := by
  refine (readLine _).bind fun line m₁ _ => ?_
  cases line with
  | none => exact fail _ _
  | some line => exact reads (.ofExcept _)

end Changes

end Exec

end Trance
