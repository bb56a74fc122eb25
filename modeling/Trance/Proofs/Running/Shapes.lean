import Trance.Proofs.Running.Custody

/-!
# Shapes never change

An object keeps the shape that it was made with: its name, the names of its fields, its methods and
what it conceals. Only the values of its fields change. And a record has the fields of its
declaration, in order, wherever it sits: in a variable, inside of other values, in a field of an
object, as an argument or as a result. -/

namespace Trance

open List

/-! ## Values of a state -/

/-- All values that names are bound to. -/
def Scopes.values (s : Scopes) : List Value :=
  (s.frames.flatMap Frame.bindings ++ s.globals).filterMap Symbol.value

/-- All values of a machine: those that names are bound to, and those of the fields of objects. -/
def Machine.values (m : Machine) : List Value :=
  m.scopes.values ++ m.heap.toList.flatMap fun object => object.fields.map Prod.snd

def Flow.values : Flow → List Value
  | .awaken v => [v]
  | .normal | .snap _ | .sink _ | .jump .. => []

theorem Flow.eq_awaken_of_mem {flow : Flow} {v : Value} (h : v ∈ flow.values) :
    flow = .awaken v := by
  cases flow with
  | awaken w =>
    obtain rfl := mem_singleton.1 h
    rfl
  | normal | snap | sink | jump => cases h

def Place.Step.value? : Place.Step → Option Value
  | .index v => some v
  | .field _ => none

/-- The values that a task is given: arguments, and the fields of an object that is built. -/
def Task.given : Task → List Value
  | instantiate _ args _ | call _ args _ _ | body _ args _ => args
  | statics object _ | members _ object _ => object.fields.map Prod.snd
  | _ => []

def Task.returned : (task : Task) → task.Result → List Value
  | eval _ | detached _ | record .. | default .. | instantiate .. | call .. => fun v : Value => [v]
  | values _ => fun vs : List Value => vs
  | place .. => fun place : Place => place.path.filterMap Place.Step.value?
  | fields .. => fun fields : List (String × Value) => fields.map Prod.snd
  | statics .. | members .. => fun object : Instance => object.fields.map Prod.snd
  | body .. | exec _ | block _ | list .. | rounds .. | entrances _ | main .. => Flow.values
  | declare _ | induce _ | link .. | merge _ | program _ | hoist _ | follow _ => fun _ => []

/-- The values that the outcome of a task holds besides the machine. -/
def Task.outcomeValues (task : Task) : Outcome task.Result → List Value
  | .done result _ => task.returned result
  | .failed .. | .exhausted => []

/-! ## What is declared -/

/-- A record has the fields of a declaration of the program or of a linked file, in order. -/
def Program.Fits (files : Store) (p : Program) (linked : List FileKey) (v : Value) : Prop :=
  ∀ typeName fields, v = .record typeName fields →
    ∃ decl, p.Loaded files linked (.tranceify decl) ∧ decl.name = typeName ∧
      fields.map Prod.fst = decl.members.map Variable.name

/-- The objects of a machine have the shapes that sessions of the program or of a linked file
declare, and all records, of the machine or among other values, have the fields that are declared.
-/
structure Program.Governs (files : Store) (p : Program) (m : Machine) (values : List Value) :
    Prop where
  objects : ∀ (id : Nat) (object : Instance), m.heap[id]? = some object →
    ∃ decl shared, p.Loaded files m.linked (.session decl) ∧ object.shape = decl.shape shared
  records : ∀ v ∈ m.values ++ values, v.Every (p.Fits files m.linked)

/-! ## Sound machines -/

section

variable {files : Store} {src : Sources files} {m : Machine}

theorem Sources.Sound.good (hm : src.Sound m) : ∀ v ∈ m.values, src.Good m v := by
  intro v hv
  simp only [Machine.values, Scopes.values, mem_append, mem_filterMap, mem_flatMap] at hv
  obtain ⟨symbol, ⟨frame, hframe, hsymbol⟩ | hsymbol, hvalue⟩ | ⟨object, hobject, hfield⟩ := hv
  · exact (hm.scopes.frames frame hframe symbol hsymbol).value v hvalue
  · exact (hm.scopes.globals symbol hsymbol).value v hvalue
  · obtain ⟨id, hid⟩ := mem_iff_getElem?.1 hobject
    obtain ⟨field, hmem, rfl⟩ := mem_map.1 hfield
    exact hm.fields id object (by simpa using hid) field hmem

theorem Task.Sourced.given {task : Task} (h : task.Sourced src m) :
    ∀ v ∈ task.given, src.Good m v := by
  cases task with
  | instantiate => exact h
  | call | body => exact h.2.1
  | statics | members =>
    intro v hv
    obtain ⟨field, hfield, rfl⟩ := mem_map.1 hv
    exact h.1 field hfield
  | _ => exact fun _ hv => absurd hv not_mem_nil

theorem Task.Returns.returned {task : Task} {result : task.Result} (h : task.Returns src m result) :
    ∀ v ∈ task.returned result, src.Good m v := by
  cases task with
  | eval | detached | record | default | instantiate | call =>
    intro v hv
    obtain rfl := mem_singleton.1 hv
    exact h
  | values => exact h
  | place =>
    intro v hv
    obtain ⟨step, hstep, hvalue⟩ := mem_filterMap.1 hv
    cases step with
    | index w =>
      cases hvalue
      exact h.2.2 v hstep
    | field => cases hvalue
  | fields | statics | members =>
    intro v hv
    obtain ⟨field, hfield, rfl⟩ := mem_map.1 hv
    exact h.2 field hfield
  | body | exec | block | list | rounds | entrances | main =>
    intro v hv
    have hflow : result = .awaken v := Flow.eq_awaken_of_mem hv
    exact h v hflow
  | _ => exact fun _ hv => absurd hv not_mem_nil

theorem Sources.Sound.governs {p : Program} {reserved : String → Prop}
    {hspares : ∀ name, reserved name → p.Spares files name}
    (hm : (p.sources files reserved hspares).Sound m) {values : List Value}
    (hvalues : ∀ v ∈ values, (p.sources files reserved hspares).Good m v) :
    p.Governs files m values := by
  refine ⟨hm.shapes, fun v hv => ?_⟩
  have hgood : (p.sources files reserved hspares).Good m v :=
    (mem_append.1 hv).elim (hm.good v) (hvalues v)
  refine hgood.imp fun part hpart => ?_
  rintro typeName fields rfl
  exact hpart

end

/-! ## Shapes are kept -/

/-- **No change of a machine changes the shape of an object.** -/
theorem Machine.Evolves.keepsShapes {D : Stmt → Machine → Prop} {b : Bool} {m m' : Machine}
    (h : m.Evolves D b m') : m.KeepsShapes m' := by
  induction h with
  | refl | define | assign | outside | link | session | tranceify => exact .refl _
  | trans _ _ ih ih' => exact ih.trans ih'
  | allocate object => exact fun id old hold => ⟨old, Sources.getElem?_push_of_some hold, rfl⟩
  | @modify b m ref object name change fields found changed =>
    intro id old hold
    simp only [Array.getElem?_setIfInBounds]
    by_cases hid : ref.id = id
    · subst hid
      obtain rfl : old = object := by simpa [hold] using found
      refine ⟨{ old with fields }, ?_, ?_⟩
      · simpa using (Array.getElem?_eq_some_iff.1 hold).1
      · simp only [Instance.shape, Table.names_modify? changed]
    · exact ⟨old, by simp [hid, hold], rfl⟩
  | inFrame _ ih | deeper _ ih | inDirectory _ ih => exact ih

theorem Machine.Precedes.keepsShapes {limit : Nat} {m m' : Machine} (h : m.Precedes limit m') :
    m.KeepsShapes m' := by
  induction h with
  | evolves h => exact h.keepsShapes
  | trans _ _ ih ih' => exact ih.trans ih'
  | frame | deeper | directory => exact .refl _

/-- **Shapes never change.** Whatever a run is busy with on whatever machine, no object loses its
shape: not until anything that is started on the way, and not until it is done or has failed.

In a run of a program, whatever it comes to: on the machine where something is started, and on the
one that it leaves behind, each object has exactly the name, the fields, the methods and the
concealed members that a session of the program, or of a file that is linked by then, declares, for
new objects or for the object that the name of the session stands for. And each record, in a
variable, in a field of an object, inside of another value, among arguments or in a result, has the
fields of a record type with its name that the program or a file linked by then declares, in order.
-/
theorem shapes_as_declared_along_runs (cfg : Settings) :
    (∀ v w : Visit, v.Reaches cfg w → v.machine.KeepsShapes w.machine) ∧
    (∀ (v : Visit) (m' : Machine), (v.task.step cfg v.bound v.machine).machine? = some m' →
      v.machine.KeepsShapes m') ∧
    ∀ (bound : Nat) (p : Program) (m : Machine) (w : Visit), Visit.Reaches cfg
      ⟨bound, .program p, m.reset⟩ w →
      p.Governs cfg.files w.machine w.task.given ∧
      ∀ m', (w.task.step cfg w.bound w.machine).machine? = some m' →
        p.Governs cfg.files m' (w.task.outcomeValues (w.task.step cfg w.bound w.machine)) := by
  refine ⟨fun v w h => (Visit.precedes_of_reaches h).keepsShapes, fun v m' h =>
    ?_, fun bound p m w h => ?_⟩
  · exact (Task.develops cfg v.bound v.task v.machine m' h).keepsShapes
  have hw := Program.sourced_of_reaches h
  refine ⟨hw.sound.governs (Task.Sourced.given hw.task), fun m' hm' => ?_⟩
  have hkeeps := w.keeps (p.plainSources cfg.files) hw fun _ h => h
  cases hrun : w.task.step cfg w.bound w.machine with
  | done result after =>
    obtain ⟨-, hafter, hresult⟩ := hkeeps.done hrun
    obtain rfl : after = m' := by simpa [hrun, Outcome.machine?] using hm'
    exact hafter.governs (Task.Returns.returned hresult)
  | failed e after =>
    obtain ⟨-, hafter, -⟩ := hkeeps.failed hrun
    obtain rfl : after = m' := by simpa [hrun, Outcome.machine?] using hm'
    exact hafter.governs fun _ hv => absurd hv not_mem_nil
  | exhausted => simp [hrun, Outcome.machine?] at hm'

/-- A method that writes inside of a record in a concealed field. -/
def Suggestion.move : Suggestion :=
  ⟨"move", [], none,
    [.expr (.assign (.field (.field (.name "this" ⟨4, 5⟩) "at" ⟨4, 9⟩) "x" ⟨4, 12⟩)
      (.number 5.0 ⟨4, 17⟩)
      ⟨4, 15⟩) ⟨4, 5⟩],
    false, false, ⟨3, 10⟩, .main⟩

/-- A point, a session with a point in a concealed field, and a call of its method. -/
def Program.movingDot : Program :=
  ⟨[.tranceify ⟨"Point", [⟨"x", some "number", .unset, ⟨1, 20⟩⟩,
    ⟨"y", some "number", .unset, ⟨1, 31⟩⟩], ⟨1, 1⟩⟩,
    .session ⟨"Dot",
      [⟨.field ⟨"at", none,
        .value (.record "Point" [("x", .number 1.0 ⟨2, 40⟩), ("y", .number 2.0 ⟨2, 46⟩)]
          ⟨2, 30⟩), ⟨2, 20⟩⟩, false, false⟩,
        ⟨.method Suggestion.move, true, false⟩], ⟨2, 1⟩⟩,
    .induce ⟨"d", none, .value (.call (.name "Dot" ⟨6, 12⟩) [] ⟨6, 15⟩), ⟨6, 1⟩⟩,
    .expr (.call (.field (.name "d" ⟨7, 1⟩) "move" ⟨7, 2⟩) [] ⟨7, 7⟩) ⟨7, 1⟩]⟩

/-- The call changes the point, but neither the shape of the session nor the fields of the point. -/
theorem Program.movingDot_shapes : ∃ m m' : Machine,
    Visit.Reaches ⟨.empty, 256⟩ ⟨20, .program movingDot, (Machine.new "" [] none).reset⟩
      ⟨18, .call Suggestion.move [] (some ⟨1, "Dot"⟩) ⟨7, 7⟩, m⟩ ∧
    Exec.call ⟨.empty, 256⟩ 18 Suggestion.move [] (some ⟨1, "Dot"⟩) ⟨7, 7⟩ m = .done .null m' ∧
    m.heap[1]?.map Instance.fields =
      some [("at", .record "Point" [("x", .number 1.0), ("y", .number 2.0)])] ∧
    m'.heap[1]?.map Instance.fields =
      some [("at", .record "Point" [("x", .number 5.0), ("y", .number 2.0)])] ∧
    m.KeepsShapes m' ∧ movingDot.Governs .empty m' [.null] := by
  obtain ⟨m, m', hreaches, hcall, hbefore, hafter⟩ : ∃ m m' : Machine,
      Visit.Reaches ⟨.empty, 256⟩ ⟨20, .program movingDot, (Machine.new "" [] none).reset⟩
        ⟨18, .call Suggestion.move [] (some ⟨1, "Dot"⟩) ⟨7, 7⟩, m⟩ ∧
      Exec.call ⟨.empty, 256⟩ 18 Suggestion.move [] (some ⟨1, "Dot"⟩) ⟨7, 7⟩ m = .done .null m' ∧
      m.heap[1]?.map Instance.fields =
        some [("at", .record "Point" [("x", .number 1.0), ("y", .number 2.0)])] ∧
      m'.heap[1]?.map Instance.fields =
        some [("at", .record "Point" [("x", .number 5.0), ("y", .number 2.0)])] :=
    ⟨_, _, .head (.starting rfl rfl rfl nofun) <| .head (.mainNext rfl) <| .head (.mainNext rfl) <|
      .head (.mainNext rfl) <| .head (.mainHead rfl) <| .head .performed <|
      .single (.methodCall rfl rfl rfl rfl), rfl, rfl, rfl⟩
  let v : Visit := ⟨18, .call Suggestion.move [] (some ⟨1, "Dot"⟩) ⟨7, 7⟩, m⟩
  have hrun : v.task.step ⟨.empty, 256⟩ 18 m = .done .null m' := hcall
  have hmachine : (v.task.step ⟨.empty, 256⟩ 18 m).machine? = some m' := by
    rw [hrun]
    rfl
  obtain ⟨-, hkeeps, hgoverns⟩ := shapes_as_declared_along_runs ⟨.empty, 256⟩
  have hresult := (hgoverns 20 movingDot _ v hreaches).2 m' hmachine
  rw [hrun] at hresult
  exact ⟨m, m', hreaches, hcall, hbefore, hafter, hkeeps v m' hmachine, hresult⟩

end Trance
