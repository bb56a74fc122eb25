import Trance.Proofs.Running.Keeping

/-!
# What is started is sound again

A visit whose task comes from the sources, on a sound machine, starts only such visits, as long as
what it has started before has left sound machines behind. On the way to what is started the machine
continues, and at most one frame is opened; in that frame a reserved name is bound only if it is the
session that a method is called on. -/

namespace Trance

open List Exec Sources Visit

theorem Stmt.mem_of_afterLabel? {label : String} {all behind : List Stmt}
    (h : afterLabel? label all = some behind) : ∀ s ∈ behind, s ∈ all := by
  induction all with
  | nil => cases h
  | cons first rest ih =>
    intro s hs
    rw [afterLabel?_cons] at h
    split at h
    · cases h
      exact mem_cons_of_mem _ hs
    · exact mem_cons_of_mem _ (ih h s hs)

/-- A way to end whose value, if it has one, comes from the sources. -/
def Sources.Yields {files : Store} (src : Sources files) (m : Machine) (flow : Flow) : Prop :=
  ∀ v, flow = .awaken v → src.Good m v

namespace Task

variable {files : Store} (src : Sources files)

def Sourced (m : Machine) : Task → Prop
  | eval e | detached e | place _ e => src.HasExpr m.linked e
  | values exprs => ∀ e ∈ exprs, src.HasExpr m.linked e
  | record typeName given loc =>
    (∀ field ∈ given, src.HasExpr m.linked field.2) ∧
    (m.records.find? typeName = none → ∃ given, src.HasExpr m.linked (.record typeName given loc))
  | fields given rest =>
    (∀ field ∈ given, src.HasExpr m.linked field.2) ∧
    ∀ member ∈ rest, ∀ e, member.start = .value e → src.HasExpr m.linked e
  | default .. => True
  | statics object rest | members _ object rest =>
    (∀ field ∈ object.fields, src.Good m field.2) ∧
    ∀ member ∈ rest, ∀ e ∈ member.exprs, src.HasExpr m.linked e
  | instantiate _ args _ => ∀ v ∈ args, src.Good m v
  | call decl args receiver _ | body decl args receiver =>
    src.Callable m.linked decl ∧ (∀ v ∈ args, src.Good m v) ∧
    ∀ ref, receiver = some ref → src.Admits m (.session ref)
  | exec s | declare s => src.Has m.linked s
  | induce decl => src.Has m.linked (.induce decl)
  | block rest | merge rest | hoist rest | follow rest | entrances rest =>
    ∀ s ∈ rest, src.Has m.linked s
  | list all rest _ | main all rest _ => (∀ s ∈ all, src.Has m.linked s) ∧
    ∀ s ∈ rest, src.Has m.linked s
  | rounds cond step stmts _ =>
    (∀ e, cond = some e → src.HasExpr m.linked e) ∧ (∀ e, step = some e → src.HasExpr m.linked e) ∧
    ∀ s ∈ stmts, src.Has m.linked s
  | link path _ => ∃ at', src.Has m.linked (.mindLink path at')
  | program p => ∀ s ∈ p.statements, src.Has m.linked s

/-- What is true of the result of a task. The root of a place is a variable that is assigned
directly only if the place is a name, or a field of a session that exists; an object that is built
has got the shapes of its members. -/
def Returns : (task : Task) → Machine → task.Result → Prop
  | eval _ | detached _ | record .. | default .. | instantiate .. | call .. => src.Good
  | values _ => fun m (vs : List Value) => ∀ v ∈ vs, src.Good m v
  | place _ target => fun m (place : Place) =>
    (∀ name at', place.root = .variable name at' → place.path = [] → target = .name name at') ∧
    (∀ ref name viaThis, place.root = .field ref name viaThis → src.Admits m (.session ref)) ∧
    ∀ v, .index v ∈ place.path → src.Good m v
  | fields _ rest => fun m (fields : List (String × Value)) =>
    Table.names fields = rest.map Variable.name ∧ ∀ field ∈ fields, src.Good m field.2
  | statics object rest => fun m (built : Instance) =>
    built.shape = rest.foldl (.add true) object.shape ∧ ∀ field ∈ built.fields, src.Good m field.2
  | members _ object rest => fun m (built : Instance) =>
    built.shape = rest.foldl (.add false) object.shape ∧ ∀ field ∈ built.fields, src.Good m field.2
  | body .. | exec _ | block _ | list .. | rounds .. | entrances _ | main .. => src.Yields
  | declare _ | induce _ | link .. | merge _ | program _ | hoist _ | follow _ => fun _ _ => True

variable {src}

variable {m : Machine}

theorem sourced_mono (task : Task) {m' : Machine} (hc : src.Continues m m')
    (h : task.Sourced src m) : task.Sourced src m' := by
  have hexpr : ∀ {e}, src.HasExpr m.linked e → src.HasExpr m'.linked e := fun h => h.mono hc.linked
  have hstmts : ∀ {stmts : List Stmt}, (∀ s ∈ stmts, src.Has m.linked s) →
      ∀ s ∈ stmts, src.Has m'.linked s := fun h s hs => src.mono hc.linked (h s hs)
  cases task with
  | eval | detached | place => exact hexpr h
  | values => exact fun e he => hexpr (h e he)
  | record typeName given loc =>
    refine ⟨fun field hfield => hexpr (h.1 field hfield), fun hnone => ?_⟩
    have hbefore : m.records.find? typeName = none := by
      by_contra hknown
      have hlater := hc.records typeName (Option.isSome_iff_ne_none.2 hknown)
      simp [Table.has, hnone] at hlater
    obtain ⟨other, hother⟩ := h.2 hbefore
    exact ⟨other, hexpr hother⟩
  | fields =>
    exact ⟨fun field hfield => hexpr (h.1 field hfield), fun member hmember e he =>
      hexpr (h.2 member hmember e he)⟩
  | default => trivial
  | statics | members =>
    exact ⟨fun field hfield => (h.1 field hfield).mono hc.toGrows,
      fun member hmember e he => hexpr (h.2 member hmember e he)⟩
  | instantiate => exact fun v hv => (h v hv).mono hc.toGrows
  | call | body =>
    exact ⟨h.1.mono hc.linked, fun v hv => (h.2.1 v hv).mono hc.toGrows,
      fun ref href => (h.2.2 ref href).mono hc.toGrows⟩
  | exec | declare | induce => exact src.mono hc.linked h
  | block | merge | hoist | follow | entrances | program => exact hstmts h
  | list | main => exact ⟨hstmts h.1, hstmts h.2⟩
  | rounds => exact ⟨fun e he => hexpr (h.1 e he), fun e he => hexpr (h.2.1 e he), hstmts h.2.2⟩
  | link =>
    obtain ⟨at', hat⟩ := h
    exact ⟨at', src.mono hc.linked hat⟩

theorem sourced_own {decl : Session} (h : src.Has m.linked (.session decl)) (own : Member → Bool) :
    (∀ field ∈ (Instance.empty decl.name).fields, src.Good m field.2) ∧
    ∀ member ∈ decl.members.filter own, ∀ e ∈ member.exprs, src.HasExpr m.linked e := by
  refine ⟨fun _ hfield => absurd hfield not_mem_nil, fun member hmember e he => ?_⟩
  exact Sources.hasExpr h (mem_flatMap.2 ⟨member, (mem_filter.1 hmember).1, he⟩)

theorem sourced_rounds {init : Option Stmt} {cond step : Option Expr} {stmts : List Stmt}
    {loc : Location} (h : src.Has m.linked (.loop init cond step stmts loc)) (left : Nat) :
    Sourced src m (.rounds cond step stmts left) := by
  refine ⟨?_, ?_, fun s hs => src.child h (mem_append_right _ hs)⟩
  · rintro e rfl
    exact hasExpr h (mem_append_left _ (mem_singleton_self _))
  · rintro e rfl
    exact hasExpr h (mem_append_right _ (mem_singleton_self _))

/-- Whether a task binds the session that a method is called on in the frame where it is started. -/
def bindsThis : Task → Bool
  | body .. => true
  | _ => false

end Task

/-! ## From one visit to the next -/

section

variable {files : Store} (src : Sources files)

/-- The machine continues, and then a frame may be opened in which no reserved name is bound. -/
structure Sources.Leads (m m' : Machine) : Prop where
  grows : m.Grows m'
  reserved : ∀ name, src.Reserved name → m'.scopes.traces name = m.scopes.traces name ∨
    ∃ kind, m'.scopes.traces name = ((kind, none) :: (m.scopes.traces name).1,
      (m.scopes.traces name).2)

/-- A task that comes from the sources, on a sound machine. -/
structure Visit.Sourced (v : Visit) : Prop where
  sound : src.Sound v.machine
  task : v.task.Sourced src v.machine

/-- A visit starts another one, which is sound. The session that a method is called on is bound in
the frame of the body of the method. -/
structure Visit.Descends (v w : Visit) : Prop extends w.Sourced src where
  leads : (v.task.bindsThis = true → ¬ src.Reserved Expr.thisName) → src.Leads v.machine w.machine

variable {src} {m m' m'' : Machine}

theorem Sources.Continues.leads (h : src.Continues m m') : src.Leads m m' :=
  ⟨h.toGrows, fun name hname => .inl (h.reserved name hname)⟩

theorem Sources.Continues.leads_push (h : src.Continues m m') (kind : Frame.Kind) :
    src.Leads m (m'.push kind) := by
  refine ⟨⟨h.linked, h.shapes⟩, fun name hname => .inr ⟨kind, ?_⟩⟩
  rw [← h.reserved name hname]
  rfl

theorem Sources.Leads.place (h : src.Leads m m') (depth : Nat) (baseDir : String) :
    src.Leads m { m' with depth, baseDir } :=
  ⟨⟨h.grows.linked, h.grows.shapes⟩, h.reserved⟩

theorem Visit.Descends.on {v w : Visit} (hc : src.Continues v.machine w.machine)
    (hm : src.Sound w.machine) (h : w.task.Sourced src w.machine) : v.Descends src w :=
  ⟨⟨hm, h⟩, fun _ => hc.leads⟩

theorem Visit.Descends.here {n n' : Nat} {task task' : Task} (hm : src.Sound m)
    (h : task'.Sourced src m) : Descends src ⟨n, task, m⟩ ⟨n', task', m⟩ :=
  .on (.refl m) hm h

/-- What is started after a step has been done. It comes from the sources if it did before. -/
theorem Visit.Descends.after {α : Type} {Q : Machine → α → Prop} {x : Exec α} {a : α} {n n' : Nat}
    {task task' : Task} (hx : Exec.Keeps src m Q x) (done : x m = .done a m')
    (h : task'.Sourced src m) : Descends src ⟨n, task, m⟩ ⟨n', task', m'⟩ := by
  obtain ⟨hc, hm', _⟩ := hx.done done
  exact .on hc hm' (task'.sourced_mono hc h)

end

/-! ## What visits leave behind -/

section

variable {cfg : Settings}

/-- A visit leaves a sound machine behind, and what it results in comes from the sources. Of the
body of a suggestion, which binds the session that it is called on, this is asked if that name is
not reserved. -/
def Visit.Keeps (src : Sources cfg.files) (v : Visit) : Prop :=
  v.Sourced src → (v.task.bindsThis = true → ¬ src.Reserved Expr.thisName) →
    Exec.Keeps src v.machine (v.task.Returns src) (v.task.step cfg v.bound)

def Visit.Relies (src : Sources cfg.files) (v : Visit) : Prop :=
  ∀ w, Relation.TransGen (Starts cfg) v w → w.Keeps src

variable {src : Sources cfg.files} {v w : Visit}

theorem Visit.Descends.call {k : Nat} {decl : Suggestion} {args : List Value}
    {receiver : Option SessionRef} {loc : Location} {m m' : Machine} (hc : src.Continues v.machine m)
    (hc' : src.Continues m m') (hm : src.Sound m') (hdecl : src.Callable m.linked decl)
    (hargs : ∀ v ∈ args, src.Good m' v)
    (hreceiver : ∀ ref, receiver = some ref → src.Admits m' (.session ref)) :
    v.Descends src ⟨k, .call decl args receiver loc, m'⟩ :=
  .on (hc.trans hc') hm ⟨hdecl.mono hc'.linked, hargs, hreceiver⟩

namespace Visit.Relies

theorem keep (hk : v.Relies src) (edge : Starts cfg v w) (hw : w.Sourced src)
    (hbinds : w.task.bindsThis = false) :
    Exec.Keeps src w.machine (w.task.Returns src) (w.task.step cfg w.bound) :=
  hk w (.single edge) hw fun htrue => by simp [hbinds] at htrue

theorem next (hk : v.Relies src) (edge : Starts cfg v w) : w.Relies src :=
  fun u hu => hk u (.head edge hu)

/-! ### Steps that are no visits -/

section

variable {n : Nat} {m : Machine}

theorem recordField {given : List (String × Expr)} {member : Variable} {rest : List Variable}
    (hk : Relies src ⟨n, .fields given (member :: rest), m⟩)
    (hv : Sourced src ⟨n, .fields given (member :: rest), m⟩) :
    Exec.Keeps src m (fun m' field => field.1 = member.name ∧ src.Good m' field.2)
      (Exec.recordField (Exec.eval cfg n) given member) := by
  obtain ⟨hm, hgiven, hstart⟩ := hv
  unfold Exec.recordField
  split
  · rename_i e hfound
    exact (hk.keep (.fieldGiven hfound) ⟨hm, hgiven _ (Table.mem_of_find? hfound)⟩ rfl).bind
      fun v m₁ _ _ hm₁ hv => .pure hm₁ ⟨rfl, hv⟩
  · rename_i hmissing
    split
    · rename_i init hinit
      exact (hk.keep (.fieldStart hmissing hinit) ⟨hm, hstart _ mem_cons_self _ hinit⟩ rfl).bind
        fun v m₁ _ _ hm₁ hv => .pure hm₁ ⟨rfl, hv⟩
    · exact .pure hm ⟨rfl, good_null⟩

variable {object : Instance} {member : Member} {s : Stmt} {rest : List Stmt} {k : Nat}

theorem setField {m' : Machine} {name : String} {v : Value} (hg : m.Grows m')
    (hobject : ∀ field ∈ object.fields, src.Good m field.2) (hv : src.Good m' v) :
    ∀ field ∈ ((object.mark member).setField name v).fields, src.Good m' field.2 := by
  intro field hfield
  obtain rfl | hold := Table.mem_insert hfield
  · exact hv
  · exact (hobject field (by simpa using hold)).mono hg

theorem addStatic {rest : List Member} (hk : Relies src ⟨n, .statics object (member :: rest), m⟩)
    (hv : Sourced src ⟨n, .statics object (member :: rest), m⟩) :
    Exec.Keeps src m (Task.Returns src (.statics object [member]))
      (Exec.addStatic (Exec.eval cfg n) object member) := by
  obtain ⟨hm, hobject, hmembers⟩ := hv
  unfold Exec.addStatic
  simp only
  split
  · rename_i field hdecl
    have hshape : ∀ v, ((object.mark member).setField field.name v).shape =
        object.shape.add true member := fun v => by simp [Instance.Shape.add, hdecl]
    split
    · rename_i init hstart
      have hinit := hmembers _ mem_cons_self init
        (by simp [MemberOf.exprs, hdecl, hstart, Start.expr?])
      exact (hk.keep (.staticStart hdecl hstart) ⟨hm, hinit⟩ rfl).bind fun v m₁ _ hc hm₁ hv =>
        .pure hm₁ ⟨hshape v, setField hc.toGrows hobject hv⟩
    · exact .pure hm ⟨hshape .null, setField (.same rfl rfl) hobject good_null⟩
  · rename_i decl hdecl
    exact .pure hm ⟨by simp [Instance.Shape.add, hdecl], by simpa [Instance.setMethod] using hobject⟩

theorem addMember {loc : Location} {rest : List Member}
    (hk : Relies src ⟨n, .members loc object (member :: rest), m⟩)
    (hv : Sourced src ⟨n, .members loc object (member :: rest), m⟩) :
    Exec.Keeps src m (Task.Returns src (.members loc object [member]))
      (Exec.addMember (Exec.eval cfg n) loc object member) := by
  obtain ⟨hm, hobject, hmembers⟩ := hv
  unfold Exec.addMember
  simp only
  split
  · rename_i field hdecl
    have hshape : ∀ v, ((object.mark member).setField field.name v).shape =
        object.shape.add false member := fun v => by simp [Instance.Shape.add, hdecl]
    split
    · rename_i init hstart
      have hinit := hmembers _ mem_cons_self init
        (by simp [MemberOf.exprs, hdecl, hstart, Start.expr?])
      exact (hk.keep (.memberStart hdecl hstart) ⟨hm, hinit⟩ rfl).bind fun v m₁ _ hc hm₁ hv =>
        .pure hm₁ ⟨hshape v, setField hc.toGrows hobject hv⟩
    · rename_i hstart
      exact (hk.keep (.memberDefault hdecl hstart) ⟨hm, trivial⟩ rfl).bind fun v m₁ _ hc hm₁ hv =>
        .pure hm₁ ⟨hshape v, setField hc.toGrows hobject hv⟩
  · rename_i decl hdecl
    split
    · rename_i hname
      exact .pure hm ⟨by simp [Instance.Shape.add, hdecl, hname], by simpa using hobject⟩
    · rename_i hname
      exact .pure hm ⟨by simp [Instance.Shape.add, hdecl, hname],
        by simpa [Instance.setMethod] using hobject⟩

theorem buildInstance {name : String} {args : List Value} {loc : Location} {decl : Session}
    (hk : Relies src ⟨n, .instantiate name args loc, m⟩) (hm : src.Sound m)
    (found : m.sessions.find? name = some decl)
    (allowed : requireDepth cfg.maxDepth loc m = .done () m) :
    Exec.Keeps src m (fun m' object => object.shape = decl.shape false ∧
      ∀ field ∈ object.fields, src.Good m' field.2)
      (deeper (Exec.buildInstance (Exec.eval cfg n) decl loc)) := by
  obtain ⟨-, hdecl⟩ := hm.sessions _ _ found
  have hmembers := hk.keep (.build found allowed) ⟨hm.deepen, Task.sourced_own hdecl _⟩ rfl
  refine .deeper hmembers fun m' object hobject => ⟨?_, ?_⟩
  · rw [hobject.1, SessionOf.shape]
    simp
  · exact fun field hfield => (hobject.2 field hfield).mono (.same rfl rfl)

theorem mainStmt {all : List Stmt} (hk : Relies src ⟨n, .main all (s :: rest) (k + 1), m⟩)
    (hv : Sourced src ⟨n, .main all (s :: rest) (k + 1), m⟩) :
    Exec.Keeps src m src.Yields (Exec.mainStmt (Exec.exec cfg n) s) := by
  unfold Exec.mainStmt
  split
  · exact .pure hv.sound fun _ hv => by cases hv
  · rename_i hhere
    exact hk.keep (.mainHead (by simpa using hhere)) ⟨hv.sound, hv.task.2 _ mem_cons_self⟩ rfl

theorem holds {cond next : Option Expr} {stmts : List Stmt}
    (hk : Relies src ⟨n, .rounds cond next stmts (k + 1), m⟩)
    (hv : Sourced src ⟨n, .rounds cond next stmts (k + 1), m⟩) :
    Exec.Keeps src m (fun _ _ => True) (Exec.holds (Exec.eval cfg n) cond) := by
  cases cond with
  | none => exact .pure hv.sound trivial
  | some e =>
    exact (hk.keep .roundCond ⟨hv.sound, hv.task.1 e rfl⟩ rfl).bind fun _ _ _ _ hm₁ _ =>
      .pure hm₁ trivial

theorem perform {cond next : Option Expr} {stmts : List Stmt} {m₁ m₂ : Machine} {flow : Flow}
    (hk : Relies src ⟨n, .rounds cond next stmts (k + 1), m⟩)
    (held : Exec.holds (Exec.eval cfg n) cond m = .done true m₁)
    (done : Exec.block (Exec.exec cfg n) n stmts m₁ = .done flow m₂)
    (goesOn : flow = .normal ∨ ∃ loc, flow = .sink loc) (hm : src.Sound m₂)
    (hnext : ∀ e, next = some e → src.HasExpr m₂.linked e) :
    Exec.Keeps src m₂ (fun _ _ => True) (Exec.perform (Exec.eval cfg n) next) := by
  cases next with
  | none => exact .pure hm trivial
  | some e =>
    exact (hk.keep (.roundStep held done goesOn) ⟨hm, hnext e rfl⟩ rfl).bind fun _ _ _ _ hm₁ _ =>
      .pure hm₁ trivial

theorem mergeStmt (hk : Relies src ⟨n, .merge (s :: rest), m⟩)
    (hv : Sourced src ⟨n, .merge (s :: rest), m⟩) :
    Exec.Keeps src m (fun _ _ => True)
      (Exec.mergeStmt (Exec.eval cfg n) (Exec.link cfg n) s) := by
  obtain ⟨hm, hsourced⟩ := hv
  have hs := hsourced s mem_cons_self
  refine .machine ?_
  simp only
  split
  · exact .pure hm trivial
  rename_i hfree
  cases s with
  | mindLink path loc => exact hk.keep .mergeLink ⟨hm, loc, hs⟩ rfl
  | induce decl =>
    exact hk.keep (.mergeVariable (by simpa [Stmt.declaredName?] using hfree)) ⟨hm, hs⟩ rfl
  | suggestion | session | tranceify =>
    exact hk.keep (.mergeDeclaration rfl (by simpa using hfree)) ⟨hm, hs⟩ rfl
  | _ => exact .pure hm trivial

theorem followLink (hk : Relies src ⟨n, .follow (s :: rest), m⟩)
    (hv : Sourced src ⟨n, .follow (s :: rest), m⟩) :
    Exec.Keeps src m (fun _ _ => True) (Exec.followLink (Exec.link cfg n) s) := by
  cases s with
  | mindLink path loc => exact hk.keep .followed ⟨hv.sound, loc, hv.task _ mem_cons_self⟩ rfl
  | _ => exact .pure hv.sound trivial

end

/-! ### What is started -/

variable {m : Machine}

theorem bindParams (loc : Location) (params : List (Param × Value)) (hm : src.Sound m)
    (h : ∀ pair ∈ params, ¬ src.Reserved pair.1.name ∧ src.Good m pair.2) :
    Exec.Keeps src m (fun _ _ => True) (Exec.bindParams loc params) := by
  induction params generalizing m with
  | nil => exact .pure hm trivial
  | cons pair rest ih =>
    obtain ⟨⟨hfree, hv⟩, hrest⟩ := forall_mem_cons.1 h
    have hstands : src.Stands m ⟨pair.1.name, .parameter, pair.1.typeName, some pair.2⟩ := by
      refine ⟨?_, ?_, fun hreserved => absurd hreserved hfree⟩
      · rintro _ ⟨⟩
        exact hv
      · rintro ⟨⟩
    exact (Exec.Keeps.define hm hstands hfree).bind fun _ m₁ _ hc hm₁ _ =>
      ih hm₁ fun pair hpair => ⟨(hrest pair hpair).1, (hrest pair hpair).2.mono hc.toGrows⟩

theorem params_of_sourced {decl : Suggestion} {args : List Value} {receiver : Option SessionRef}
    {m₁ : Machine} (h : Task.Sourced src m (.body decl args receiver)) (hg : m.Grows m₁) :
    ∀ pair ∈ decl.params.zip args, ¬ src.Reserved pair.1.name ∧ src.Good m₁ pair.2 :=
  fun _ hpair => ⟨h.1.param _ (of_mem_zip hpair).1, (h.2.1 _ (of_mem_zip hpair).2).mono hg⟩

theorem descends_bodyList {n : Nat} {decl : Suggestion} {args : List Value}
    {receiver : Option SessionRef} {m₁ m₂ : Machine} (hm : src.Sound m)
    (h : Task.Sourced src m (.body decl args receiver))
    (this : bindThis receiver m = .done () m₁)
    (params : Exec.bindParams decl.location (decl.params.zip args) m₁ = .done () m₂) :
    Descends src ⟨n, .body decl args receiver, m⟩ ⟨n, .list decl.body decl.body n, m₂⟩ := by
  have hthis : src.Sound m₁ ∧ m.Grows m₁ ∧ (¬ src.Reserved Expr.thisName → src.Continues m m₁) := by
    cases receiver with
    | none =>
      cases this
      exact ⟨hm, .same rfl rfl, fun _ => .refl m⟩
    | some ref =>
      cases this
      have hstands := stands_this (h.2.2 ref rfl)
      dsimp only
      generalize hdefine : m.scopes.define? _ = scopes
      cases scopes with
      | none => exact ⟨hm, .same rfl rfl, fun _ => .refl m⟩
      | some scopes =>
        refine ⟨hm.place (hm.scopes.define? hstands hdefine) m.depth m.baseDir, .same rfl rfl,
          fun hfree => ?_⟩
        exact (hm.define hstands hfree hdefine).1
  obtain ⟨hm₁, hg₁, hc₁⟩ := hthis
  have hdecl : src.Callable m₁.linked decl := h.1.mono hg₁.linked
  obtain ⟨hc₂, hm₂, _⟩ := (bindParams decl.location _ hm₁ (params_of_sourced h hg₁)).done params
  refine ⟨⟨hm₂, ?_⟩, fun hfree => ((hc₁ (hfree rfl)).trans hc₂).leads⟩
  exact Task.sourced_mono (.list decl.body decl.body n) hc₂ ⟨hdecl.body, hdecl.body⟩

/-- **What is started is sound again.** -/
theorem descends (hk : v.Relies src) (edge : Starts cfg v w) (hv : v.Sourced src) :
    v.Descends src w := by
  have hv' := hv
  obtain ⟨hm, h⟩ := hv
  have hnone : ∀ {m : Machine} (ref : SessionRef), none = some ref →
      src.Admits m (.session ref) := by
    rintro m _ ⟨⟩
  cases edge with
  -- expressions
  | first | operand | callee | object | indexed | assigned | placeObject | placeIndex =>
    exact .here hm (h.child (by simp [Expr.children]))
  | second done =>
    exact .after (hk.keep .first ⟨hm, h.child (by simp [Expr.children])⟩ rfl) done
      (h.child (by simp [Expr.children]))
  | index done =>
    exact .after (hk.keep .indexed ⟨hm, h.child (by simp [Expr.children])⟩ rfl) done
      (h.child (by simp [Expr.children]))
  | target done =>
    exact .after (hk.keep .assigned ⟨hm, h.child (by simp [Expr.children])⟩ rfl) done
      (h.child (by simp [Expr.children]))
  | placeInside done =>
    exact .after (hk.keep .placeObject ⟨hm, h.child (by simp [Expr.children])⟩ rfl) done
      (h.child (by simp [Expr.children]))
  | placeIndexed done =>
    exact .after (hk.keep .placeIndex ⟨hm, h.child (by simp [Expr.children])⟩ rfl) done
      (h.child (by simp [Expr.children]))
  | builtinArgs | nameArgs | sessionArgs => exact .here hm h.args
  | valueArgs other done =>
    exact .after (hk.keep (.callee other) ⟨hm, h.child mem_cons_self⟩ rfl) done h.args
  | receiver => exact .here hm ((h.child mem_cons_self).child (mem_singleton_self _))
  | memberArgs done found =>
    have hobject := (h.child mem_cons_self).child (mem_singleton_self _)
    obtain rfl := Reads.done (.memberValue _ _ _ _) found
    exact .after (hk.keep .receiver ⟨hm, hobject⟩ rfl) done h.args
  | methodCall done found given chosen =>
    have hobject := (h.child mem_cons_self).child (mem_singleton_self _)
    obtain ⟨hc₁, hm₁, htarget⟩ := (hk.keep .receiver ⟨hm, hobject⟩ rfl).done done
    obtain rfl := Reads.done (.memberValue _ _ _ _) found
    obtain ⟨-, -, hmethod⟩ := (Exec.Keeps.memberValue hm₁ htarget _ _ _).done found
    have hargs := Task.sourced_mono (.values _) hc₁ h.args
    obtain ⟨hc₃, hm₃, hgiven⟩ := (hk.keep (.memberArgs done found) ⟨hm₁, hargs⟩ rfl).done given
    obtain rfl := Reads.done (.receiver _ _) chosen
    obtain ⟨-, -, hown⟩ := (Exec.Keeps.receiver hm₃ (htarget.here.mono hc₃.toGrows) _).done chosen
    refine .call hc₁ hc₃ hm₃ hmethod.here hgiven ?_
    rintro _ ⟨⟩
    exact hown
  | fieldCall done _ found given =>
    have hobject := (h.child mem_cons_self).child (mem_singleton_self _)
    obtain ⟨hc₁, hm₁, htarget⟩ := (hk.keep .receiver ⟨hm, hobject⟩ rfl).done done
    obtain rfl := Reads.done (.memberValue _ _ _ _) found
    obtain ⟨-, -, hmethod⟩ := (Exec.Keeps.memberValue hm₁ htarget _ _ _).done found
    have hargs := Task.sourced_mono (.values _) hc₁ h.args
    obtain ⟨hc₃, hm₃, hgiven⟩ := (hk.keep (.memberArgs done found) ⟨hm₁, hargs⟩ rfl).done given
    exact .call hc₁ hc₃ hm₃ hmethod.here hgiven hnone
  | nameCall found value given =>
    obtain ⟨hstands, -⟩ := hm.scopes.resolve? found
    obtain ⟨hc, hm₁, hgiven⟩ := (hk.keep (.nameArgs found value) ⟨hm, h.args⟩ rfl).done given
    exact .call (.refl _) hc hm₁ (hstands.value _ value).here hgiven hnone
  | sessionCall found kind _ given =>
    obtain ⟨hc, hm₁, hgiven⟩ := (hk.keep (.sessionArgs found kind) ⟨hm, h.args⟩ rfl).done given
    exact .on hc hm₁ hgiven
  | valueCall other done given =>
    obtain ⟨hc₁, hm₁, hv⟩ := (hk.keep (.callee other) ⟨hm, h.child mem_cons_self⟩ rfl).done done
    have hargs := Task.sourced_mono (.values _) hc₁ h.args
    obtain ⟨hc₂, hm₂, hgiven⟩ := (hk.keep (.valueArgs other done) ⟨hm₁, hargs⟩ rfl).done given
    exact .call hc₁ hc₂ hm₂ hv.here hgiven hnone
  | literal => exact .here hm ⟨fun field hfield => h.child (mem_map_of_mem hfield), fun _ => ⟨_, h⟩⟩
  | items => exact .here hm fun e he => h.child he
  | value | mergeVariable | mergeDeclaration | hoisted => exact .here hm (h _ mem_cons_self)
  | moreValues done =>
    obtain ⟨hfirst, hrest⟩ := forall_mem_cons.1 h
    exact .after (hk.keep .value ⟨hm, hfirst⟩ rfl) done hrest
  | detached => exact ⟨⟨hm.push .call, h⟩, fun _ => (Continues.refl _).leads_push .call⟩
  -- records
  | recordFields found =>
    obtain ⟨-, hhas⟩ := hm.records _ _ found
    exact .here hm ⟨h.1, fun member hmember e he => hasExpr_member hhas hmember he⟩
  | fieldGiven found => exact .here hm (h.1 _ (Table.mem_of_find? found))
  | fieldStart _ start => exact .here hm (h.2 _ mem_cons_self _ start)
  | moreFields done =>
    exact .after (hk.recordField hv') done ⟨h.1, (forall_mem_cons.1 h.2).2⟩
  | defaultRecord known =>
    refine .here hm ⟨forall_mem_nil _, fun hnone => ?_⟩
    simp [Table.has, hnone] at known
  -- sessions
  | staticStart decl start | memberStart decl start =>
    exact .here hm (h.2 _ mem_cons_self _ (by simp [MemberOf.exprs, decl, start, Start.expr?]))
  | memberDefault | induceDefault => exact .here hm trivial
  | moreStatics done =>
    obtain ⟨-, hrest⟩ := forall_mem_cons.1 h.2
    obtain ⟨hc, hm₁, hbuilt⟩ := (hk.addStatic hv').done done
    exact .on hc hm₁ ⟨hbuilt.2, fun member hmember e he =>
      (hrest member hmember e he).mono hc.linked⟩
  | moreMembers done =>
    obtain ⟨-, hrest⟩ := forall_mem_cons.1 h.2
    obtain ⟨hc, hm₁, hbuilt⟩ := (hk.addMember hv').done done
    exact .on hc hm₁ ⟨hbuilt.2, fun member hmember e he =>
      (hrest member hmember e he).mono hc.linked⟩
  | @build _ _ _ loc _ _ _ found allowed =>
    obtain rfl := Reads.done (.requireDepth _ _) allowed
    obtain ⟨-, hdecl⟩ := hm.sessions _ _ found
    exact ⟨⟨hm.deepen, Task.sourced_own hdecl _⟩, fun _ => (Continues.refl _).leads.place _ _⟩
  | construct found allowed built known constructor =>
    obtain rfl := Reads.done (.requireDepth _ _) allowed
    obtain ⟨-, hdecl⟩ := hm.sessions _ _ found
    obtain ⟨hc₁, hm₁, hobject⟩ := (hk.buildInstance hm found allowed).done built
    have hshaped : src.Shaped _ _ := ⟨_, false, src.mono hc₁.linked hdecl, hobject.1⟩
    obtain ⟨hc₂, hm₂, href⟩ := (Exec.Keeps.allocate hm₁ hshaped hobject.2).done known
    refine .call hc₁ hc₂ hm₂ ((callable_constructor hdecl constructor).mono hc₁.linked)
      (fun v hv => (h v hv).mono (hc₁.trans hc₂).toGrows) ?_
    rintro _ ⟨⟩
    exact href.1
  -- calls
  | called _ allowed =>
    obtain rfl := Reads.done (.requireDepth _ _) allowed
    refine ⟨⟨hm.deepen.push .call, h.1, fun v hv => (h.2.1 v hv).mono (.same rfl rfl),
      fun ref href => (h.2.2 ref href).mono (.same rfl rfl)⟩, fun _ => ?_⟩
    exact ((Continues.refl _).leads_push .call).place _ _
  | bodyList this params => exact descends_bodyList hm h this params
  -- statements
  | induced | declared | hoisting => exact .here hm h
  | cond | observed | awakened | asserted | performed =>
    exact .here hm (hasExpr h (mem_singleton_self _))
  | yes done =>
    exact .after (hk.keep .cond ⟨hm, hasExpr h (mem_singleton_self _)⟩ rfl) done
      fun s hs => src.child h (mem_append_left _ hs)
  | no done =>
    exact .after (hk.keep .cond ⟨hm, hasExpr h (mem_singleton_self _)⟩ rfl) done
      fun s hs => src.child h (mem_append_right _ hs)
  | whileLoop =>
    refine .here hm ⟨?_, ?_, fun s hs => src.child h hs⟩
    · rintro _ ⟨⟩
      exact hasExpr h (mem_singleton_self _)
    · rintro _ ⟨⟩
  | @loop n =>
    exact ⟨⟨hm.push .block, Task.sourced_rounds h n⟩, fun _ => (Continues.refl _).leads_push .block⟩
  | loopStart =>
    exact ⟨⟨hm.push .block, src.child h (mem_append_left _ (mem_singleton_self _))⟩,
      fun _ => (Continues.refl _).leads_push .block⟩
  | @loopStarted n _ _ _ _ _ _ _ done =>
    have hinit := src.child h (mem_append_left _ (mem_singleton_self _))
    obtain ⟨hc, hm₁, -⟩ := (hk.keep .loopStart ⟨hm.push .block, hinit⟩ rfl).done done
    have hrounds := Task.sourced_mono (.rounds _ _ _ n) hc (Task.sourced_rounds h n)
    exact ⟨⟨hm₁, hrounds⟩, fun _ =>
      ⟨⟨hc.linked, hc.shapes⟩, fun name hname => .inr ⟨_, hc.reserved name hname⟩⟩⟩
  | entrance => exact .here hm fun s hs => src.child h hs
  | linked => exact .here hm ⟨_, h⟩
  | staticMembers => exact .here hm (Task.sourced_own h _)
  | induceValue start => exact .here hm (hasExpr h (by simp [Stmt.exprs, start, Start.expr?]))
  -- lists and rounds
  | block => exact ⟨⟨hm.push .block, h, h⟩, fun _ => (Continues.refl _).leads_push .block⟩
  | head | mainHead => exact .here hm (h.2 _ mem_cons_self)
  | next done =>
    obtain ⟨hs, hrest⟩ := forall_mem_cons.1 h.2
    exact .after (hk.keep .head ⟨hm, hs⟩ rfl) done ⟨h.1, hrest⟩
  | jumped done found =>
    exact .after (hk.keep .head ⟨hm, h.2 _ mem_cons_self⟩ rfl) done
      ⟨h.1, fun s hs => h.1 s (Stmt.mem_of_afterLabel? found s hs)⟩
  | mainNext done => exact .after (hk.mainStmt hv') done ⟨h.1, (forall_mem_cons.1 h.2).2⟩
  | mainJumped done found =>
    exact .after (hk.mainStmt hv') done ⟨h.1, fun s hs => h.1 s (Stmt.mem_of_afterLabel? found s hs)⟩
  | roundCond => exact .here hm (h.1 _ rfl)
  | roundBody held => exact .after (hk.holds hv') held h.2.2
  | roundStep held done =>
    obtain ⟨hc₁, hm₁, -⟩ := (hk.holds hv').done held
    have hbody := Task.sourced_mono (.block _) hc₁ h.2.2
    obtain ⟨hc₂, hm₂, -⟩ := (hk.keep (.roundBody held) ⟨hm₁, hbody⟩ rfl).done done
    exact .on (hc₁.trans hc₂) hm₂ ((h.2.1 _ rfl).mono (hc₁.trans hc₂).linked)
  | again held done goesOn stepped =>
    obtain ⟨hc₁, hm₁, -⟩ := (hk.holds hv').done held
    have hbody := Task.sourced_mono (.block _) hc₁ h.2.2
    obtain ⟨hc₂, hm₂, -⟩ := (hk.keep (.roundBody held) ⟨hm₁, hbody⟩ rfl).done done
    have hrounds := Task.sourced_mono (.rounds _ _ _ _) (hc₁.trans hc₂) h
    obtain ⟨hc₃, hm₃, -⟩ := (hk.perform held done goesOn hm₂ hrounds.2.1).done stepped
    exact .on ((hc₁.trans hc₂).trans hc₃) hm₃ (Task.sourced_mono (.rounds _ _ _ _) hc₃ hrounds)
  -- links
  | @linkedFile n path loc m _ _ _ read parsed =>
    obtain ⟨at', hat⟩ := h
    obtain ⟨hc, hm₁⟩ := hm.link (cfg.files.key (Path.join m.baseDir path))
    refine ⟨⟨hm₁.moved _, fun s hs => ?_⟩, fun _ => hc.leads.place _ _⟩
    exact src.load (src.mono hc.linked hat) mem_cons_self (Store.load_of_ofText read parsed) hs
  | mergeLink | followed => exact .here hm ⟨_, h _ mem_cons_self⟩
  | moreMerged done => exact .after (hk.mergeStmt hv') done (forall_mem_cons.1 h).2
  -- the phases of a program
  | following hoisted => exact .after (hk.keep .hoisting ⟨hm, h⟩ rfl) hoisted h
  | entering hoisted followed =>
    obtain ⟨hc₁, hm₁, -⟩ := (hk.keep .hoisting ⟨hm, h⟩ rfl).done hoisted
    have h₁ := Task.sourced_mono (.follow _) hc₁ h
    obtain ⟨hc₂, hm₂, -⟩ := (hk.keep (.following hoisted) ⟨hm₁, h₁⟩ rfl).done followed
    exact .on (hc₁.trans hc₂) hm₂ (Task.sourced_mono (.entrances _) hc₂ h₁)
  | starting hoisted followed entered =>
    obtain ⟨hc₁, hm₁, -⟩ := (hk.keep .hoisting ⟨hm, h⟩ rfl).done hoisted
    have h₁ := Task.sourced_mono (.follow _) hc₁ h
    obtain ⟨hc₂, hm₂, -⟩ := (hk.keep (.following hoisted) ⟨hm₁, h₁⟩ rfl).done followed
    have h₂ := Task.sourced_mono (.entrances _) hc₂ h₁
    obtain ⟨hc₃, hm₃, -⟩ := (hk.keep (.entering hoisted followed) ⟨hm₂, h₂⟩ rfl).done entered
    exact .on ((hc₁.trans hc₂).trans hc₃) hm₃ (Task.sourced_mono (.main _ _ _) hc₃ ⟨h₂, h₂⟩)
  | moreHoisted done =>
    obtain ⟨hs, hrest⟩ := forall_mem_cons.1 h
    exact .after (hk.keep .hoisted ⟨hm, hs⟩ rfl) done hrest
  | moreFollowed done => exact .after (hk.followLink hv') done (forall_mem_cons.1 h).2
  | entered => exact .here hm fun s hs => src.child (h _ mem_cons_self) hs
  | moreEntered done =>
    obtain ⟨hs, hrest⟩ := forall_mem_cons.1 h
    exact .after (hk.keep .entered ⟨hm, fun s hmem => src.child hs hmem⟩ rfl) done hrest
  | passed => exact .here hm fun s hs => h s (mem_cons_of_mem _ hs)

end Visit.Relies

end

end Trance
