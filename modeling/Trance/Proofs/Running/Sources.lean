import Trance.Proofs.Linking.Flatten
import Trance.Proofs.Running.Shadowing

/-!
# Where everything in a run comes from

Whatever a run handles comes from statements: those of the program, and those of files that have
been linked so far. A suggestion is declared by one of them, a record has the members of a declared
record type, and an object has the shape that the declaration of its session gives. A machine is
sound if all of this is true of it, and a machine continues another one if it has more: more files
linked, more objects, more record types known.

Some names can be reserved. No statement binds or assigns a reserved name, and a reserved name
stands for a session if it stands for anything. -/

namespace Trance

open List Option

/-! ## Sources -/

/-- The statements that can have come into a run once some files are linked, and reserved names,
which no such statement binds or assigns to. -/
structure Sources (files : Store) where
  Has : List FileKey → Stmt → Prop
  Reserved : String → Prop
  mono : ∀ {linked linked' s}, linked ⊆ linked' → Has linked s → Has linked' s
  child : ∀ {linked s part}, Has linked s → part ∈ s.children → Has linked part
  load : ∀ {linked path loc target q s}, Has linked (.mindLink path loc) →
    files.key target ∈ linked → files.load target = .ok q → s ∈ q.statements → Has linked s
  bound : ∀ {linked s name}, Has linked s → name ∈ s.boundNames → ¬ Reserved name
  assigned : ∀ {linked s e name}, Has linked s → e ∈ exprParts s.exprs → e.assignsTo name = true →
      ¬ Reserved name

namespace Sources

variable {files : Store} (src : Sources files) (linked : List FileKey) (m : Machine)

def HasExpr (e : Expr) : Prop := ∃ s, src.Has linked s ∧ e ∈ exprParts s.exprs

/-- A suggestion that one of the statements declares, on its own or as a method. -/
def Callable (decl : Suggestion) : Prop :=
  src.Has linked (.suggestion decl) ∨
  ∃ session member, src.Has linked (.session session) ∧ member ∈ session.members ∧
    member.decl = .method decl

/-- What is asked of a single value: a record has the members of a declared record type, a session
leads to an object of its name, and a suggestion is declared. -/
def Admits : Value → Prop
  | .record typeName fields => ∃ decl, src.Has m.linked (.tranceify decl) ∧ decl.name = typeName ∧
      Table.names fields = decl.members.map Variable.name
  | .session ref => ∃ object, m.heap[ref.id]? = some object ∧ object.name = ref.name
  | .suggestion decl => src.Callable m.linked decl
  | .number _ | .text _ | .boolean _ | .array _ | .null => True

/-- A value that comes from the sources, with everything inside of it. -/
def Good (v : Value) : Prop := v.Every (src.Admits m)

/-- A symbol that comes from the sources. -/
structure Stands (symbol : Symbol) : Prop where
  value : ∀ v, symbol.value = some v → src.Good m v
  record : symbol.kind = .record → ∃ decl, src.Has m.linked (.tranceify decl) ∧
      decl.name = symbol.name
  reserved : src.Reserved symbol.name → ∃ ref, symbol.value = some (.session ref)

/-- An object has the shape that the declaration of a session gives. -/
def Shaped (object : Instance) : Prop :=
  ∃ decl shared, src.Has m.linked (.session decl) ∧ object.shape = decl.shape shared

end Sources

def Scopes.traces (name : String) (s : Scopes) : List (Frame.Kind × Option Symbol) × Option Symbol :=
  (s.frames.map fun frame => (frame.kind, frame.bindings.find? name), s.globals.find? name)

/-- Every object is still there, with its shape. -/
def Machine.KeepsShapes (m m' : Machine) : Prop :=
  ∀ (id : Nat) (object : Instance), m.heap[id]? = some object →
    ∃ object', m'.heap[id]? = some object' ∧ object'.shape = object.shape

/-- The linked files and the objects that were there still are. -/
structure Machine.Grows (m m' : Machine) : Prop where
  linked : m.linked ⊆ m'.linked
  shapes : m.KeepsShapes m'

namespace Sources

variable {files : Store} (src : Sources files)

/-- A machine on which everything comes from the sources. -/
structure Sound (m : Machine) : Prop where
  scopes : m.scopes.All (src.Stands m)
  shapes : ∀ (id : Nat) (object : Instance), m.heap[id]? = some object → src.Shaped m object
  fields : ∀ (id : Nat) (object : Instance), m.heap[id]? = some object →
      ∀ field ∈ object.fields, src.Good m field.2
  sessions : ∀ name decl, m.sessions.find? name = some decl → decl.name = name ∧
      src.Has m.linked (.session decl)
  statics : ∀ name ref, m.statics.find? name = some ref → ref.name = name ∧
      src.Admits m (.session ref)
  records : ∀ name decl, m.records.find? name = some decl → decl.name = name ∧
      src.Has m.linked (.tranceify decl)

/-- A machine that comes later. Record types that were known still are, and reserved names are bound
to what they were bound to. -/
structure Continues (m m' : Machine) : Prop extends m.Grows m' where
  records : ∀ name, m.records.has name = true → m'.records.has name = true
  reserved : ∀ name, src.Reserved name → m'.scopes.traces name = m.scopes.traces name

variable {src}

/-! ## Code -/

section

variable {linked linked' : List FileKey} {e : Expr} {s : Stmt} {decl : Suggestion}

theorem HasExpr.mono (h : src.HasExpr linked e) (hsub : linked ⊆ linked') :
    src.HasExpr linked' e := by
  obtain ⟨s, hs, he⟩ := h
  exact ⟨s, src.mono hsub hs, he⟩

theorem HasExpr.child (h : src.HasExpr linked e) {part : Expr} (hpart : part ∈ e.children) :
    src.HasExpr linked part := by
  obtain ⟨s, hs, he⟩ := h
  exact ⟨s, hs, mem_exprParts_of_child he hpart⟩

theorem HasExpr.args {callee : Expr} {args : List Expr} {loc : Location}
    (h : src.HasExpr linked (.call callee args loc)) : ∀ e ∈ args, src.HasExpr linked e :=
  fun _ he => h.child (mem_cons_of_mem _ he)

theorem hasExpr (h : src.Has linked s) (he : e ∈ s.exprs) : src.HasExpr linked e :=
  ⟨s, h, mem_exprParts.2 ⟨e, he, .inl rfl⟩⟩

theorem hasExpr_member {decl : Tranceify} (h : src.Has linked (.tranceify decl)) {member : Variable}
    (hmember : member ∈ decl.members) (hstart : member.start = .value e) : src.HasExpr linked e := by
  refine hasExpr h (mem_flatMap.2 ⟨member, hmember, ?_⟩)
  simp [hstart, Start.expr?]

theorem Callable.mono (h : src.Callable linked decl) (hsub : linked ⊆ linked') :
    src.Callable linked' decl := by
  obtain hfree | ⟨session, member, hsession, hmember, hdecl⟩ := h
  · exact .inl (src.mono hsub hfree)
  · exact .inr ⟨session, member, src.mono hsub hsession, hmember, hdecl⟩

theorem Callable.body (h : src.Callable linked decl) : ∀ s ∈ decl.body, src.Has linked s := by
  intro s hs
  obtain hfree | ⟨session, member, hsession, hmember, hdecl⟩ := h
  · exact src.child hfree hs
  · refine src.child hsession (mem_flatMap.2 ⟨member, hmember, ?_⟩)
    rwa [MemberOf.body, hdecl]

theorem Callable.param (h : src.Callable linked decl) :
    ∀ param ∈ decl.params, ¬ src.Reserved param.name := by
  intro param hparam
  have hname : param.name ∈ decl.params.map Param.name := mem_map_of_mem hparam
  obtain hfree | ⟨session, member, hsession, hmember, hdecl⟩ := h
  · exact src.bound hfree (mem_cons_of_mem _ hname)
  · refine src.bound hsession (mem_cons_of_mem _ (mem_flatMap.2 ⟨member, hmember, ?_⟩))
    rwa [MemberOf.paramNames, hdecl]

theorem callable_constructor {session : Session} (h : src.Has linked (.session session))
    (hinit : session.constructor? = some decl) : src.Callable linked decl := by
  obtain ⟨member, hmember, hmethod⟩ := session.mem_of_constructor? hinit
  exact .inr ⟨session, member, h, hmember, hmethod⟩

end

/-! ## Values -/

section

variable {m : Machine}

theorem good_number (n : Float) : src.Good m (.number n) := .leaf trivial rfl
theorem good_text (s : String) : src.Good m (.text s) := .leaf trivial rfl
theorem good_boolean (b : Bool) : src.Good m (.boolean b) := .leaf trivial rfl
theorem good_null : src.Good m .null := .leaf trivial rfl

theorem good_session {ref : SessionRef} (h : src.Admits m (.session ref)) :
    src.Good m (.session ref) :=
  .leaf h rfl

theorem good_suggestion {decl : Suggestion} (h : src.Callable m.linked decl) :
    src.Good m (.suggestion decl) :=
  .leaf h rfl

theorem good_array {items : List Value} : src.Good m (.array items) ↔ ∀ v ∈ items, src.Good m v :=
  ⟨fun h => h.inside, fun h => .intro trivial h⟩

theorem good_record {typeName : String} {fields : List (String × Value)} :
    src.Good m (.record typeName fields) ↔
    src.Admits m (.record typeName fields) ∧ ∀ field ∈ fields, src.Good m field.2 := by
  constructor
  · intro h
    exact ⟨h.here, fun field hfield => h.inside _ (mem_map_of_mem hfield)⟩
  · rintro ⟨hadmits, hfields⟩
    refine .intro hadmits fun child hchild => ?_
    obtain ⟨field, hfield, rfl⟩ := mem_map.1 hchild
    exact hfields field hfield

end

/-! ## Scopes -/

end Sources

namespace Bindings

variable {bindings bindings' : Bindings} {symbol : Symbol}

theorem find?_update_of_ne {name other : String} {change : Symbol → Symbol}
    (hname : ∀ symbol, (change symbol).name = symbol.name) (hne : other ≠ name) :
    (bindings.update name change).find? other = bindings.find? other := by
  rw [find?_update _ _ _ _ hname]
  cases hfind : bindings.find? other with
  | none => rfl
  | some symbol =>
    have hsymbol : (symbol.name == name) = false := by
      rw [name_of_find? hfind]
      simpa using hne
    rw [map_some, hsymbol]
    rfl

end Bindings

namespace Scopes

variable {s t : Scopes}

variable {name : String}

theorem resolve?_of_traces (h : s.traces name = t.traces name) :
    s.resolve? name = t.resolve? name := by
  obtain ⟨frames, globals⟩ := s
  obtain ⟨frames', globals'⟩ := t
  obtain ⟨hframes, hglobals⟩ := Prod.mk.inj h
  simp only at hframes hglobals
  show resolveIn frames globals name = resolveIn frames' globals' name
  clear h
  induction frames generalizing frames' with
  | nil =>
    cases frames' with
    | nil => exact hglobals
    | cons => cases hframes
  | cons frame below ih =>
    cases frames' with
    | nil => cases hframes
    | cons frame' below' =>
      simp only [map_cons, List.cons.injEq, Prod.mk.injEq] at hframes
      obtain ⟨⟨hkind, hfind⟩, hbelow⟩ := hframes
      rw [resolveIn, resolveIn, hkind, hfind, hglobals, ih below' hbelow]

theorem traces_define? {symbol : Symbol} (hne : symbol.name ≠ name)
    (hdefine : s.define? symbol = some t) : t.traces name = s.traces name := by
  obtain ⟨frames, globals⟩ := s
  cases frames with
  | nil | cons frame below =>
    obtain ⟨after, hadd, rfl⟩ := map_eq_some_iff.1 hdefine
    simp [traces, Bindings.find?_add? hadd, hne]

theorem traces_update? {other : String} {change : Symbol → Symbol}
    (hname : ∀ symbol, (change symbol).name = symbol.name) (hne : other ≠ name)
    (hupdate : s.update? name change = some t) : t.traces other = s.traces other := by
  obtain ⟨_, -, ⟨-, rfl⟩ | ⟨above, frame, below, hframes, -, rfl⟩⟩ := update?_eq_some hupdate
  · simp [traces, Bindings.find?_update_of_ne hname hne]
  · simp [traces, hframes, Bindings.find?_update_of_ne hname hne]

end Scopes

/-! ## Later machines -/

namespace Machine.KeepsShapes

variable {m m' m'' : Machine}

theorem refl (m : Machine) : m.KeepsShapes m := fun _ object h => ⟨object, h, rfl⟩

theorem trans (h : m.KeepsShapes m') (h' : m'.KeepsShapes m'') : m.KeepsShapes m'' := by
  intro id object hobject
  obtain ⟨object', hobject', hshape⟩ := h id object hobject
  obtain ⟨object'', hobject'', hshape'⟩ := h' id object' hobject'
  exact ⟨object'', hobject'', hshape'.trans hshape⟩

end Machine.KeepsShapes

namespace Machine.Grows

variable {m m' m'' : Machine}

theorem same (hlinked : m'.linked = m.linked) (hheap : m'.heap = m.heap) : m.Grows m' :=
  ⟨hlinked ▸ List.Subset.refl _, fun _ object h => ⟨object, hheap ▸ h, rfl⟩⟩

theorem trans (h : m.Grows m') (h' : m'.Grows m'') : m.Grows m'' :=
  ⟨List.Subset.trans h.linked h'.linked, h.shapes.trans h'.shapes⟩

end Machine.Grows

namespace Sources

variable {files : Store} {src : Sources files} {m m' m'' : Machine}

theorem Continues.refl (m : Machine) : src.Continues m m :=
  ⟨.same rfl rfl, fun _ h => h, fun _ _ => rfl⟩

theorem Continues.trans (h : src.Continues m m') (h' : src.Continues m' m'') : src.Continues m m'' :=
  ⟨h.toGrows.trans h'.toGrows, fun name hname => h'.records name (h.records name hname),
    fun name hname => (h'.reserved name hname).trans (h.reserved name hname)⟩

variable {v : Value} {object : Instance} {scopes : Scopes}

theorem Admits.mono (hg : m.Grows m') (h : src.Admits m v) : src.Admits m' v := by
  cases v with
  | record typeName fields =>
    obtain ⟨decl, hdecl, hrest⟩ := h
    exact ⟨decl, src.mono hg.linked hdecl, hrest⟩
  | session ref =>
    obtain ⟨object, hobject, hname⟩ := h
    obtain ⟨object', hobject', hshape⟩ := hg.shapes _ _ hobject
    exact ⟨object', hobject', (congrArg Instance.Shape.name hshape).trans hname⟩
  | suggestion decl => exact Callable.mono h hg.linked
  | _ => trivial

theorem Good.mono (hg : m.Grows m') (h : src.Good m v) : src.Good m' v :=
  h.imp fun _ hv => hv.mono hg

theorem Stands.mono (hg : m.Grows m') {symbol : Symbol} (h : src.Stands m symbol) :
    src.Stands m' symbol := by
  refine ⟨fun v hv => (h.value v hv).mono hg, fun hkind => ?_, h.reserved⟩
  obtain ⟨decl, hdecl, hname⟩ := h.record hkind
  exact ⟨decl, src.mono hg.linked hdecl, hname⟩

theorem Shaped.mono (hg : m.Grows m') (h : src.Shaped m object) : src.Shaped m' object := by
  obtain ⟨decl, shared, hdecl, hshape⟩ := h
  exact ⟨decl, shared, src.mono hg.linked hdecl, hshape⟩

theorem Sound.mono (hg : m.Grows m') (hscopes : m'.scopes.All (src.Stands m))
    (hshapes : ∀ (id : Nat) (object : Instance), m'.heap[id]? = some object → src.Shaped m object)
    (hfields : ∀ (id : Nat) (object : Instance), m'.heap[id]? = some object →
      ∀ field ∈ object.fields, src.Good m field.2)
    (hsessions : ∀ name decl, m'.sessions.find? name = some decl →
      decl.name = name ∧ src.Has m.linked (.session decl))
    (hstatics : ∀ name ref, m'.statics.find? name = some ref → ref.name = name ∧
      src.Admits m (.session ref))
    (hrecords : ∀ name decl, m'.records.find? name = some decl →
      decl.name = name ∧ src.Has m.linked (.tranceify decl)) : src.Sound m' where
  scopes := hscopes.imp fun _ h => h.mono hg
  shapes id object hobject := (hshapes id object hobject).mono hg
  fields id object hobject field hfield := (hfields id object hobject field hfield).mono hg
  sessions name decl hfound := (hsessions name decl hfound).imp_right (src.mono hg.linked)
  statics name ref hfound := (hstatics name ref hfound).imp_right (·.mono hg)
  records name decl hfound := (hrecords name decl hfound).imp_right (src.mono hg.linked)

/-! ## Changes of the machine -/

theorem Sound.rescope (hm : src.Sound m) (hscopes : scopes.All (src.Stands m))
    (htraces : ∀ name, src.Reserved name → scopes.traces name = m.scopes.traces name) :
    src.Continues m { m with scopes } ∧ src.Sound { m with scopes } := by
  have hc : src.Continues m { m with scopes } :=
    ⟨.same rfl rfl, fun _ h => h, htraces⟩
  exact ⟨hc, Sound.mono hc.toGrows hscopes hm.shapes hm.fields hm.sessions hm.statics hm.records⟩

theorem Sound.define (hm : src.Sound m) {symbol : Symbol} (hsymbol : src.Stands m symbol)
    (hfree : ¬ src.Reserved symbol.name) (hdefine : m.scopes.define? symbol = some scopes) :
    src.Continues m { m with scopes } ∧ src.Sound { m with scopes } := by
  refine hm.rescope (hm.scopes.define? hsymbol hdefine) fun name hname => ?_
  exact Scopes.traces_define? (fun h => hfree (h ▸ hname)) hdefine

theorem Sound.assign (hm : src.Sound m) {name : String} (hv : src.Good m v)
    (hfree : ¬ src.Reserved name) :
    src.Continues m { m with scopes := (m.scopes.assign? name v).getD m.scopes } ∧
    src.Sound { m with scopes := (m.scopes.assign? name v).getD m.scopes } := by
  cases hassign : m.scopes.assign? name v with
  | none => exact ⟨.refl m, hm⟩
  | some scopes =>
    refine hm.rescope (hm.scopes.update? (fun symbol hname hsymbol =>
      ?_) hassign) fun other hother => ?_
    · exact ⟨fun w hw => Option.some.inj hw ▸ hv, hsymbol.record, fun hreserved =>
        absurd (hname ▸ hreserved) hfree⟩
    · have hne : other ≠ name := fun h => hfree (h ▸ hother)
      refine Scopes.traces_update? ?_ hne hassign
      exact fun _ => rfl

theorem getElem?_push_of_some {α : Type} {xs : Array α} {x y : α} {i : Nat} (h : xs[i]? = some y) :
    (xs.push x)[i]? = some y := by
  have hlt : i < xs.size := (Array.getElem?_eq_some_iff.1 h).1
  rw [Array.getElem?_push_lt hlt]
  simpa [Array.getElem?_eq_getElem hlt] using h

/-- A new object. The reference to it is good from then on. -/
theorem Sound.allocate (hm : src.Sound m) (hshape : src.Shaped m object)
    (hfields : ∀ field ∈ object.fields, src.Good m field.2) :
    src.Continues m { m with heap := m.heap.push object } ∧
    src.Sound { m with heap := m.heap.push object } ∧
    src.Admits { m with heap := m.heap.push object } (.session ⟨m.heap.size, object.name⟩) := by
  have hc : src.Continues m { m with heap := m.heap.push object } :=
    ⟨⟨List.Subset.refl _, fun id old hold => ⟨old, getElem?_push_of_some hold, rfl⟩⟩, fun _ h =>
      h, fun _ _ => rfl⟩
  have hold : ∀ (id : Nat) (other : Instance), (m.heap.push object)[id]? = some other →
      m.heap[id]? = some other ∨ other = object := by
    intro id other hother
    rw [Array.getElem?_push] at hother
    split at hother
    · exact .inr (Option.some.inj hother).symm
    · exact .inl hother
  refine ⟨hc, Sound.mono hc.toGrows hm.scopes (fun id other hother => ?_) (fun id other hother => ?_)
    hm.sessions hm.statics hm.records, object, by simp, rfl⟩
  · obtain hother | rfl := hold id other hother
    · exact hm.shapes id other hother
    · exact hshape
  · obtain hother | rfl := hold id other hother
    · exact hm.fields id other hother
    · exact hfields

theorem Sound.modify (hm : src.Sound m) {ref : SessionRef} {fields : Table Value}
    (hobject : m.heap[ref.id]? = some object) (hnames : fields.names = object.fields.names)
    (hfields : ∀ field ∈ fields, src.Good m field.2) :
    src.Continues m { m with heap := m.heap.setIfInBounds ref.id { object with fields } } ∧
    src.Sound { m with heap := m.heap.setIfInBounds ref.id { object with fields } } := by
  have hshape : ({ object with fields } : Instance).shape = object.shape := by
    simp only [Instance.shape, hnames]
  have hcases : ∀ id, (m.heap.setIfInBounds ref.id { object with fields })[id]? =
      if ref.id = id then some { object with fields } else m.heap[id]? := by
    intro id
    rw [Array.getElem?_setIfInBounds]
    split
    · simpa using (Array.getElem?_eq_some_iff.1 hobject).1
    · rfl
  have hc : src.Continues m
      { m with heap := m.heap.setIfInBounds ref.id { object with fields } } := by
    refine ⟨⟨List.Subset.refl _, fun id other hother => ?_⟩, fun _ h => h, fun _ _ => rfl⟩
    by_cases hid : ref.id = id
    · subst hid
      cases hobject.symm.trans hother
      exact ⟨{ object with fields }, by rw [hcases, if_pos rfl], hshape⟩
    · exact ⟨other, by rw [hcases, if_neg hid]; exact hother, rfl⟩
  refine ⟨hc, Sound.mono hc.toGrows hm.scopes (fun id other hother => ?_)
    (fun id other hother => ?_) hm.sessions hm.statics hm.records⟩
  · rw [hcases] at hother
    split at hother
    · cases hother
      obtain ⟨decl, shared, hdecl, hdeclared⟩ := hm.shapes ref.id object hobject
      exact ⟨decl, shared, hdecl, hshape.trans hdeclared⟩
    · exact hm.shapes id other hother
  · rw [hcases] at hother
    split at hother
    · cases hother
      exact hfields
    · exact hm.fields id other hother

theorem Sound.outside (hm : src.Sound m) (events : Array Event) (input : List String)
    (capacity : Option Nat) (failures : List AssertionFailure) (signal : Location) :
    src.Continues m { m with events, input, capacity, failures, signal } ∧
    src.Sound { m with events, input, capacity, failures, signal } := by
  have hc : src.Continues m { m with events, input, capacity, failures, signal } :=
    ⟨.same rfl rfl, fun _ h => h, fun _ _ => rfl⟩
  exact ⟨hc, Sound.mono hc.toGrows hm.scopes hm.shapes hm.fields hm.sessions hm.statics hm.records⟩

theorem Sound.link (hm : src.Sound m) (key : FileKey) :
    src.Continues m { m with linked := key :: m.linked } ∧
    src.Sound { m with linked := key :: m.linked } := by
  have hc : src.Continues m { m with linked := key :: m.linked } :=
    ⟨⟨subset_cons_self .., .refl m⟩, fun _ h => h, fun _ _ => rfl⟩
  exact ⟨hc, Sound.mono hc.toGrows hm.scopes hm.shapes hm.fields hm.sessions hm.statics hm.records⟩

theorem Sound.session (hm : src.Sound m) {decl : Session} (hdecl : src.Has m.linked (.session decl))
    {ref : SessionRef} (href : src.Admits m (.session ref)) (hname : ref.name = decl.name) :
    src.Continues m (m.knowSession decl ref) ∧ src.Sound (m.knowSession decl ref) := by
  have hc : src.Continues m (m.knowSession decl ref) := ⟨.same rfl rfl, fun _ h => h, fun _ _ => rfl⟩
  exact ⟨hc, .mono hc.toGrows hm.scopes hm.shapes hm.fields
    (Table.forall_insert ⟨rfl, hdecl⟩ hm.sessions)
    (Table.forall_insert ⟨hname, href⟩ hm.statics) hm.records⟩

theorem Sound.tranceify (hm : src.Sound m) {decl : Tranceify}
    (hdecl : src.Has m.linked (.tranceify decl)) :
    src.Continues m (m.knowRecord decl) ∧ src.Sound (m.knowRecord decl) := by
  have hc : src.Continues m (m.knowRecord decl) :=
    ⟨.same rfl rfl, fun _ hname => Table.has_insert_of_has hname _ _, fun _ _ => rfl⟩
  exact ⟨hc, .mono hc.toGrows hm.scopes hm.shapes hm.fields hm.sessions hm.statics
    (Table.forall_insert ⟨rfl, hdecl⟩ hm.records)⟩

/-! ## What is opened and closed again -/

theorem Sound.place (hm : src.Sound m) (hscopes : scopes.All (src.Stands m)) (depth : Nat)
    (baseDir : String) : src.Sound { m with scopes, depth, baseDir } :=
  Sound.mono (m := m) (.same rfl rfl) hscopes hm.shapes hm.fields hm.sessions hm.statics hm.records

theorem Sound.push (hm : src.Sound m) (kind : Frame.Kind) : src.Sound (m.push kind) :=
  hm.place (hm.scopes.enter kind) m.depth m.baseDir

theorem Sound.pop (hm : src.Sound m) : src.Sound m.pop := hm.place hm.scopes.exit m.depth m.baseDir

theorem Sound.deepen (hm : src.Sound m) : src.Sound m.deepen := hm.place hm.scopes _ m.baseDir

theorem Sound.rise (hm : src.Sound m) : src.Sound m.rise := hm.place hm.scopes _ m.baseDir

theorem Sound.moved (hm : src.Sound m) (dir : String) : src.Sound (m.moved dir) :=
  hm.place hm.scopes m.depth dir

theorem Continues.pop (grows : m.Grows m')
    (records : ∀ name, m.records.has name = true → m'.records.has name = true)
    (reserved : ∀ name, src.Reserved name →
      ∃ top, m'.scopes.traces name = (top :: (m.scopes.traces name).1, (m.scopes.traces name).2)) :
    src.Continues m m'.pop := by
  refine ⟨⟨grows.linked, grows.shapes⟩, records, fun name hname => ?_⟩
  obtain ⟨top, htraces⟩ := reserved name hname
  obtain ⟨hframes, hglobals⟩ := Prod.mk.inj htraces
  refine Prod.ext ?_ hglobals
  show List.map _ m'.scopes.frames.tail = _
  rw [map_tail, hframes]
  rfl

end Sources

/-! ## The sources of a program -/

/-- A statement stands in the program, or in a file that has been linked. -/
def Program.Loaded (files : Store) (p : Program) (linked : List FileKey) (s : Stmt) : Prop :=
  s ∈ p.parts ∨ ∃ target q, files.key target ∈ linked ∧ files.load target = .ok q ∧ s ∈ q.parts

/-- Neither a program nor a file that it could link binds a name or assigns to it. -/
structure Program.Spares (files : Store) (p : Program) (name : String) : Prop where
  bound : ∀ linked s, p.Loaded files linked s → name ∉ s.boundNames
  assigned : ∀ linked s, p.Loaded files linked s → ∀ e ∈ exprParts s.exprs, e.assignsTo name = false

def Program.sources (files : Store) (p : Program) (reserved : String → Prop)
    (h : ∀ name, reserved name → p.Spares files name) : Sources files where
  Has := p.Loaded files
  Reserved := reserved
  mono := by
    rintro linked linked' s hsub (hown | ⟨target, q, hkey, hload, hs⟩)
    · exact .inl hown
    · exact .inr ⟨target, q, hsub hkey, hload, hs⟩
  child := by
    rintro linked s part (hown | ⟨target, q, hkey, hload, hs⟩) hpart
    · exact .inl (mem_listParts_of_child hown hpart)
    · exact .inr ⟨target, q, hkey, hload, mem_listParts_of_child hs hpart⟩
  load := by
    intro linked path loc target q s _ hkey hload hs
    exact .inr ⟨target, q, hkey, hload, mem_listParts.2 ⟨s, hs, .inl rfl⟩⟩
  bound := fun hs hname hreserved => (h _ hreserved).bound _ _ hs hname
  assigned := by
    intro linked s e name hs he hassigns hreserved
    rw [(h name hreserved).assigned linked s hs e he] at hassigns
    cases hassigns

def Program.ownSources (files : Store) (p : Program) (h : ∀ s ∈ p.parts, s.isLink = false) :
    Sources files where
  Has _ s := s ∈ p.parts
  Reserved _ := False
  mono _ hs := hs
  child hs hpart := mem_listParts_of_child hs hpart
  load hlink _ _ _ := by cases h _ hlink
  bound _ _ := id
  assigned _ _ _ := id

def Program.plainSources (files : Store) (p : Program) : Sources files :=
  p.sources files (fun _ => False) fun _ h => h.elim

theorem Sources.sound_reset {files : Store} (src : Sources files) (m : Machine) :
    src.Sound m.reset where
  scopes := ⟨fun _ h => absurd h not_mem_nil, fun _ h => absurd h not_mem_nil⟩
  shapes := fun id object h => by simp [Machine.reset, Machine.new] at h
  fields := fun id object h => by simp [Machine.reset, Machine.new] at h
  sessions := nofun
  statics := nofun
  records := nofun

end Trance
