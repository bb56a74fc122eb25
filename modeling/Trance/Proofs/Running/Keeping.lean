import Trance.Proofs.Running.Sources

/-!
# Steps on sound machines

A step on a sound machine leaves a sound machine behind that continues it, whether it is done or
fails. An error about the name of a type says something about the sources: a record literal has been
met whose type is not known, or the name of a record type has been met as an expression. A run that
breaks off says something about the objects too: a field of an object is assigned to, and the way to
the place inside of it comes back to the object. -/

namespace Trance

open List Option Sources Exec

/-! ## Ways into fields -/

/-- `Leads name target path`: as the target of an assignment, an expression stands for the place
that is reached from a field called `name` along the path. What an index selects is known at run
time only. -/
inductive Expr.Leads (name : String) : Expr → List Place.Step → Prop where
  | field {object loc} : Leads name (.field object name loc) []
  | inside {object member loc path} (outer : Leads name object path) :
      Leads name (.field object member loc) (path ++ [.field member])
  | item {object index loc path} (outer : Leads name object path) (selected : Value) :
      Leads name (.index object index loc) (path ++ [.index selected])

/-- `Meets own path v`: on the way into a value along a path there is the session `own`, as a value
or as an index. -/
inductive Value.Meets (own : SessionRef) : List Place.Step → Value → Prop where
  | here {step rest ref} (same : ref.id = own.id) : Meets own (step :: rest) (.session ref)
  | index {rest items ref} (same : ref.id = own.id) :
      Meets own (.index (.session ref) :: rest) (.array items)
  | field {name rest typeName fields v} (found : Table.find? fields name = some v)
      (inner : Meets own rest v) : Meets own (.field name :: rest) (.record typeName fields)
  | item {selected rest items v} (found : v ∈ items) (inner : Meets own rest v) :
      Meets own (.index selected :: rest) (.array items)

/-- A target leads from a field of an object back to this object. -/
def Machine.Entangles (m : Machine) (target : Expr) : Prop :=
  ∃ (own : SessionRef) (object : Instance) (name : String) (path : List Place.Step) (v : Value),
    m.heap[own.id]? = some object ∧ object.fields.find? name = some v ∧ target.Leads name path ∧
      v.Meets own path

/-- A place inside of a field of a session: its target leads there, and the session has been
evaluated last. -/
theorem Exec.field_of_place {eval : Expr → Exec Value} {loc : Location} {target : Expr}
    {place : Place} {m m' : Machine} {ref : SessionRef} {name : String} {viaThis : Bool}
    (h : Exec.place eval loc target m = .done place m')
    (hroot : place.root = .field ref name viaThis) : target.Leads name place.path ∧
      ∃ object m₁, Expr.isThis object = viaThis ∧ eval object m₁ = .done (.session ref) m' := by
  induction target using Exec.place.induct generalizing m place with
  | case1 =>
    cases h
    cases hroot
  | case2 object member at' ih =>
    obtain ⟨v, m₁, hobject, h⟩ := bind_eq_done h
    have hinside : (do return (← Exec.place eval loc object).step (.field member) : Exec Place) m₁ =
        .done place m' → Expr.Leads name (.field object member at') place.path ∧
          ∃ object m₁, Expr.isThis object = viaThis ∧ eval object m₁ = .done (.session ref) m' := by
      intro h
      obtain ⟨inner, m₂, hinner, h⟩ := bind_eq_done h
      cases h
      exact (ih hinner hroot).imp_left .inside
    cases v with
    | session other =>
      cases h
      cases hroot
      exact ⟨.field, object, _, rfl, hobject⟩
    | _ => exact hinside h
  | case3 object index at' ih =>
    obtain ⟨v, m₁, -, h⟩ := bind_eq_done h
    obtain ⟨inner, m₂, hinner, h⟩ := bind_eq_done h
    cases h
    exact (ih hinner hroot).imp_left (.item · v)
  | case4 other hname hfield hindex =>
    cases other with
    | name => exact absurd rfl (hname _ _)
    | field => exact absurd rfl (hfield _ _ _)
    | index => exact absurd rfl (hindex _ _ _)
    | _ => cases h

/-! ## Errors -/

/-- What an error says about the sources. If it is about the name of a type then the type of a
record literal is not known, or the name of a declared record type is met as an expression. If a run
breaks off then the target of an assignment leads from a field of an object back to the object. -/
def Sources.Explains {files : Store} (src : Sources files) (m : Machine) : RuntimeError → Prop
  | .raised (.unknownType name) loc =>
    m.records.find? name = none ∧ ∃ given, src.HasExpr m.linked (.record name given loc)
  | .raised (.notAValue name) loc =>
    src.HasExpr m.linked (.name name loc) ∧ ∃ decl, src.Has m.linked (.tranceify decl) ∧
      decl.name = name
  | .panicked => ∃ target value loc, src.HasExpr m.linked (.assign target value loc) ∧
    m.Entangles target
  | _ => True

def RuntimeError.isPlain : RuntimeError → Bool
  | .raised (.unknownType _) _ | .raised (.notAValue _) _ | .panicked => false
  | _ => true

section

variable {files : Store} {src : Sources files} {m m' : Machine} {e : RuntimeError}

theorem Sources.explains_of_isPlain (h : e.isPlain = true) : src.Explains m e := by
  cases e with
  | output => trivial
  | panicked => cases h
  | raised cause loc =>
    cases cause with
    | unknownType | notAValue => cases h
    | _ => trivial

theorem Sources.Explains.same (h : src.Explains m e) (hlinked : m'.linked = m.linked)
    (hrecords : m'.records = m.records) (hheap : m'.heap = m.heap) : src.Explains m' e := by
  unfold Explains Machine.Entangles at h ⊢
  rw [hlinked, hrecords, hheap]
  exact h

end

/-! ## Attempts -/

/-- An attempt whose result satisfies `Q`, or that fails with a plain error. It breaks off only if
`B`. -/
def Attempt.Gives {α : Type} (Q : α → Prop) (B : Prop) : Attempt α → Prop
  | .ok a => Q a
  | .error e => e.isPlain = true ∨ e = .panicked ∧ B

namespace Attempt.Gives

variable {α β : Type} {Q : α → Prop} {R : β → Prop} {B C : Prop}

theorem imp {x : Attempt α} (hx : x.Gives Q B) (h : B → C) : x.Gives Q C := by
  cases x with
  | ok a => exact hx
  | error e => exact hx.imp_right (And.imp_right h)

theorem bind {x : Attempt α} {f : α → Attempt β} (hx : x.Gives Q B)
    (hf : ∀ a, Q a → (f a).Gives R B) : (x >>= f).Gives R B := by
  cases x with
  | error e => exact hx
  | ok a => exact hf a hx

theorem asNumber (v : Value) (loc : Location) : (v.asNumber loc).Gives (fun _ => True) B := by
  unfold Value.asNumber
  split
  · trivial
  · exact .inl rfl

theorem onNumbers (l r : Value) (loc : Location) {f : Float → Float → Attempt Value}
    {Q : Value → Prop} (hf : ∀ a b, (f a b).Gives Q B) : (BinaryOp.onNumbers l r loc f).Gives Q B :=
  (asNumber l loc).bind fun a _ => (asNumber r loc).bind fun b _ => hf a b

theorem position (index : Value) (length : Nat) (loc : Location) :
    (index.position length loc).Gives (fun _ => True) B := by
  refine (asNumber index loc).bind fun raw _ => ?_
  split
  · exact .inl rfl
  · dsimp only
    split
    · exact .inl rfl
    · trivial

variable {files : Store} {src : Sources files} {m : Machine}

theorem divide (f : Float → Float → Float) (loc : Location) (l r : Float) :
    (BinaryOp.divide f loc l r).Gives (src.Good m) B := by
  unfold BinaryOp.divide
  split
  · exact .inl rfl
  · exact good_number _

theorem binary (op : BinaryOp) (l r : Value) (loc : Location) :
    (op.apply l r loc).Gives (src.Good m) B := by
  cases op with
  | add =>
    unfold BinaryOp.apply
    simp only
    split
    · exact good_text _
    · exact good_text _
    · exact onNumbers l r loc fun _ _ => good_number _
  | sub | mul => exact onNumbers l r loc fun _ _ => good_number _
  | div | mod => exact onNumbers l r loc fun _ _ => divide _ loc _ _
  | lt | le | gt | ge => exact onNumbers l r loc fun _ _ => good_boolean _
  | eq | ne | conj | disj => exact good_boolean _

theorem unary (op : UnaryOp) (v : Value) (loc : Location) :
    (op.apply v loc).Gives (src.Good m) B := by
  cases op with
  | not => exact good_boolean _
  | neg | plus => exact (asNumber v loc).bind fun _ _ => good_number _

theorem item {items : List Value} (h : src.Good m (.array items)) (i : Nat) :
    src.Good m (items[i]?.getD .null) := by
  cases hitem : items[i]? with
  | none => exact good_null
  | some v => exact good_array.1 h v (mem_of_getElem? hitem)

theorem at? {target : Value} (h : src.Good m target) (index : Value) (loc : Location) :
    (target.at? index loc).Gives (src.Good m) B := by
  cases target with
  | array items => exact (position index items.length loc).bind fun i _ => item h i
  | text s =>
    refine (position index s.length loc).bind fun i _ => ?_
    cases s.toList[i]? with
    | none => exact good_null
    | some c => exact good_text _
  | _ => exact .inl rfl

theorem modify? {fields : Table Value} {name : String} {change : Value → Attempt Value}
    (hfields : ∀ field ∈ fields, src.Good m field.2)
    (hchange : ∀ v, fields.find? name = some v → src.Good m v → (change v).Gives (src.Good m) B)
    {result : Attempt (Table Value)} (h : fields.modify? name change = some result) :
    result.Gives (fun after => after.names = fields.names ∧
      ∀ field ∈ after, src.Good m field.2) B := by
  rw [Table.modify?_eq] at h
  obtain ⟨old, hfound, rfl⟩ := map_eq_some_iff.1 h
  have hgives := hchange old hfound (hfields _ (Table.mem_of_find? hfound))
  cases hold : change old with
  | error e =>
    rw [hold] at hgives
    exact hgives
  | ok new =>
    rw [hold] at hgives
    refine ⟨Table.names_insert_of_find? hfound new, fun field hfield => ?_⟩
    obtain rfl | hmem := Table.mem_insert hfield
    · exact hgives
    · exact hfields field hmem

variable {held : Option SessionRef}

theorem askType (v : Value) :
    (v.askType held).Gives (fun _ => True)
    (∃ ref own, v = .session ref ∧ held = some own ∧ ref.id = own.id) := by
  unfold Value.askType
  split
  · rename_i hheld
    cases v with
    | session ref =>
      cases held with
      | none => cases hheld
      | some own => exact .inr ⟨rfl, ref, own, rfl, rfl, (beq_iff_eq.1 hheld).symm⟩
    | _ => cases hheld
  · trivial

/-- A value that is no record and no array where one is needed. If it is the session that is held
then the run breaks off. -/
theorem mismatch {step : Place.Step} {rest : List Place.Step} (v : Value)
    (cause : RuntimeError.Cause) (loc : Location)
    (h : (RuntimeError.raised cause loc).isPlain = true) :
    (v.askType held >>= fun _ => (Attempt.fail cause loc : Attempt Value)).Gives (src.Good m)
      (∃ own, held = some own ∧ v.Meets own (step :: rest)) := by
  refine ((askType v).imp ?_).bind fun _ _ => .inl h
  rintro ⟨ref, own, rfl, hown, hsame⟩
  exact ⟨own, hown, .here hsame⟩

/-- A part of a good value is changed, and the value is good again. The run breaks off only if the
session that is held is on the way. -/
theorem modifyAt {change : Value → Attempt Value} (loc : Location)
    (hchange : ∀ v, src.Good m v → (change v).Gives (src.Good m) False) (path : List Place.Step) :
    ∀ v, src.Good m v →
      (v.modifyAt held loc change path).Gives (src.Good m)
      (∃ own, held = some own ∧ v.Meets own path) := by
  induction path with
  | nil => exact fun v hv => (hchange v hv).imp False.elim
  | cons step rest ih =>
    intro v hv
    cases step with
    | field name =>
      cases v with
      | record typeName fields =>
        obtain ⟨⟨decl, hdecl, hname, hnames⟩, hfields⟩ := good_record.1 hv
        unfold Value.modifyAt
        cases hmodify : Table.modify? fields name (Value.modifyAt held loc change rest) with
        | none => exact .inl rfl
        | some result =>
          refine (modify? hfields (fun v hfound hv =>
            (ih v hv).imp ?_) hmodify).bind fun after hafter =>
            good_record.2 ⟨⟨decl, hdecl, hname, hafter.1.trans hnames⟩, hafter.2⟩
          rintro ⟨own, hown, hmeets⟩
          exact ⟨own, hown, .field hfound hmeets⟩
      | _ => exact mismatch _ _ loc rfl
    | index index =>
      cases v with
      | array items =>
        refine ((askType index).imp ?_).bind fun _ _ =>
          (position index items.length loc).bind fun i _ =>
          ((ih _ (item hv i)).imp ?_).bind fun new hnew => good_array.2 fun v hv' => ?_
        · rintro ⟨ref, own, rfl, hown, hsame⟩
          exact ⟨own, hown, .index hsame⟩
        · rintro ⟨own, hown, hmeets⟩
          cases hitem : items[i]? with
          | none =>
            rw [hitem, getD_none] at hmeets
            cases hmeets
          | some v =>
            rw [hitem, getD_some] at hmeets
            exact ⟨own, hown, .item (mem_of_getElem? hitem) hmeets⟩
        · obtain hold | rfl := mem_or_eq_of_mem_set hv'
          · exact good_array.1 hv v hold
          · exact hnew
      | _ => exact mismatch _ _ loc rfl

theorem inputValue (decl : Variable) (line : String) :
    (Exec.inputValue decl line).Gives (src.Good m) B := by
  unfold Exec.inputValue
  dsimp only
  split
  all_goals first | exact good_text _ | split
  all_goals first | exact good_number _ | exact good_boolean _ | exact .inl rfl

end Attempt.Gives

/-! ## Steps -/

section

variable {α : Type} {files : Store}

/-- An outcome with a sound machine that continues `m`. The result satisfies `Q`, and an error is
explained by the sources. -/
def Outcome.Kept (src : Sources files) (m : Machine) (Q : Machine → α → Prop) : Outcome α → Prop
  | .done a m' => src.Continues m m' ∧ src.Sound m' ∧ Q m' a
  | .failed e m' => src.Continues m m' ∧ src.Sound m' ∧ src.Explains m' e
  | .exhausted => True

def Exec.Keeps (src : Sources files) (m : Machine) (Q : Machine → α → Prop) (x : Exec α) : Prop :=
  (x m).Kept src m Q

end

namespace Exec.Keeps

variable {α β : Type} {files : Store} {src : Sources files} {m : Machine} {Q : Machine → α → Prop}
  {R : Machine → β → Prop} {x : Exec α}

theorem done (h : Keeps src m Q x) {a : α} {m' : Machine} (hrun : x m = .done a m') :
    src.Continues m m' ∧ src.Sound m' ∧ Q m' a := by
  unfold Keeps at h
  rw [hrun] at h
  exact h

theorem failed (h : Keeps src m Q x) {e : RuntimeError} {m' : Machine} (hrun : x m = .failed e m') :
    src.Continues m m' ∧ src.Sound m' ∧ src.Explains m' e := by
  unfold Keeps at h
  rw [hrun] at h
  exact h

theorem mono {Q' : Machine → α → Prop} (h : Keeps src m Q x)
    (hQ : ∀ m' a, src.Continues m m' → Q m' a → Q' m' a) : Keeps src m Q' x := by
  unfold Keeps at h ⊢
  cases hrun : x m with
  | done a m' =>
    rw [hrun] at h
    exact ⟨h.1, h.2.1, hQ m' a h.1 h.2.2⟩
  | failed e m' =>
    rw [hrun] at h
    exact h
  | exhausted => trivial

theorem pure {a : α} (hm : src.Sound m) (ha : Q m a) : Keeps src m Q (Pure.pure a) :=
  ⟨.refl m, hm, ha⟩

theorem throw {e : RuntimeError} (hm : src.Sound m) (he : src.Explains m e) :
    Keeps src m Q (Exec.throw e) :=
  ⟨.refl m, hm, he⟩

theorem fail {cause : RuntimeError.Cause} {loc : Location} (hm : src.Sound m)
    (he : src.Explains m (.raised cause loc)) : Keeps src m Q (fail cause loc) :=
  throw hm he

theorem ofExcept {a : Attempt α} {P : α → Prop} (hm : src.Sound m)
    (ha : a.Gives P (src.Explains m .panicked))
    (hQ : ∀ v, P v → Q m v) : Keeps src m Q (ofExcept a) := by
  cases a with
  | ok v => exact pure hm (hQ v ha)
  | error e =>
    obtain hplain | ⟨rfl, hbreaks⟩ := ha
    · exact throw hm (explains_of_isPlain hplain)
    · exact throw hm hbreaks

theorem exhausted : Keeps src m Q exhausted := trivial

/-- One step after another. The second one starts where the first has left the machine. -/
theorem bind {f : α → Exec β} (hx : Keeps src m Q x)
    (hf : ∀ a m₁, x m = .done a m₁ → src.Continues m m₁ → src.Sound m₁ → Q m₁ a →
      Keeps src m₁ R (f a)) :
    Keeps src m R (x >>= f) := by
  unfold Keeps at hx ⊢
  simp only [Bind.bind, Exec.bind]
  cases hrun : x m with
  | done a m₁ =>
    rw [hrun] at hx
    obtain ⟨hc, hm₁, ha⟩ := hx
    have hnext := hf a m₁ hrun hc hm₁ ha
    unfold Keeps at hnext
    simp only
    cases hrun' : f a m₁ with
    | done b m₂ | failed e m₂ =>
      rw [hrun'] at hnext
      exact ⟨hc.trans hnext.1, hnext.2⟩
    | exhausted => trivial
  | failed e m₁ =>
    rw [hrun] at hx
    exact hx
  | exhausted => trivial

theorem after {f : α → Exec β} (hx : Keeps src m Q x) (hreads : Reads True x)
    (hf : ∀ a, x m = .done a m → Q m a → Keeps src m R (f a)) : Keeps src m R (x >>= f) :=
  hx.bind fun a m₁ hrun _ _ ha => by
    obtain rfl := hreads.done hrun
    exact hf a hrun ha

theorem machine {f : Machine → Exec β} (hf : Keeps src m R (f m)) : Keeps src m R (machine >>= f) :=
  hf

theorem update {change : Machine → Machine} (h : src.Continues m (change m) ∧ src.Sound (change m)) :
    Keeps src m (fun _ _ => True) (update change) :=
  ⟨h.1, h.2, trivial⟩

theorem between (before after : Machine → Machine) {Q' : Machine → α → Prop}
    (hx : Keeps src (before m) Q x)
    (hafter : ∀ m', src.Continues (before m) m' → src.Sound m' → src.Continues m (after m') ∧
      src.Sound (after m'))
    (hsame : ∀ m', (after m').linked = m'.linked ∧ (after m').records = m'.records ∧
      (after m').heap = m'.heap)
    (hQ : ∀ m' a, Q m' a → Q' (after m') a) : Keeps src m Q' (Exec.between before after x) := by
  unfold Keeps Exec.between
  unfold Keeps at hx
  cases hrun : x (before m) with
  | done a m' =>
    rw [hrun] at hx
    obtain ⟨hc, hm'⟩ := hafter m' hx.1 hx.2.1
    exact ⟨hc, hm', hQ m' a hx.2.2⟩
  | failed e m' =>
    rw [hrun] at hx
    obtain ⟨hc, hm'⟩ := hafter m' hx.1 hx.2.1
    exact ⟨hc, hm', hx.2.2.same (hsame m').1 (hsame m').2.1 (hsame m').2.2⟩
  | exhausted => trivial

end Exec.Keeps

/-! ## Frames, depth and directories -/

/-- The machine in the frame of a call, with the session that the call is on. -/
def Machine.called (receiver : Option SessionRef) (m : Machine) : Machine :=
  let bindings : Bindings := receiver.toList.map fun ref =>
    ⟨Expr.thisName, .parameter, none, some (.session ref)⟩
  { m with scopes := { m.scopes with frames := ⟨.call, bindings⟩ :: m.scopes.frames } }

theorem Exec.bindThis_push (receiver : Option SessionRef) (m : Machine) :
    bindThis receiver (m.push .call) = .done () (m.called receiver) := by
  cases receiver with
  | none => rfl
  | some ref => rfl

section

variable {files : Store} {src : Sources files} {m m' : Machine}

theorem Sources.stands_this {ref : SessionRef} (h : src.Admits m (.session ref)) :
    src.Stands m ⟨Expr.thisName, .parameter, none, some (.session ref)⟩ := by
  refine ⟨?_, ?_, fun _ => ⟨ref, rfl⟩⟩
  · rintro v ⟨⟩
    exact good_session h
  · rintro ⟨⟩

theorem Sources.Sound.called (hm : src.Sound m) {receiver : Option SessionRef}
    (h : ∀ ref, receiver = some ref → src.Admits m (.session ref)) :
    src.Sound (m.called receiver) := by
  have hscopes : (m.called receiver).scopes.All (src.Stands m) := by
    refine ⟨forall_mem_cons.2 ⟨fun symbol hsymbol => ?_, hm.scopes.frames⟩, hm.scopes.globals⟩
    obtain ⟨ref, href, rfl⟩ := mem_map.1 hsymbol
    exact stands_this (h ref (mem_toList.1 href))
  exact hm.place hscopes m.depth m.baseDir

theorem Sources.Sound.member (hm : src.Sound m) {object : Instance} {id : Nat}
    (hobject : m.heap[id]? = some object) {name : String} {v : Value}
    (hmember : object.member? name = some v) : src.Good m v := by
  unfold Instance.member? at hmember
  split at hmember
  · rename_i value hfield
    cases hmember
    exact hm.fields id object hobject _ (Table.mem_of_find? hfield)
  · obtain ⟨decl, hdecl, rfl⟩ := map_eq_some_iff.1 hmember
    obtain ⟨session, shared, hsession, hshape⟩ := hm.shapes id object hobject
    have hmethods : object.methods = (session.shape shared).methods :=
      congrArg Instance.Shape.methods hshape
    obtain ⟨member, hmember, hmethod⟩ := session.shape_method shared (hmethods ▸ hdecl)
    exact good_suggestion (.inr ⟨session, member, hsession, hmember, hmethod⟩)

theorem Sources.Continues.of_frame {inside : Machine} (hinside : src.Continues inside m')
    (hlinked : inside.linked = m.linked) (hheap : inside.heap = m.heap)
    (hrecords : inside.records = m.records) (hglobals : inside.scopes.globals = m.scopes.globals)
    (hframes : inside.scopes.frames.tail = m.scopes.frames) (hne : inside.scopes.frames ≠ []) :
    src.Continues m m'.pop := by
  refine .pop ((Machine.Grows.same hlinked hheap).trans hinside.toGrows)
    (fun name hname => hinside.records name (hrecords ▸ hname)) fun name hname => ?_
  rw [hinside.reserved name hname]
  cases hall : inside.scopes.frames with
  | nil => exact absurd hall hne
  | cons top below =>
    rw [hall] at hframes
    refine ⟨(top.kind, top.bindings.find? name), ?_⟩
    simp only [Scopes.traces, hall, map_cons, hglobals, ← hframes, tail_cons]

end

namespace Exec.Keeps

variable {α : Type} {files : Store} {src : Sources files} {m : Machine} {Q Q' : Machine → α → Prop}
  {x : Exec α}

theorem inFrame {kind : Frame.Kind} (hx : Keeps src (m.push kind) Q x)
    (hQ : ∀ m' a, Q m' a → Q' m'.pop a) : Keeps src m Q' (inFrame kind x) :=
  between (Machine.push kind) Machine.pop hx
    (fun _ hc hm' => ⟨hc.of_frame rfl rfl rfl rfl rfl (by simp [Machine.push, Scopes.enter]),
      hm'.pop⟩)
    (fun _ => ⟨rfl, rfl, rfl⟩) hQ

theorem inCall {receiver : Option SessionRef} (hx : Keeps src (m.called receiver) Q x)
    (hQ : ∀ m' a, Q m' a → Q' m'.pop a) :
    Keeps src m Q' (Exec.inFrame .call do Exec.bindThis receiver; x) := by
  have hframe : (Exec.inFrame .call do Exec.bindThis receiver; x) m =
      Exec.between (Machine.called receiver) Machine.pop x m := by
    show Exec.between (Machine.push .call) Machine.pop _ m = _
    unfold Exec.between
    simp only [Bind.bind, Exec.bind, Exec.bindThis_push]
  unfold Keeps
  rw [hframe]
  refine between (Machine.called receiver) Machine.pop hx
    (fun _ hc hm' => ⟨hc.of_frame rfl rfl rfl rfl rfl ?_, hm'.pop⟩) (fun _ => ⟨rfl, rfl, rfl⟩) hQ
  exact cons_ne_nil _ _

theorem deeper (hx : Keeps src m.deepen Q x) (hQ : ∀ m' a, Q m' a → Q' m'.rise a) :
    Keeps src m Q' (deeper x) :=
  between Machine.deepen Machine.rise hx (fun _ hc hm' =>
    ⟨⟨⟨hc.linked, hc.shapes⟩, hc.records, hc.reserved⟩, hm'.rise⟩)
    (fun _ => ⟨rfl, rfl, rfl⟩) hQ

theorem inDirectory {dir : String} (hx : Keeps src (m.moved dir) Q x)
    (hQ : ∀ m' a, Q m' a → Q' (m'.moved m.baseDir) a) : Keeps src m Q' (inDirectory dir x) :=
  between (Machine.moved dir) (Machine.moved m.baseDir) hx
    (fun _ hc hm' => ⟨⟨⟨hc.linked, hc.shapes⟩, hc.records, hc.reserved⟩, hm'.moved _⟩)
    (fun _ => ⟨rfl, rfl, rfl⟩) hQ

/-! ## The machine -/

theorem define {symbol : Symbol} {loc : Location} (hm : src.Sound m) (hsymbol : src.Stands m symbol)
    (hfree : ¬ src.Reserved symbol.name) :
    Keeps src m (fun _ _ => True) (define symbol loc) := by
  refine machine ?_
  cases hdefine : m.scopes.define? symbol with
  | none => exact fail hm trivial
  | some scopes => exact update (hm.define hsymbol hfree hdefine)

theorem allocate {object : Instance} (hm : src.Sound m) (hshape : src.Shaped m object)
    (hfields : ∀ field ∈ object.fields, src.Good m field.2) :
    Keeps src m (fun m' ref => src.Admits m' (.session ref) ∧ ref.name = object.name)
      (allocate object) := by
  obtain ⟨hc, hm', hadmits⟩ := hm.allocate hshape hfields
  exact ⟨hc, hm', hadmits, rfl⟩

theorem writeLine (hm : src.Sound m) (text : String) :
    Keeps src m (fun _ _ => True) (writeLine text) := by
  refine machine ?_
  split
  · exact update (hm.outside _ m.input m.capacity m.failures m.signal)
  · exact throw hm trivial
  · exact update (hm.outside _ m.input _ m.failures m.signal)

theorem readLine (hm : src.Sound m) (prompt : String) :
    Keeps src m (fun _ _ => True) (readLine prompt) := by
  refine (update (hm.outside _ m.input m.capacity m.failures m.signal)).bind fun _ m₁ _ _ hm₁ _ =>
    machine ?_
  split
  · exact pure hm₁ trivial
  · exact (update
      (hm₁.outside m₁.events _ m₁.capacity m₁.failures m₁.signal)).bind fun _ _ _ _ hm₂ _ =>
      pure hm₂ trivial

theorem readExternal (hm : src.Sound m) (decl : Variable) :
    Keeps src m src.Good (readExternal decl) := by
  refine (readLine hm _).bind fun line m₁ _ _ hm₁ _ => ?_
  cases line with
  | none => exact fail hm₁ trivial
  | some line => exact ofExcept hm₁ (.inputValue decl line) fun _ h => h

theorem checkAssertion (hm : src.Sound m) (holds : Bool) (message : Option String)
    (loc : Location) : Keeps src m (fun _ _ => True) (checkAssertion holds message loc) := by
  cases holds with
  | true => exact pure hm trivial
  | false => exact update (hm.outside m.events m.input m.capacity _ m.signal)

theorem requireDepth (hm : src.Sound m) (limit : Nat) (loc : Location) :
    Keeps src m (fun _ _ => True) (requireDepth limit loc) := by
  refine machine ?_
  split
  · exact fail hm trivial
  · exact pure hm trivial

theorem rejectEscape (hm : src.Sound m) (flow : Flow) :
    Keeps src m (fun _ _ => True) (rejectEscape flow) := by
  cases flow with
  | normal | awaken => exact pure hm trivial
  | snap | sink | jump => exact machine (fail hm trivial)

theorem intrinsic (hm : src.Sound m) (name : String) (args : List Value) (loc : Location) :
    Keeps src m src.Good (Exec.intrinsic name args loc) := by
  have hargument : Keeps src m (fun _ _ => True) (Exec.onlyArgument name args loc) := by
    unfold Exec.onlyArgument
    split
    · exact pure hm trivial
    · exact fail hm trivial
  unfold Exec.intrinsic
  split
  · refine hargument.bind fun arg m₁ _ _ hm₁ _ => ?_
    have hnumber : Keeps src m₁ (fun _ _ => True) (Exec.ofExcept (arg.asNumber loc)) :=
      ofExcept hm₁ (.asNumber arg loc) fun _ h => h
    refine hnumber.bind fun time m₂ _ _ hm₂ _ => ?_
    exact (update
      (hm₂.outside _ m₂.input m₂.capacity m₂.failures m₂.signal)).bind fun _ _ _ _ hm₃ _ =>
      pure hm₃ good_null
  split
  · exact hargument.bind fun arg m₁ _ _ hm₁ _ => (writeLine hm₁ _).bind fun _ _ _ _ hm₂ _ =>
      pure hm₂ good_null
  · exact fail hm trivial

/-- The value of a name. If the name is that of a record type there is none. -/
theorem nameValue (hm : src.Sound m) {name : String} {loc : Location}
    (he : src.HasExpr m.linked (.name name loc)) : Keeps src m src.Good (nameValue name loc) := by
  refine machine ?_
  cases hfound : m.scopes.resolve? name with
  | none => exact fail hm trivial
  | some symbol =>
    obtain ⟨hstands, hname⟩ := hm.scopes.resolve? hfound
    simp only
    split
    · rename_i v hv
      exact pure hm (hstands.value v hv)
    · rename_i hkind
      exact fail hm ⟨he, hname ▸ hstands.record hkind⟩
    · exact pure hm good_null

/-! ## Members -/

variable {ref : SessionRef}

theorem object (hm : src.Sound m) (href : src.Admits m (.session ref)) :
    Keeps src m (fun m' own => m'.heap[ref.id]? = some own) (object ref) := by
  obtain ⟨own, hown, _⟩ := href
  refine machine ?_
  rw [hown]
  exact pure hm hown

theorem requireVisible (hm : src.Sound m) (own : Instance) (session member : String)
    (viaThis : Bool) (loc : Location) :
    Keeps src m (fun _ _ => True) (Exec.requireVisible own session member viaThis loc) := by
  unfold Exec.requireVisible
  split
  · exact fail hm trivial
  · exact pure hm trivial

theorem staticObject (hm : src.Sound m) (session member : String) (loc : Location) :
    Keeps src m (fun m' found => m'.heap[found.1.id]? = some found.2)
      (staticObject session member loc) := by
  refine machine ?_
  cases hfound : m.statics.find? session with
  | none => exact fail hm trivial
  | some ref =>
    exact (object hm (hm.statics session ref hfound).2).bind fun own m₁ _ _ hm₁ hown => pure hm₁ hown

theorem sessionMember (hm : src.Sound m) (href : src.Admits m (.session ref)) (member : String)
    (viaThis : Bool) (loc : Location) :
    Keeps src m src.Good (sessionMember ref member viaThis loc) := by
  refine (object hm href).after (.object ref) fun own _ hown =>
    (requireVisible hm own _ member viaThis loc).after
      (.requireVisible own _ member viaThis loc) fun _ _ _ => ?_
  cases hmember : own.member? member with
  | some v => exact pure hm (hm.member hown hmember)
  | none =>
    refine (staticObject hm own.name member loc).after
      (.staticObject own.name member loc) fun found _ hfound =>
        (requireVisible hm found.2 _ member viaThis loc).after
          (.requireVisible found.2 _ member viaThis loc) fun _ _ _ => ?_
    cases hshared : found.2.member? member with
    | some v => exact pure hm (hm.member hfound hshared)
    | none => exact fail hm trivial

theorem memberValue (hm : src.Sound m) {target : Value} (htarget : src.Good m target)
    (member : String) (viaThis : Bool) (loc : Location) :
    Keeps src m src.Good (Exec.memberValue target member viaThis loc) := by
  cases target with
  | record typeName fields =>
    unfold Exec.memberValue
    simp only
    cases hfound : Table.find? fields member with
    | none => exact fail hm trivial
    | some v => exact pure hm ((good_record.1 htarget).2 _ (Table.mem_of_find? hfound))
  | session ref => exact sessionMember hm htarget.here member viaThis loc
  | _ => exact fail hm trivial

theorem receiver (hm : src.Sound m) (href : src.Admits m (.session ref)) (method : Suggestion) :
    Keeps src m (fun m' own => src.Admits m' (.session own)) (Exec.receiver ref method) := by
  unfold Exec.receiver
  split
  · refine machine (pure hm ?_)
    cases hfound : m.statics.find? ref.name with
    | none => exact href
    | some own => exact (hm.statics _ own hfound).2
  · exact pure hm href

/-! ## Changing a place -/

section

variable {change : Value → Attempt Value} {path : List Place.Step}

/-- A variable is changed. What a reserved name stands for must not be changed. -/
theorem modifyVariable (hm : src.Sound m) {name : String} (nameLoc loc : Location)
    (hchange : ∀ v, src.Good m v → (change v).Gives (src.Good m) False)
    (hreserved : src.Reserved name → ∀ ref v, change (.session ref) ≠ .ok v) :
    Keeps src m (fun _ _ => True) (Exec.modifyVariable name nameLoc loc change) := by
  refine machine ?_
  cases hfound : m.scopes.resolve? name with
  | none => exact fail hm trivial
  | some symbol =>
    obtain ⟨hstands, hname⟩ := hm.scopes.resolve? hfound
    simp only
    split
    · exact fail hm trivial
    have hold : src.Good m (symbol.value.getD .null) := by
      cases hvalue : symbol.value with
      | none => exact good_null
      | some v => exact hstands.value v hvalue
    have hattempt : Keeps src m src.Good (Exec.ofExcept (change (symbol.value.getD .null))) :=
      ofExcept hm ((hchange _ hold).imp False.elim) fun _ h => h
    refine hattempt.after (.ofExcept _) fun v hv hgood => update (hm.assign hgood fun hname' => ?_)
    obtain ⟨ref, href⟩ := hstands.reserved (hname ▸ hname')
    rw [href] at hv
    cases hdone : change (.session ref) with
    | ok v => exact hreserved hname' ref v hdone
    | error e =>
      rw [getD_some, hdone] at hv
      cases hv

theorem modifyField (hm : src.Sound m) {own : Instance} (hown : m.heap[ref.id]? = some own)
    (name : String) (hchange : ∀ v, src.Good m v → (change v).Gives (src.Good m) (v.Meets ref path))
    (hbreaks : ∀ v, own.fields.find? name = some v → v.Meets ref path → src.Explains m .panicked) :
    Keeps src m (fun _ _ => True) (Exec.modifyField ref own name change) := by
  unfold Exec.modifyField
  cases hmodify : own.fields.modify? name change with
  | none => exact pure hm trivial
  | some result =>
    have hgives := Attempt.Gives.modify? (hm.fields _ _ hown)
      (fun v hfound hv => (hchange v hv).imp (hbreaks v hfound)) hmodify
    have hattempt : Keeps src m (fun _ after => after.names = own.fields.names ∧ ∀ field ∈ after,
        src.Good m field.2) (Exec.ofExcept result) := ofExcept hm hgives fun _ h => h
    refine hattempt.after (.ofExcept _) fun fields _ hfields => ?_
    have hupdate : Keeps src m (fun _ _ => True) (Exec.setObject ref { own with fields }) :=
      update (hm.modify hown hfields.1 hfields.2)
    exact hupdate.bind fun _ _ _ _ hm₁ _ => pure hm₁ trivial

theorem modifySession {change : SessionRef → Value → Attempt Value} (hm : src.Sound m)
    (href : src.Admits m (.session ref)) (name : String) (viaThis : Bool) (loc : Location)
    (hchange : ∀ own m', m.Grows m' → ∀ v, src.Good m' v →
      (change own v).Gives (src.Good m') (v.Meets own path))
    (hbreaks : ∀ (own : SessionRef) (m' : Machine) object v, m.Grows m' →
      m'.heap[own.id]? = some object → object.fields.find? name = some v → v.Meets own path →
      src.Explains m' .panicked) :
    Keeps src m (fun _ _ => True) (modifySession ref name viaThis loc change) := by
  refine (object hm href).after (.object ref) fun own _ hown =>
    (requireVisible hm own _ name viaThis loc).after (.requireVisible own _ name viaThis loc)
      fun _ _ _ => (modifyField hm hown name (hchange ref m (.same rfl rfl)) fun v =>
        hbreaks ref m own v (.same rfl rfl) hown).bind fun changed m₁ _ hc hm₁ _ => ?_
  cases changed with
  | true => exact pure hm₁ trivial
  | false =>
    refine (staticObject hm₁ own.name name loc).after
      (.staticObject own.name name loc) fun found _ hfound =>
        (requireVisible hm₁ found.2 _ name viaThis loc).after
          (.requireVisible found.2 _ name viaThis loc) fun _ _ _ =>
            (modifyField hm₁ hfound name (hchange found.1 m₁ hc.toGrows) fun v =>
              hbreaks found.1 m₁ found.2 v hc.toGrows hfound).bind fun changed m₂ _ _ hm₂ _ => ?_
    cases changed with
    | true => exact pure hm₂ trivial
    | false => exact fail hm₂ trivial

end

/-- A good value is written to a place. A reserved name is no place, but a place may be inside of
what it stands for. -/
theorem modifyPlace (hm : src.Sound m) {place : Place} (loc : Location) {value : Value}
    (hvalue : src.Good m value)
    (hvariable : ∀ name at', place.root = .variable name at' → place.path = [] → ¬ src.Reserved name)
    (hfield : ∀ ref name viaThis, place.root = .field ref name viaThis →
      src.Admits m (.session ref) ∧
      ∃ target value loc, src.HasExpr m.linked (.assign target value loc) ∧
      target.Leads name place.path) :
    Keeps src m (fun _ _ => True) (Exec.modifyPlace place loc fun _ => .ok value) := by
  have hchange : ∀ held m', m.Grows m' → ∀ v, src.Good m' v →
      (v.modifyAt held loc (fun _ => .ok value) place.path).Gives (src.Good m')
        (∃ own, held = some own ∧ v.Meets own place.path) := by
    intro held m' hg
    refine Attempt.Gives.modifyAt loc ?_ place.path
    exact fun _ _ => hvalue.mono hg
  unfold Exec.modifyPlace
  simp only
  split
  · rename_i name at' hroot
    have hvalues : ∀ v, src.Good m v →
        (v.modifyAt none loc (fun _ => .ok value) place.path).Gives (src.Good m) False := fun v hv =>
      (hchange none m (.same rfl rfl) v hv).imp fun ⟨_, hnone, _⟩ => by cases hnone
    refine modifyVariable hm at' loc hvalues fun hreserved ref v hdone => ?_
    cases hpath : place.path with
    | nil => exact hvariable name at' hroot hpath hreserved
    | cons step rest =>
      rw [hpath] at hdone
      cases step with
      | field | index => cases hdone
  · rename_i ref name viaThis hroot
    obtain ⟨hadmits, target, e, at', hassign, hleads⟩ := hfield ref name viaThis hroot
    refine modifySession hm hadmits name viaThis loc (fun own m' hg v hv => ?_)
      fun own m' object v hg hobject hfound (hmeets : v.Meets own place.path) => ?_
    · refine (hchange (some own) m' hg v hv).imp ?_
      rintro ⟨_, ⟨⟩, hmeets⟩
      exact hmeets
    · exact ⟨target, e, at', hassign.mono hg.linked, own, object, name, place.path, v, hobject,
        hfound, hleads, hmeets⟩

end Exec.Keeps

end Trance
