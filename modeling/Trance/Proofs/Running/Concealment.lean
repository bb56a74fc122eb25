import Trance.Proofs.Running.Custody

/-!
# Concealed members

A concealed member of a session is reached through `this` only: any other access to it fails, and
changes nothing. What `this` stands for is another matter. It is bound for the body of a suggestion
that is called as a member of a session, and for a constructor; but it is a name like any other, so
a program can bind it itself. As long as it does not, a concealed member is reached only inside of a
call on the very session whose member it is. -/

namespace Trance

open Exec Visit Instance

/-! ## Accesses -/

/-- The object of a session. -/
def Machine.object (m : Machine) (ref : SessionRef) : Instance :=
  m.heap[ref.id]?.getD (empty ref.name)

/-- Whether an object has a member for itself: a field if it is written, and else a field or a
method. -/
def Instance.owns (object : Instance) (writes : Bool) (member : String) : Bool :=
  if writes then object.fields.has member else (object.member? member).isSome

/-- A member of a session is concealed: by its object, or by the object of its name if the member is
looked for there. -/
def Machine.Guards (m : Machine) (writes : Bool) (ref : SessionRef) (member : String) : Prop :=
  (m.object ref).conceals member = true ∨
  (m.object ref).owns writes member = false ∧ ∃ shared, m.statics.find?
      (m.object ref).name = some shared ∧ (m.object shared).conceals member = true

/-- `Accesses v writes ref member viaThis loc m`: the visit `v` comes to a member of the session
`ref` on the machine `m`, to read it, to call it or to write to it or inside of it. -/
inductive Visit.Accesses (cfg : Settings) :
    Visit → Bool → SessionRef → String → Bool → Location → Machine → Prop where
  | read {n object member loc m ref m₁} (done : eval cfg n object m = .done (.session ref) m₁) :
      Accesses cfg ⟨n + 1, .eval (.field object member loc), m⟩ false ref member object.isThis loc m₁
  | call {n object member at' args loc m ref m₁}
      (done : eval cfg n object m = .done (.session ref) m₁) :
      Accesses cfg ⟨n + 1, .eval (.call (.field object member at') args loc), m⟩ false ref member
        object.isThis loc m₁
  | write {n target e loc m v m₁ ref member viaThis path m₂} (done : eval cfg n e m = .done v m₁)
      (placed : Exec.place (eval cfg n) loc target m₁ = .done ⟨.field ref member viaThis, path⟩ m₂) :
      Accesses cfg ⟨n + 1, .eval (.assign target e loc), m⟩ true ref member viaThis loc m₂

/-! ## Refused accesses -/

/-- The error that an outcome fails with, and the machine that it leaves behind. -/
def Outcome.failure? {α : Type} : Outcome α → Option (RuntimeError × Machine)
  | .failed e m => some (e, m)
  | .done .. | .exhausted => none

section

variable {m : Machine} {ref : SessionRef} {member : String}

theorem Exec.object_eq (ref : SessionRef) (m : Machine) :
    Exec.object ref m = .done (m.object ref) m := rfl

theorem Exec.sessionMember_refused (h : m.Guards false ref member) (loc : Location) :
    sessionMember ref member false loc m =
      .failed (.raised (.concealedMember (m.object ref).name member) loc) m := by
  unfold sessionMember
  simp only [Bind.bind, Exec.bind, object_eq, requireVisible, Bool.not_false, Bool.and_true]
  by_cases hown : (m.object ref).conceals member = true
  · simp only [hown, if_true, fail, Exec.throw]
  · obtain hconceals | ⟨hlacks, shared, hshared, hconceals⟩ := h
    · exact absurd hconceals hown
    have hnone : (m.object ref).member? member = none := by simpa [owns] using hlacks
    simp only [hown, hnone, Pure.pure, Exec.pure, staticObject, machine, Bind.bind, Exec.bind,
      hshared, object_eq, hconceals, if_true, fail, Exec.throw, Bool.false_eq_true, if_false]

theorem Exec.modifySession_refused (h : m.Guards true ref member) (loc : Location)
    (change : SessionRef → Value → Attempt Value) : modifySession ref member false loc change m =
      .failed (.raised (.concealedMember (m.object ref).name member) loc) m := by
  unfold modifySession
  simp only [Bind.bind, Exec.bind, object_eq, requireVisible, Bool.not_false, Bool.and_true]
  by_cases hown : (m.object ref).conceals member = true
  · simp only [hown, if_true, fail, Exec.throw]
  · obtain hconceals | ⟨hlacks, shared, hshared, hconceals⟩ := h
    · exact absurd hconceals hown
    have hnone : (m.object ref).fields.modify? member (change ref) = none := by
      rw [Table.modify?_eq, Option.not_isSome_iff_eq_none.1
        (Bool.eq_false_iff.1 hlacks), Option.map_none]
    simp only [hown, modifyField, hnone, Pure.pure, Exec.pure, staticObject, machine,
      Bind.bind, Exec.bind, hshared, object_eq, hconceals, if_true, fail, Exec.throw,
      Bool.false_eq_true, if_false]

end

variable {cfg : Settings} {ref own : SessionRef} {member : String} {loc : Location}
  {m m' : Machine} {n : Nat} {p : Program} {decl : Suggestion}

/-- **An access to a concealed member but through `this` fails**, and changes nothing. -/
theorem Visit.Accesses.refused {v : Visit} {writes : Bool}
    (h : v.Accesses cfg writes ref member false loc m) (hguards : m.Guards writes ref member) :
    (v.task.step cfg v.bound v.machine).failure? =
      some (.raised (.concealedMember (m.object ref).name member) loc, m) := by
  generalize hvia : false = viaThis at h
  cases h with
  | @read n object _ _ m₀ _ _ done =>
    show (eval cfg (n + 1) (.field object member loc) m₀).failure? = _
    simp only [eval, evalStep, Bind.bind, Exec.bind, done, memberValue, ← hvia,
      sessionMember_refused hguards]
    rfl
  | @call n object _ at' args _ m₀ _ _ done =>
    show (eval cfg (n + 1) (.call (.field object member at') args loc) m₀).failure? = _
    simp only [eval, evalStep, callExpr, callMember, Bind.bind, Exec.bind, done,
      memberValue, ← hvia, sessionMember_refused hguards]
    rfl
  | @write n target e _ m₀ value m₁ _ _ _ path _ done placed =>
    subst hvia
    show (eval cfg (n + 1) (.assign target e loc) m₀).failure? = _
    simp only [eval, evalStep, assign, Bind.bind, Exec.bind, done, placed,
      modifyPlace, modifySession_refused hguards]
    rfl

/-! ## What `this` stands for -/

def Machine.this? (m : Machine) : Option Value := (m.scopes.resolve? Expr.thisName).bind Symbol.value

theorem Exec.eval_this {object : Expr} (hthis : object.isThis = true)
    (h : eval cfg n object m = .done (.session ref) m') :
    m' = m ∧ m.this? = some (.session ref) := by
  cases object with
  | name name loc =>
    obtain rfl : name = Expr.thisName := by simpa [Expr.isThis] using hthis
    cases n with
    | zero => cases h
    | succ n =>
      have hvalue : nameValue Expr.thisName loc m = .done (.session ref) m' := h
      obtain rfl := Reads.done (.nameValue _ _) hvalue
      refine ⟨rfl, ?_⟩
      unfold Machine.this?
      simp only [nameValue, resolve?, machine, Bind.bind, Exec.bind, Pure.pure, Exec.pure] at hvalue
      cases hfound : m'.scopes.resolve? Expr.thisName with
      | none => simp [hfound, fail, Exec.throw] at hvalue
      | some symbol =>
        obtain ⟨_, kind, _, value⟩ := symbol
        cases value with
        | none => cases kind <;> simp [hfound, fail, Exec.throw, Exec.pure] at hvalue
        | some v => simpa [hfound, Exec.pure] using hvalue
  | _ => cases hthis

theorem Exec.place_this {target : Expr} {place : Place}
    (h : Exec.place (eval cfg n) loc target m = .done place m')
    (hroot : place.root = .field ref member true) : m'.this? = some (.session ref) := by
  obtain ⟨-, object, m₁, hthis, hobject⟩ := field_of_place h hroot
  obtain ⟨rfl, hfound⟩ := eval_this hthis hobject
  exact hfound

theorem Scopes.resolve?_of_entered {s t : Scopes} {kind : Frame.Kind} {name : String}
    (h : t.traces name = ((kind, none) :: (s.traces name).1, (s.traces name).2)) :
    t.resolve? name = s.resolve? name ∨ t.resolve? name = s.globals.find? name := by
  have hentered : t.resolve? name = (s.enter kind).resolve? name := resolve?_of_traces h
  cases kind with
  | block => exact .inl hentered
  | call => exact .inr hentered

theorem Visit.Starts.of_bindsThis {v w : Visit} (edge : Starts cfg v w)
    (h : w.task.bindsThis = true) : ∃ n decl args receiver loc m,
      v = ⟨n + 1, .call decl args receiver loc, m⟩ ∧
      w = ⟨n, .body decl args receiver, m.deepen.push .call⟩ := by
  cases edge with
  | called count allowed =>
    obtain rfl := Reads.done (.requireDepth _ _) allowed
    exact ⟨_, _, _, _, _, _, rfl, rfl⟩
  | _ => cases h

/-- `Within c v`: `v` is reached from `c` without entering another body. -/
abbrev Visit.Within (cfg : Settings) : Visit → Visit → Prop :=
  Relation.ReflTransGen fun v w => Starts cfg v w ∧ w.task.bindsThis = false

/-- What is known about `this` where a visit is reached: it is not bound globally, a body is started
in a new frame, and elsewhere, if `this` stands for a session, then that is the one of the innermost
call. -/
structure Visit.KnowsThis (cfg : Settings) (root v : Visit) : Prop where
  globals : v.machine.scopes.globals.find? Expr.thisName = none
  frame : v.task.bindsThis = true → ∃ m : Machine, v.machine = m.push .call
  innermost : v.task.bindsThis = false → ∀ ref, v.machine.this? = some (.session ref) →
    ∃ c decl args, root.Reaches cfg c ∧ c.task = .body decl args (some ref) ∧ c.Within cfg v

section

variable {cfg : Settings} {src : Sources cfg.files} {root v w : Visit}

theorem Machine.this?_of_traces
    (h : m'.scopes.traces Expr.thisName = m.scopes.traces Expr.thisName) : m'.this? = m.this? := by
  unfold this?
  rw [Scopes.resolve?_of_traces h]

theorem Visit.KnowsThis.body {args : List Value} {receiver : Option SessionRef} {m₁ m₂ : Machine}
    (hthis : src.Reserved Expr.thisName) (hv : Sourced src ⟨n, .body decl args receiver, m⟩)
    (hreaches : root.Reaches cfg ⟨n, .body decl args receiver, m⟩)
    (h : KnowsThis cfg root ⟨n, .body decl args receiver, m⟩)
    (this : bindThis receiver m = .done () m₁)
    (params : bindParams decl.location (decl.params.zip args) m₁ = .done () m₂) :
    KnowsThis cfg root ⟨n, .list decl.body decl.body n, m₂⟩ := by
  obtain ⟨below, rfl⟩ : ∃ below : Machine, m = below.push .call := h.frame rfl
  rw [bindThis_push] at this
  cases this
  obtain ⟨hsound, htask⟩ := hv
  have hcalled : src.Sound (below.called receiver) :=
    Sources.Sound.called (hsound.place hsound.scopes.exit below.depth below.baseDir) fun ref href =>
      (htask.2.2 ref href).mono (.same rfl rfl)
  have hparams := Relies.params_of_sourced htask
    (show Machine.Grows _ (below.called receiver) from .same rfl rfl)
  obtain ⟨hc, -, -⟩ := (Relies.bindParams decl.location _ hcalled hparams).done params
  have htraces := hc.reserved _ hthis
  refine ⟨(congrArg Prod.snd htraces).trans h.globals, nofun, fun _ ref href => ?_⟩
  have hbound : (below.called receiver).this? = some (.session ref) :=
    (Machine.this?_of_traces htraces).symm.trans href
  cases receiver with
  | none =>
    have hglobal : (below.called none).this? =
        (below.scopes.globals.find? Expr.thisName).bind Symbol.value := rfl
    have hfree : below.scopes.globals.find? Expr.thisName = none := h.globals
    rw [hglobal, hfree] at hbound
    cases hbound
  | some own =>
    cases hbound
    exact ⟨_, decl, args, hreaches, rfl, .single ⟨.bodyList (bindThis_push _ _) params, rfl⟩⟩

theorem Visit.KnowsThis.step (hthis : src.Reserved Expr.thisName) (hv : v.Sourced src)
    (hreaches : root.Reaches cfg v) (h : KnowsThis cfg root v)
    (edge : Starts cfg v w) : KnowsThis cfg root w := by
  cases hbinds : v.task.bindsThis with
  | true =>
    obtain ⟨n, task, m⟩ := v
    cases task with
    | body decl args receiver =>
      cases edge with
      | bodyList this params => exact .body hthis hv hreaches h this params
    | _ => cases hbinds
  | false =>
    have hleads := ((edge.descends hv).leads fun htrue => by simp [hbinds] at htrue).reserved _ hthis
    have hglobals : w.machine.scopes.globals.find? Expr.thisName = none := by
      obtain hsame | ⟨kind, hentered⟩ := hleads
      · exact (congrArg Prod.snd hsame).trans h.globals
      · exact (congrArg Prod.snd hentered).trans h.globals
    refine ⟨hglobals, fun hbody => ?_, fun hother ref href => ?_⟩
    · obtain ⟨n, decl, args, receiver, loc, m, -, rfl⟩ := edge.of_bindsThis hbody
      exact ⟨m.deepen, rfl⟩
    · have hstood : v.machine.this? = some (.session ref) := by
        obtain hsame | ⟨kind, hentered⟩ := hleads
        · exact (Machine.this?_of_traces hsame).symm.trans href
        · unfold Machine.this? at href ⊢
          obtain hresolved | hglobal := Scopes.resolve?_of_entered hentered
          · rwa [← hresolved]
          · rw [hglobal, h.globals] at href
            cases href
      obtain ⟨c, decl, args, hc, htask, hwithin⟩ := h.innermost hbinds ref hstood
      exact ⟨c, decl, args, hc, htask, hwithin.tail ⟨edge, hother⟩⟩

/-- **What `this` stands for along a run.** -/
theorem Visit.KnowsThis.of_reaches (hthis : src.Reserved Expr.thisName) (hroot : root.Sourced src)
    (hstart : KnowsThis cfg root root) (h : root.Reaches cfg v) :
    KnowsThis cfg root v := by
  induction h with
  | refl => exact hstart
  | tail hreaches edge ih => exact ih.step hthis (hroot.of_reaches hreaches) hreaches edge

end

/-! ## Who is called on a session -/

/-- A suggestion that can be called on a session in a run that starts with `root`: a method or a
constructor that is declared in a session of that name, or one that a field of such a session has
held when it was called as a member. -/
inductive Program.Entitles (cfg : Settings) (p : Program) (root : Visit) (linked : List FileKey)
    (ref : SessionRef) (decl : Suggestion) : Prop where
  | declared {session : Session} {member : Member}
      (loaded : p.Loaded cfg.files linked (.session session)) (named : session.name = ref.name)
      (has : member ∈ session.members) (method : member.decl = .method decl)
  | held {u : Visit} {own holder : SessionRef} {member : String} {viaThis : Bool} {loc : Location}
      {m : Machine} (reached : root.Reaches cfg u)
      (access : u.Accesses cfg false own member viaThis loc m) (named : own.name = ref.name)
      (holds : holder = own ∨ m.statics.find? own.name = some holder)
      (field : (m.object holder).fields.find? member = some (.suggestion decl))

theorem Exec.staticObject_eq_done {session : String} {holder : SessionRef} {shared : Instance}
    (h : staticObject session member loc m = .done (holder, shared) m') :
    m.statics.find? session = some holder ∧ shared = m.object holder := by
  unfold staticObject at h
  simp only [Bind.bind, Exec.bind, machine] at h
  cases hfound : m.statics.find? session with
  | none => simp [hfound, fail, Exec.throw] at h
  | some ref =>
    rw [hfound] at h
    cases h
    exact ⟨rfl, rfl⟩

theorem Exec.sessionMember_eq_done {viaThis : Bool} {v : Value}
    (h : sessionMember own member viaThis loc m = .done v m') :
    ∃ holder, (holder = own ∨ m.statics.find? (m.object own).name = some holder) ∧
      (m.object holder).member? member = some v := by
  obtain ⟨object, m₁, hobject, h⟩ := bind_eq_done h
  rw [object_eq] at hobject
  cases hobject
  obtain ⟨_, m₂, hvisible, h⟩ := bind_eq_done h
  obtain rfl := Reads.done (.requireVisible _ _ _ _ _) hvisible
  cases hown : (m₂.object own).member? member with
  | some value =>
    rw [hown] at h
    cases h
    exact ⟨own, .inl rfl, hown⟩
  | none =>
    rw [hown] at h
    obtain ⟨⟨holder, shared⟩, m₃, hstatic, h⟩ := bind_eq_done h
    obtain ⟨hholder, rfl⟩ := staticObject_eq_done hstatic
    obtain ⟨_, m₄, -, h⟩ := bind_eq_done h
    refine ⟨holder, .inr hholder, ?_⟩
    cases hshared : (m₂.object holder).member? member with
    | some value =>
      simp only [hshared] at h
      cases h
      rfl
    | none =>
      simp only [hshared] at h
      cases h

section

variable {files : Store} {src : Sources files} {m : Machine} {ref : SessionRef}

theorem Sources.Admits.object (h : src.Admits m (.session ref)) :
    m.heap[ref.id]? = some (m.object ref) ∧ (m.object ref).name = ref.name := by
  obtain ⟨object, hobject, hname⟩ := h
  unfold Machine.object
  rw [hobject]
  exact ⟨rfl, hname⟩

theorem Sources.Sound.holder (hm : src.Sound m) (href : src.Admits m (.session ref))
    {holder : SessionRef} (h : holder = ref ∨ m.statics.find? ref.name = some holder) :
    src.Admits m (.session holder) ∧ holder.name = ref.name := by
  obtain rfl | hstatic := h
  · exact ⟨href, rfl⟩
  · obtain ⟨hname, hadmits⟩ := hm.statics _ _ hstatic
    exact ⟨hadmits, hname⟩

variable {member : String}

theorem Sources.Sound.method (hm : src.Sound m) (href : src.Admits m (.session ref))
    (h : (m.object ref).methods.find? member = some decl) :
    ∃ session entry, src.Has m.linked (.session session) ∧ session.name = ref.name ∧
      entry ∈ session.members ∧ entry.decl = .method decl := by
  obtain ⟨hobject, hname⟩ := href.object
  obtain ⟨session, shared, hsession, hshape⟩ := hm.shapes _ _ hobject
  have hmethods : (m.object ref).methods = (session.shape shared).methods :=
    congrArg Shape.methods hshape
  have hnamed : (m.object ref).name = session.name :=
    (congrArg Shape.name hshape).trans (session.shape_name shared)
  obtain ⟨entry, hentry, hdecl⟩ := session.shape_method shared (hmethods ▸ h)
  exact ⟨session, entry, hsession, hnamed.symm.trans hname, hentry, hdecl⟩

theorem Sources.Sound.conceals (hm : src.Sound m) (href : src.Admits m (.session ref))
    (h : (m.object ref).conceals member = true) :
    ∃ session shared, src.Has m.linked (.session session) ∧ session.name = ref.name ∧
      (m.object ref).shape = session.shape shared ∧
      ∃ entry ∈ session.members, entry.dominant = shared ∧ entry.exposed = false ∧
      entry.name = member := by
  obtain ⟨hobject, hname⟩ := href.object
  obtain ⟨session, shared, hsession, hshape⟩ := hm.shapes _ _ hobject
  have hnamed : (m.object ref).name = session.name :=
    (congrArg Shape.name hshape).trans (session.shape_name shared)
  have hconcealed : (m.object ref).concealed = (session.shape shared).concealed :=
    congrArg Shape.concealed hshape
  refine ⟨session, shared, hsession, hnamed.symm.trans hname, hshape, ?_⟩
  rw [← SessionOf.mem_shape_concealed, ← hconcealed]
  simpa [Instance.conceals] using h

theorem Machine.Guards.declared {writes : Bool} (h : m.Guards writes ref member) (hm : src.Sound m)
    (href : src.Admits m (.session ref)) :
    ∃ holder session shared, (holder = ref ∨ m.statics.find? ref.name = some holder) ∧
      src.Has m.linked (.session session) ∧ session.name = ref.name ∧
      (m.object holder).shape = session.shape shared ∧
      ∃ entry ∈ session.members, entry.dominant = shared ∧ entry.exposed = false ∧
      entry.name = member := by
  obtain ⟨holder, hholder, hconceals⟩ : ∃ holder,
      (holder = ref ∨ m.statics.find? ref.name = some holder) ∧
        (m.object holder).conceals member = true := by
    obtain hown | ⟨-, shared, hshared, hconceals⟩ := h
    · exact ⟨ref, .inl rfl, hown⟩
    · exact ⟨shared, .inr (href.object.2 ▸ hshared), hconceals⟩
  obtain ⟨hadmits, hsame⟩ := hm.holder href hholder
  obtain ⟨session, shared, hsession, hnamed, hrest⟩ := hm.conceals hadmits hconceals
  exact ⟨holder, session, shared, hholder, hsession, hnamed.trans hsame, hrest⟩

end

section

variable {cfg : Settings} {src : Sources cfg.files} {m : Machine} {ref : SessionRef}
  {v : Visit} {writes viaThis : Bool} {member : String} {loc : Location}

theorem Visit.Accesses.bindsThis (h : v.Accesses cfg writes ref member viaThis loc m) :
    v.task.bindsThis = false := by
  cases h <;> rfl

theorem Visit.Accesses.kept (h : v.Accesses cfg writes ref member viaThis loc m)
    (hv : v.Sourced src) :
    src.Continues v.machine m ∧ src.Sound m ∧ src.Admits m (.session ref) := by
  have hk := v.relies src
  cases h with
  | read done =>
    obtain ⟨hc, hm₁, hgood⟩ := (hk.visit hv .object rfl).done done
    exact ⟨hc, hm₁, Value.Every.here hgood⟩
  | call done =>
    obtain ⟨hc, hm₁, hgood⟩ := (hk.visit hv .receiver rfl).done done
    exact ⟨hc, hm₁, Value.Every.here hgood⟩
  | write done placed =>
    obtain ⟨hc₁, -, -⟩ := (hk.visit hv .assigned rfl).done done
    obtain ⟨hc₂, hm₂, hplace⟩ := (hk.visit hv (.target done) rfl).done placed
    exact ⟨hc₁.trans hc₂, hm₂, hplace.2.1 _ _ _ rfl⟩

theorem Visit.Accesses.this (h : v.Accesses cfg writes ref member true loc m) :
    m.this? = some (.session ref) := by
  generalize hvia : true = viaThis at h
  cases h with
  | read done | call done =>
    obtain ⟨rfl, hthis⟩ := Exec.eval_this hvia.symm done
    exact hthis
  | write done placed =>
    subst hvia
    exact place_this placed rfl

end

theorem Exec.receiver_eq_done {method : Suggestion} (h : Exec.receiver ref method m = .done own m') :
    own = ref ∨ m.statics.find? ref.name = some own := by
  unfold Exec.receiver at h
  split at h
  · cases h
    cases hfound : m.statics.find? ref.name with
    | none => exact .inl rfl
    | some shared => exact .inr rfl
  · cases h
    exact .inl rfl

theorem Program.entitles_of_member {root u : Visit} {holder : SessionRef} {viaThis : Bool}
    {linked : List FileKey} (hu : root.Reaches cfg u)
    (access : u.Accesses cfg false own member viaThis loc m)
    (hsourced : u.Sourced (p.plainSources cfg.files))
    (hholder : holder = own ∨ m.statics.find? own.name = some holder)
    (hmember : (m.object holder).member? member = some (.suggestion decl))
    (hname : own.name = ref.name) (hlinked : m.linked ⊆ linked) :
    p.Entitles cfg root linked ref decl := by
  obtain ⟨-, hm, hown⟩ := access.kept hsourced
  unfold member? at hmember
  split at hmember
  · rename_i value hfield
    cases hmember
    exact .held hu access hname hholder hfield
  · obtain ⟨method, hmethod, hsame⟩ := Option.map_eq_some_iff.1 hmember
    cases hsame
    obtain ⟨hadmits, hsame⟩ := hm.holder hown hholder
    obtain ⟨session, entry, hsession, hnamed, hentry, hdecl⟩ := hm.method hadmits hmethod
    exact .declared (Sources.mono _ hlinked hsession) (hnamed.trans (hsame.trans hname)) hentry hdecl

theorem Program.entitles_of_call {bound : Nat} {m₀ : Machine} {args : List Value}
    (h : Visit.Reaches cfg ⟨bound, .program p, m₀.reset⟩ ⟨n, .call decl args (some ref) loc, m'⟩) :
    p.Entitles cfg ⟨bound, .program p, m₀.reset⟩ m'.linked ref decl := by
  obtain hsame | ⟨u, hu, edge⟩ := Relation.ReflTransGen.cases_tail h
  · cases hsame
  have hsourced := Program.sourced_of_reaches hu
  cases edge with
  | @methodCall n object member at' exprs _ m own m₁ _ m₂ values m₃ _ _ done found given chosen =>
    have access : Visit.Accesses cfg ⟨_, .eval (.call (.field object member at') exprs loc),
        m⟩ false own member object.isThis loc m₁ := .call done
    obtain ⟨hc₁, hm₁, hown⟩ := access.kept hsourced
    obtain ⟨holder, hholder, hmember⟩ := sessionMember_eq_done found
    rw [hown.object.2] at hholder
    obtain rfl := Reads.done (.memberValue _ _ _ _) found
    obtain ⟨hc₂, hm₃, -⟩ := ((relies _ _).visit hsourced (.memberArgs done found) rfl).done given
    obtain rfl := Reads.done (.receiver _ _) chosen
    obtain ⟨-, hname⟩ := hm₃.holder (hown.mono hc₂.toGrows) (receiver_eq_done chosen)
    exact entitles_of_member hu access hsourced hholder hmember hname.symm hc₂.linked
  | @construct _ name _ _ m session m₁ object m₂ _ m₃ _ found allowed built known constructor =>
    obtain rfl := Reads.done (.requireDepth _ _) allowed
    obtain ⟨-, hsession⟩ := hsourced.sound.sessions name _ found
    obtain ⟨hc, -, hobject⟩ :=
      ((relies _ ⟨_, .instantiate name args loc,
        _⟩).buildInstance hsourced.sound found allowed).done built
    obtain ⟨entry, hentry, hmethod⟩ := session.mem_of_constructor? constructor
    have hname : session.name = object.name :=
      (session.shape_name false).symm.trans (congrArg Shape.name hobject.1.symm)
    cases known
    exact .declared (Sources.mono _ hc.linked hsession) hname hentry hmethod

theorem Program.entitles_of_body {bound : Nat} {m₀ : Machine} {c : Visit} {args : List Value}
    (h : Visit.Reaches cfg ⟨bound, .program p, m₀.reset⟩ c)
    (htask : c.task = .body decl args (some ref)) :
    p.Entitles cfg ⟨bound, .program p, m₀.reset⟩ c.machine.linked ref decl := by
  obtain rfl | ⟨u, hu, edge⟩ := Relation.ReflTransGen.cases_tail h
  · cases htask
  obtain ⟨n, _, _, _, loc, m, rfl, rfl⟩ := edge.of_bindsThis (by rw [htask]; rfl)
  cases htask
  -- the frame of the call leaves the linked files alone
  have hcall := entitles_of_call hu
  exact hcall

/-! ## Where concealed members are reached -/

/-- **Concealed members are reached through `this` only, and `this` stands for the session that the
innermost call is on.** Let a run of a program come to a read, a call or a write of a member that
the session conceals. Then

* a session of that name declares the member without exposing it;
* an access that is not spelled with `this` fails as one to a concealed member, and leaves the
  machine as it is;
* if neither the program nor a file that it could link binds `this` or assigns to it, then an access
  that is spelled with `this` is made in the body of a call on this very session, in which no other
  body is entered, and what is called is a method or a constructor that is declared in a session of
  that name, or has been held by a field of such a session and called as a member of it. -/
theorem concealed_members_through_this {cfg : Settings} {bound : Nat} {p : Program} {m₀ m : Machine}
    {v : Visit} {writes viaThis : Bool} {ref : SessionRef} {member : String} {loc : Location}
    (hreaches : Reaches cfg ⟨bound, .program p, m₀.reset⟩ v)
    (haccess : v.Accesses cfg writes ref member viaThis loc m)
    (hguards : m.Guards writes ref member) :
    (∃ holder session shared, (holder = ref ∨ m.statics.find? ref.name = some holder) ∧
      p.Loaded cfg.files m.linked (.session session) ∧ session.name = ref.name ∧
      (m.object holder).shape = session.shape shared ∧
      ∃ entry ∈ session.members, entry.dominant = shared ∧ entry.exposed = false ∧
    entry.name = member) ∧ (viaThis = false → (v.task.step cfg v.bound v.machine).failure? =
      some (.raised (.concealedMember ref.name member) loc, m)) ∧
    (viaThis = true → p.Spares cfg.files Expr.thisName →
      ∃ c decl args, Reaches cfg ⟨bound, .program p, m₀.reset⟩ c ∧
        c.task = .body decl args (some ref) ∧ c.Within cfg v ∧
        p.Entitles cfg ⟨bound, .program p, m₀.reset⟩ c.machine.linked ref decl) := by
  obtain ⟨-, hm, href⟩ := haccess.kept (Program.sourced_of_reaches hreaches)
  refine ⟨hguards.declared hm href, ?_, ?_⟩
  · rintro rfl
    rw [haccess.refused hguards, href.object.2]
  · rintro rfl hspares
    let src := p.sources cfg.files (· = Expr.thisName) (fun _ h => h ▸ hspares)
    have hreserved : src.Reserved Expr.thisName := rfl
    have hstart : Sourced src ⟨bound, .program p, m₀.reset⟩ := p.sourced_reset _ _ bound m₀
    have hsourced := hstart.of_reaches hreaches
    have hknows : KnowsThis cfg ⟨bound, .program p, m₀.reset⟩ v :=
      .of_reaches hreserved hstart ⟨rfl, nofun, nofun⟩ hreaches
    have hthis : v.machine.this? = some (.session ref) :=
      (Machine.this?_of_traces
        ((haccess.kept hsourced).1.reserved _ hreserved)).symm.trans haccess.this
    obtain ⟨c, decl, args, hc, htask, hwithin⟩ :=
      hknows.innermost haccess.bindsThis ref hthis
    exact ⟨c, decl, args, hc, htask, hwithin, Program.entitles_of_body hc htask⟩

def Suggestion.peek : Suggestion :=
  ⟨"peek", [], none,
    [.awaken (some (.field (.name "this" ⟨1, 87⟩) "secret" ⟨1, 91⟩)) ⟨1, 80⟩], false, false,
      ⟨1, 60⟩, .main⟩

def Session.keeper (others : List Member) : Session :=
  ⟨"S", ⟨.field ⟨"secret", none, .value (.text "hidden" ⟨1, 43⟩), ⟨1, 27⟩⟩, false, false⟩ :: others,
    ⟨1, 7⟩⟩

/-- A concealed field that is read by a method, and then from outside. -/
def Program.peeking : Program :=
  ⟨[.session (Session.keeper [⟨.method Suggestion.peek, true, false⟩]),
    .induce ⟨"s", none, .value (.call (.name "S" ⟨2, 12⟩) [] ⟨2, 13⟩), ⟨2, 1⟩⟩,
    .observe (.call (.field (.name "s" ⟨3, 9⟩) "peek" ⟨3, 10⟩) [] ⟨3, 15⟩) ⟨3, 1⟩,
    .observe (.field (.name "s" ⟨4, 9⟩) "secret" ⟨4, 10⟩) ⟨4, 1⟩]⟩

theorem Program.spares_empty {name : String} (hbound : ∀ s ∈ p.parts, name ∉ s.boundNames)
    (hassigned : ∀ s ∈ p.parts, ∀ e ∈ exprParts s.exprs, e.assignsTo name = false) :
    p.Spares .empty name := by
  have hown : ∀ {linked s}, p.Loaded .empty linked s → s ∈ p.parts := by
    rintro linked s (hown | ⟨target, q, -, hload, -⟩)
    · exact hown
    · exact absurd hload Store.load_empty
  exact ⟨fun _ s hs => hbound s (hown hs), fun _ s hs => hassigned s (hown hs)⟩

theorem Program.peeking_spares : peeking.Spares .empty Expr.thisName :=
  spares_empty (by decide) (by decide)

/-- The method reads the field in a call on the session; the read from outside is refused. -/
theorem Program.peeking_refused : ∃ (inside outside : Visit) (ref : SessionRef) (m m' : Machine),
    inside.Accesses ⟨.empty, 256⟩ false ref "secret" true ⟨1, 91⟩ m ∧
    outside.Accesses ⟨.empty, 256⟩ false ref "secret" false ⟨4, 10⟩ m' ∧
    (∃ c decl args, Visit.Reaches ⟨.empty, 256⟩
      ⟨20, .program peeking, (Machine.new "" [] none).reset⟩ c ∧
      c.task = .body decl args (some ref) ∧ c.Within ⟨.empty, 256⟩ inside ∧
      peeking.Entitles ⟨.empty, 256⟩ ⟨20, .program peeking, (Machine.new "" [] none).reset⟩
        c.machine.linked ref decl) ∧
    (outside.task.step ⟨.empty, 256⟩ outside.bound outside.machine).failure? =
      some (.raised (.concealedMember ref.name "secret") ⟨4, 10⟩, m') := by
  obtain ⟨m, m₁, hreaches, hthis, hconceals⟩ : ∃ m m₁ : Machine,
      Visit.Reaches ⟨.empty, 256⟩ ⟨20, .program peeking, (Machine.new "" [] none).reset⟩
        ⟨16, .eval (.field (.name "this" ⟨1, 87⟩) "secret" ⟨1, 91⟩), m⟩ ∧
      eval ⟨.empty, 256⟩ 15 (.name "this" ⟨1, 87⟩) m = .done (.session ⟨1, "S"⟩) m₁ ∧
      (m₁.object ⟨1, "S"⟩).conceals "secret" = true :=
    ⟨_, _, .head (.starting rfl rfl rfl nofun) <| .head (.mainNext rfl) <| .head (.mainNext rfl) <|
      .head (.mainHead rfl) <| .head .observed <| .head (.methodCall rfl rfl rfl rfl) <|
      .head (.called rfl rfl) <| .head (.bodyList rfl rfl) <| .head .head <|
        .single .awakened, rfl, rfl⟩
  obtain ⟨m', m₂, hreaches', hother, hconceals'⟩ : ∃ m m₁ : Machine,
      Visit.Reaches ⟨.empty, 256⟩ ⟨20, .program peeking, (Machine.new "" [] none).reset⟩
        ⟨19, .eval (.field (.name "s" ⟨4, 9⟩) "secret" ⟨4, 10⟩), m⟩ ∧
      eval ⟨.empty, 256⟩ 18 (.name "s" ⟨4, 9⟩) m = .done (.session ⟨1, "S"⟩) m₁ ∧
      (m₁.object ⟨1, "S"⟩).conceals "secret" = true :=
    ⟨_, _, .head (.starting rfl rfl rfl nofun) <| .head (.mainNext rfl) <| .head (.mainNext rfl) <|
      .head (.mainNext rfl) <| .head (.mainHead rfl) <| .single .observed, rfl, rfl⟩
  have inside : Visit.Accesses ⟨.empty, 256⟩
      ⟨16, .eval (.field (.name "this" ⟨1, 87⟩) "secret" ⟨1, 91⟩), m⟩
      false ⟨1, "S"⟩ "secret" true ⟨1, 91⟩ m₁ := .read hthis
  have outside : Visit.Accesses ⟨.empty, 256⟩
      ⟨19, .eval (.field (.name "s" ⟨4, 9⟩) "secret" ⟨4, 10⟩), m'⟩
      false ⟨1, "S"⟩ "secret" false ⟨4, 10⟩ m₂ := .read hother
  obtain ⟨-, -, hcalled⟩ := concealed_members_through_this hreaches inside (.inl hconceals)
  obtain ⟨-, hrefused, -⟩ := concealed_members_through_this hreaches' outside (.inl hconceals')
  exact ⟨_, _, _, _, _, inside, outside, hcalled rfl peeking_spares, hrefused rfl⟩

def Program.borrowedThis : Program :=
  ⟨[.session (Session.keeper []),
    .induce ⟨"this", none, .value (.call (.name "S" ⟨1, 69⟩) [] ⟨1, 70⟩), ⟨1, 55⟩⟩,
    .observe (.field (.name "this" ⟨1, 82⟩) "secret" ⟨1, 86⟩) ⟨1, 74⟩]⟩

/-- **A variable can take the place of `this`.** Outside of every call the program reads a concealed
member of a session, and shows it. -/
theorem Program.borrowedThis_shows_concealed :
    Program.ofText .main ("Focus session S \x7b conceal induce secret = \"hidden\"; \x7d " ++
        "induce this = S(); observe this.secret; Relax") = .ok borrowedThis ∧
    (∃ (v : Visit) (m : Machine),
      Visit.Reaches ⟨.empty, 256⟩ ⟨12, .program borrowedThis, (Machine.new "" [] none).reset⟩ v ∧
      v.machine.depth = 0 ∧ v.Accesses ⟨.empty, 256⟩ false ⟨1, "S"⟩ "secret" true ⟨1, 86⟩ m ∧
      m.Guards false ⟨1, "S"⟩ "secret" ∧
      (v.task.step ⟨.empty, 256⟩ v.bound v.machine).failure? = none) ∧
    ∃ m', borrowedThis.run ⟨.empty, 256⟩ 12 (.new "" [] none) = .done () m' ∧
    m'.events = #[.line "hidden"] := by
  -- the main list comes to the last statement, and that to the read
  exact ⟨by set_option maxRecDepth 1000 in with_unfolding_all rfl,
    ⟨_, _, .head (.starting rfl rfl rfl nofun) <| .head (.mainNext rfl) <|
    .head (.mainNext rfl) <| .head (.mainHead rfl) <|
      .single .observed, rfl, .read rfl, .inl rfl, rfl⟩,
    _, rfl, rfl⟩

end Trance
