import Trance.Proofs.Running.Descent

/-!
# Every task on a sound machine

The rules for single steps are put together along the interpreter. A task whose code and values come
from the sources leaves a sound machine behind if all that it starts does, and what it results in
comes from the sources too. So everything that a run comes to comes from the sources. -/

namespace Trance

open List Exec Sources

def Exec.afterHoist (cfg : Settings) (n : Nat) (p : Program) : Exec Unit := do
  p.statements.forM (followLink (link cfg n))
  match ← entrances (exec cfg n) n p.statements with
  | .awaken _ => pure ()
  | _ => do
    let flow ← sequence (mainStmt (exec cfg n)) p.statements n p.statements
    rejectEscape flow

namespace Visit.Relies

variable {cfg : Settings} {src : Sources cfg.files} {v w : Visit}

theorem visit (hk : v.Relies src) (hv : v.Sourced src) (edge : Visit.Starts cfg v w)
    (hbinds : w.task.bindsThis = false) :
    Exec.Keeps src w.machine (w.task.Returns src) (w.task.step cfg w.bound) :=
  hk.keep edge (hk.descends edge hv).toSourced hbinds

end Visit.Relies

/-- A task that leaves sound machines behind if all that it starts does. -/
def Task.Hereditary {cfg : Settings} (src : Sources cfg.files) (n : Nat) (task : Task) : Prop :=
  ∀ m, Visit.Relies src ⟨n, task, m⟩ → Visit.Sourced src ⟨n, task, m⟩ →
    Exec.Keeps src m (task.Returns src) (task.step cfg n)

namespace Task.Hereditary

variable {cfg : Settings} {src : Sources cfg.files} {n : Nat}

/-! ### Parts of expressions -/

theorem values (exprs : List Expr) : Hereditary src n (.values exprs) := by
  intro m hk hv
  cases exprs with
  | nil => exact .pure hv.sound fun _ hv => absurd hv not_mem_nil
  | cons e rest =>
    show Exec.Keeps src m _ ((e :: rest).mapM (Exec.eval cfg n))
    rw [mapM_cons]
    refine (hk.visit hv .value rfl).bind fun v m₁ done _ _ hgood =>
      (hk.visit hv (.moreValues done) rfl).bind fun vs m₂ _ hc₂ hm₂ hvs => .pure hm₂ ?_
    exact forall_mem_cons.2 ⟨hgood.mono hc₂.toGrows, hvs⟩

theorem place (loc : Location) (target : Expr) : Hereditary src n (.place loc target) := by
  intro m hk hv
  cases target with
  | name name nameLoc =>
    refine .pure hv.sound ⟨?_, ?_, fun _ hv => absurd hv not_mem_nil⟩
    · rintro _ _ ⟨⟩ _
      rfl
    · rintro _ _ _ ⟨⟩
  | field object member at' =>
    refine (hk.visit hv .placeObject rfl).bind fun v m₁ done _ hm₁ hgood => ?_
    have hinside : (∀ ref, v ≠ .session ref) →
        Exec.Keeps src m₁ (Returns src (.place loc (.field object member at'))) (do
          return (← Exec.place (Exec.eval cfg n) loc object).step (.field member)) := by
      refine fun plain =>
        (hk.visit hv (.placeInside done plain) rfl).bind fun place m₂ _ _ hm₂ hplace =>
        .pure hm₂ ⟨fun _ _ _ hpath => ?_, hplace.2.1, fun v hv => hplace.2.2 v ?_⟩
      · simp [Place.step] at hpath
      · simpa [Place.step] using hv
    cases v with
    | session ref =>
      refine .pure hm₁ ⟨?_, ?_, fun _ hv => absurd hv not_mem_nil⟩
      · rintro _ _ ⟨⟩
      · rintro _ _ _ ⟨⟩
        exact hgood.here
    | _ => exact hinside nofun
  | index object index at' =>
    refine (hk.visit hv .placeIndex rfl).bind fun selected m₁ done _ _ hselected =>
      (hk.visit hv (.placeIndexed done) rfl).bind fun place m₂ _ hc₂ hm₂ hplace =>
        .pure hm₂ ⟨fun _ _ _ hpath => ?_, hplace.2.1, fun v hv => ?_⟩
    · simp [Place.step] at hpath
    · obtain hold | hnew := mem_append.1 hv
      · exact hplace.2.2 v hold
      · cases mem_singleton.1 hnew
        exact hselected.mono hc₂.toGrows
  | _ => exact .fail hv.sound trivial

theorem detached (e : Expr) : Hereditary src n (.detached e) := fun _ hk hv =>
  .inFrame (hk.visit hv .detached rfl) fun _ _ hgood => hgood.mono (.same rfl rfl)

/-! ### Records and sessions -/

theorem fields (given : List (String × Expr)) (members : List Variable) :
    Hereditary src n (.fields given members) := by
  intro m hk hv
  cases members with
  | nil => exact .pure hv.sound ⟨rfl, fun _ hv => absurd hv not_mem_nil⟩
  | cons member rest =>
    show Exec.Keeps src m _ ((member :: rest).mapM (recordField (Exec.eval cfg n) given))
    rw [mapM_cons]
    refine (hk.recordField hv).bind fun field m₁ done _ _ hfield =>
      (hk.visit hv (.moreFields done) rfl).bind fun others m₂ _ hc₂ hm₂ hothers => .pure hm₂ ⟨?_, ?_⟩
    · exact congrArg₂ List.cons hfield.1 hothers.1
    · exact forall_mem_cons.2 ⟨hfield.2.mono hc₂.toGrows, hothers.2⟩

theorem record (typeName : String) (given : List (String × Expr)) (loc : Location) :
    Hereditary src n (.record typeName given loc) := by
  intro m hk hv
  refine .machine ?_
  split
  · rename_i hunknown
    exact .fail hv.sound ⟨hunknown, hv.task.2 hunknown⟩
  · rename_i decl hdecl
    obtain ⟨hname, hhas⟩ := hv.sound.records typeName decl hdecl
    split
    · exact .fail hv.sound trivial
    · rename_i hfit
      refine (hk.visit hv (.recordFields hdecl hfit) rfl).bind fun fields m₁ _ hc hm₁ hfields =>
        .pure hm₁ (good_record.2 ⟨?_, hfields.2⟩)
      exact ⟨decl, src.mono hc.linked hhas, hname, hfields.1⟩

theorem default (typeName : Option String) (loc : Location) :
    Hereditary src n (.default typeName loc) := by
  intro m hk hv
  cases typeName with
  | none => exact .pure hv.sound good_null
  | some name =>
    refine .machine ?_
    split
    · rename_i hknown
      exact hk.visit hv (.defaultRecord hknown) rfl
    · exact .pure hv.sound good_null

theorem statics (object : Instance) (all : List Member) :
    Hereditary src n (.statics object all) := by
  intro m hk hv
  cases all with
  | nil => exact .pure hv.sound ⟨rfl, hv.task.1⟩
  | cons member rest =>
    refine (hk.addStatic hv).bind fun next m₁ done _ _ hnext =>
      (hk.visit hv (.moreStatics done) rfl).mono fun m₂ built _ hbuilt => ⟨?_, hbuilt.2⟩
    rw [hbuilt.1, hnext.1]
    rfl

theorem members (loc : Location) (object : Instance) (all : List Member) :
    Hereditary src n (.members loc object all) := by
  intro m hk hv
  cases all with
  | nil => exact .pure hv.sound ⟨rfl, hv.task.1⟩
  | cons member rest =>
    refine (hk.addMember hv).bind fun next m₁ done _ _ hnext =>
      (hk.visit hv (.moreMembers done) rfl).mono fun m₂ built _ hbuilt => ⟨?_, hbuilt.2⟩
    rw [hbuilt.1, hnext.1]
    rfl

/-! ### Declarations -/

theorem declare (stmt : Stmt) : Hereditary src n (.declare stmt) := by
  intro m hk hv
  obtain ⟨hm, h⟩ := id hv
  cases stmt with
  | suggestion decl =>
    refine .define hm ⟨?_, ?_, ?_⟩ (src.bound h mem_cons_self)
    · rintro _ ⟨⟩
      exact good_suggestion (.inl h)
    · rintro ⟨⟩
    · exact fun hname => absurd hname (src.bound h mem_cons_self)
  | session decl =>
    refine (hk.visit hv .staticMembers rfl).bind fun object m₁ _ hc₁ hm₁ hobject => ?_
    have hshape : object.shape = decl.shape true := by
      rw [hobject.1, SessionOf.shape]
      simp
    have hallocate := Exec.Keeps.allocate hm₁ ⟨decl, true, src.mono hc₁.linked h, hshape⟩ hobject.2
    refine hallocate.bind fun ref m₂ _ hc₂ hm₂ href => ?_
    have hname : ref.name = decl.name := href.2.trans
      ((congrArg Instance.Shape.name hshape).trans (decl.shape_name true))
    have hfree : ¬ src.Reserved decl.name := src.bound h mem_cons_self
    have hstands : src.Stands m₂ ⟨decl.name, .session, some decl.name, some (.session ref)⟩ := by
      refine ⟨?_, ?_, fun hreserved => absurd hreserved hfree⟩
      · rintro _ ⟨⟩
        exact good_session href.1
      · rintro ⟨⟩
    refine (Exec.Keeps.define hm₂ hstands hfree).bind fun _ m₃ _ hc₃ hm₃ _ => .update ?_
    exact hm₃.session (src.mono (((hc₁.trans hc₂).trans hc₃).linked) h)
      (href.1.mono hc₃.toGrows) hname
  | tranceify decl =>
    have hfree : ¬ src.Reserved decl.name := src.bound h mem_cons_self
    have hstands :
        src.Stands m { name := decl.name, kind := .record, typeName := some decl.name } := by
      refine ⟨?_, fun _ => ⟨decl, h, rfl⟩, fun hreserved => absurd hreserved hfree⟩
      rintro _ ⟨⟩
    refine (Exec.Keeps.define hm hstands hfree).bind fun _ m₁ _ hc₁ hm₁ _ => .update ?_
    exact hm₁.tranceify (src.mono hc₁.linked h)
  | _ => exact .pure hm trivial

theorem induce (decl : Variable) : Hereditary src n (.induce decl) := by
  intro m hk hv
  have hfree : ¬ src.Reserved decl.name := src.bound hv.task mem_cons_self
  have hdefine : ∀ v m₁, src.Sound m₁ → src.Good m₁ v → Exec.Keeps src m₁ (fun _ _ => True)
      (define { name := decl.name, kind := .variable, typeName := decl.typeName, value := some v }
        decl.location) := by
    intro v m₁ hm₁ hgood
    refine .define hm₁ ⟨?_, ?_, fun hreserved => absurd hreserved hfree⟩ hfree
    · rintro _ ⟨⟩
      exact hgood
    · rintro ⟨⟩
  show Exec.Keeps src m _ (Exec.induce (Exec.eval cfg n) decl)
  unfold Exec.induce
  simp only
  split
  · exact (Exec.Keeps.readExternal hv.sound decl).bind fun v m₁ _ _ hm₁ hgood =>
      hdefine v m₁ hm₁ hgood
  · rename_i init hstart
    exact (hk.visit hv (.induceValue hstart) rfl).bind fun v m₁ _ _ hm₁ hgood =>
      hdefine v m₁ hm₁ hgood
  · rename_i hstart
    exact (hk.visit hv (.induceDefault hstart) rfl).bind fun v m₁ _ _ hm₁ hgood =>
      hdefine v m₁ hm₁ hgood

/-! ### Calls -/

theorem instantiate (name : String) (args : List Value) (loc : Location) :
    Hereditary src n (.instantiate name args loc) := by
  intro m hk hv
  refine .machine ?_
  cases hfound : m.sessions.find? name with
  | none => exact .fail hv.sound trivial
  | some decl =>
    obtain ⟨_, hdecl⟩ := hv.sound.sessions name decl hfound
    refine (Exec.Keeps.requireDepth hv.sound cfg.maxDepth loc).after (.requireDepth _ loc)
      fun _ allowed _ =>
        (hk.buildInstance hv.sound hfound allowed).bind fun object m₁ built hc₁ hm₁ hobject =>
        (Exec.Keeps.allocate hm₁ ⟨decl, false, src.mono hc₁.linked hdecl, hobject.1⟩ hobject.2).bind
          fun ref m₂ known _ hm₂ href => ?_
    cases hinit : decl.constructor? with
    | some init =>
      exact (hk.visit hv
        (.construct hfound allowed built known hinit) rfl).bind fun _ m₃ _ hc₃ hm₃ _ =>
        .pure hm₃ (good_session (href.1.mono hc₃.toGrows))
    | none =>
      simp only
      split
      · exact .pure hm₂ (good_session href.1)
      · exact .fail hm₂ trivial

theorem callMember (object : Expr) (member : String) (at' : Location) (args : List Expr)
    (loc : Location) : Hereditary src (n + 1)
      (.eval (.call (.field object member at') args loc)) := by
  intro m hk hv
  refine (hk.visit hv .receiver rfl).bind fun target m₁ done _ hm₁ htarget =>
    (Exec.Keeps.memberValue hm₁ htarget member object.isThis loc).bind fun method m₂ found hc₂ _ _ =>
      (hk.visit hv (.memberArgs done found) rfl).bind fun values m₃ given hc₃ hm₃ _ => ?_
  cases method with
  | suggestion decl =>
    cases target with
    | session ref =>
      have href : src.Admits m₃ (.session ref) := htarget.here.mono (hc₂.trans hc₃).toGrows
      exact (Exec.Keeps.receiver hm₃ href decl).after (.receiver ref decl) fun own chosen _ =>
        hk.visit hv (.methodCall done found given chosen) rfl
    | _ => exact hk.visit hv (.fieldCall done nofun found given) rfl
  | _ => exact .fail hm₃ trivial

theorem callName (name : String) (at' : Location) (args : List Expr) (loc : Location) :
    Hereditary src (n + 1) (.eval (.call (.name name at') args loc)) := by
  intro m hk hv
  show Exec.Keeps src m _ (Exec.callName cfg.maxDepth (Exec.eval cfg n)
      (Exec.call cfg n) name args loc)
  refine .machine ?_
  cases hfound : m.scopes.resolve? name with
  | none =>
    exact (hk.visit hv (.builtinArgs hfound) rfl).bind fun values m₁ _ _ hm₁ _ =>
      .intrinsic hm₁ name values loc
  | some symbol =>
    dsimp only
    split
    · rename_i decl hvalue
      exact (hk.visit hv (.nameArgs hfound hvalue) rfl).bind fun values m₁ given _ _ _ =>
        hk.visit hv (.nameCall hfound hvalue given) rfl
    · rename_i hkind hother
      exact (hk.visit hv (.sessionArgs hfound hkind) rfl).bind fun values m₁ given _ _ _ =>
        hk.visit hv (.sessionCall hfound hkind hother given) rfl
    · exact .fail hv.sound trivial

theorem callValue {callee : Expr} (hother : callee.calledByValue = true) (args : List Expr)
    (loc : Location) : Hereditary src (n + 1) (.eval (.call callee args loc)) := by
  intro m hk hv
  show Exec.Keeps src m _ (callExpr _ _ _ callee args loc)
  rw [callExpr_of_calledByValue hother]
  refine (hk.visit hv (.callee hother) rfl).bind fun v m₁ done _ hm₁ _ => ?_
  cases v with
  | suggestion decl =>
    exact (hk.visit hv (.valueArgs hother done) rfl).bind fun values m₂ given _ _ _ =>
      hk.visit hv (.valueCall hother done given) rfl
  | _ => exact .fail hm₁ trivial

theorem body (hthis : ¬ src.Reserved Expr.thisName) (decl : Suggestion) (args : List Value)
    (receiver : Option SessionRef) : Hereditary src n (.body decl args receiver) := by
  intro m hk hv
  obtain ⟨hm, h⟩ := id hv
  have hbind : Exec.Keeps src m (fun _ _ => True) (bindThis receiver) := by
    cases receiver with
    | none => exact .pure hm trivial
    | some ref =>
      refine .update ?_
      generalize hdefine : m.scopes.define? _ = scopes
      cases scopes with
      | none => exact ⟨.refl m, hm⟩
      | some scopes => exact hm.define (stands_this (h.2.2 ref rfl)) hthis hdefine
  exact hbind.bind fun _ m₁ this hc hm₁ _ =>
    (Visit.Relies.bindParams decl.location _ hm₁ (Visit.Relies.params_of_sourced h hc.toGrows)).bind
      fun _ m₂ params _ _ _ => hk.visit hv (.bodyList this params) rfl

theorem call (decl : Suggestion) (args : List Value) (receiver : Option SessionRef)
    (loc : Location) : Hereditary src (n + 1) (.call decl args receiver loc) := by
  intro m hk hv
  show Exec.Keeps src m _ (callBody cfg.maxDepth (Exec.exec cfg n) n decl args receiver loc)
  unfold callBody
  split
  · exact .fail hv.sound trivial
  rename_i hcount
  refine (Exec.Keeps.requireDepth hv.sound cfg.maxDepth loc).after
    (.requireDepth _ loc) fun _ allowed _ => ?_
  have called : Visit.Starts cfg ⟨n + 1, .call decl args receiver loc, m⟩
      ⟨n, .body decl args receiver, m.deepen.push .call⟩ := .called (by simpa using hcount) allowed
  have hbody := (hk.descends called hv).toSourced
  -- the session that the call is on is bound in the frame of the body
  have hsound : src.Sound (m.deepen.called receiver) :=
    hv.sound.deepen.called fun ref href => (hv.task.2.2 ref href).mono (.same rfl rfl)
  have hparams := Visit.Relies.bindParams decl.location (decl.params.zip args) hsound
    (Visit.Relies.params_of_sourced hbody.task (.same rfl rfl))
  have hcall : Exec.Keeps src m src.Yields (deeper (Exec.inFrame .call do
      bindThis receiver
      bindParams decl.location (decl.params.zip args)
      Exec.sequence (Exec.exec cfg n) decl.body n decl.body)) := by
    refine .deeper (Q := src.Yields)
      (.inCall (Q := src.Yields) (hparams.bind fun _ m₁ params _ _ _ => ?_) ?_) ?_
    · exact (hk.next called).visit hbody (.bodyList (bindThis_push _ _) params) rfl
    · exact fun _ _ hflow v hv => (hflow v hv).mono (.same rfl rfl)
    · exact fun _ _ hflow v hv => (hflow v hv).mono (.same rfl rfl)
  refine hcall.bind fun flow m₁ _ _ hm₁ hflow => ?_
  cases flow with
  | awaken v =>
    refine .pure hm₁ ?_
    split
    · exact good_null
    · exact hflow v rfl
  | _ =>
    exact (Exec.Keeps.rejectEscape hm₁ _).after (.rejectEscape _) fun _ _ _ =>
      .pure hm₁ good_null

/-! ### Expressions -/

theorem binary (op : BinaryOp) (l r : Expr) (loc : Location) :
    Hereditary src (n + 1) (.eval (.binary op l r loc)) := by
  intro m hk hv
  cases op with
  | conj =>
    refine (hk.visit hv .first rfl).bind fun v m₁ done _ hm₁ _ => ?_
    split
    · rename_i htrue
      exact (hk.visit hv (.second done (fun _ => htrue) nofun) rfl).bind fun _ _ _ _ hm₂ _ =>
        .pure hm₂ (good_boolean _)
    · exact .pure hm₁ (good_boolean _)
  | disj =>
    refine (hk.visit hv .first rfl).bind fun v m₁ done _ hm₁ _ => ?_
    split
    · exact .pure hm₁ (good_boolean _)
    · rename_i hfalse
      exact (hk.visit hv (.second done nofun fun _ => by
        simpa using hfalse) rfl).bind fun _ _ _ _ hm₂ _ =>
        .pure hm₂ (good_boolean _)
  | _ =>
    exact (hk.visit hv .first rfl).bind fun v m₁ done _ _ _ =>
      (hk.visit hv (.second done nofun nofun) rfl).bind fun w m₂ _ _ hm₂ _ =>
        .ofExcept hm₂ (.binary _ v w loc) fun _ h => h

theorem assign (target value : Expr) (loc : Location) :
    Hereditary src (n + 1) (.eval (.assign target value loc)) := by
  intro m hk hv
  refine (hk.visit hv .assigned rfl).bind fun v m₁ done hc₁ _ hgood => ?_
  refine Exec.Keeps.bind (Q := fun _ _ => True) ?_ fun _ m₃ _ hc₃ hm₃ _ =>
    .pure hm₃ (hgood.mono hc₃.toGrows)
  refine (hk.visit hv (.target done) rfl).bind fun place m₂ placed hc₂ hm₂ hplace => ?_
  refine .modifyPlace hm₂ loc (hgood.mono hc₂.toGrows)
    (fun name at' hroot hpath => ?_) fun ref name viaThis hroot => ?_
  · obtain ⟨s, hs, he⟩ := hv.task
    obtain rfl := hplace.1 name at' hroot hpath
    exact src.assigned hs he (by simp [Expr.assignsTo])
  · have hassign := HasExpr.mono hv.task (hc₁.trans hc₂).linked
    exact ⟨hplace.2.1 ref name viaThis hroot, target, value, loc, hassign,
      (field_of_place placed hroot).1⟩

theorem eval (expr : Expr) : Hereditary src (n + 1) (.eval expr) := by
  cases expr with
  | number => exact fun m _ hv => .pure hv.sound (good_number _)
  | text => exact fun m _ hv => .pure hv.sound (good_text _)
  | boolean => exact fun m _ hv => .pure hv.sound (good_boolean _)
  | name name loc => exact fun m _ hv => .nameValue hv.sound hv.task
  | binary op l r loc => exact binary op l r loc
  | unary op e loc =>
    exact fun m hk hv => (hk.visit hv .operand rfl).bind fun v m₁ _ _ hm₁ _ =>
      .ofExcept hm₁ (.unary op v loc) fun _ h => h
  | call callee args loc =>
    cases callee with
    | name name at' => exact callName name at' args loc
    | field object member at' => exact callMember object member at' args loc
    | _ => exact callValue rfl args loc
  | field object member loc =>
    exact fun m hk hv => (hk.visit hv .object rfl).bind fun v m₁ _ _ hm₁ hgood =>
      .memberValue hm₁ hgood member _ loc
  | index object index loc =>
    exact fun m hk hv => (hk.visit hv .indexed rfl).bind fun v m₁ done _ _ hgood =>
      (hk.visit hv (.index done) rfl).bind fun w m₂ _ hc₂ hm₂ _ =>
        .ofExcept hm₂ (.at? (hgood.mono hc₂.toGrows) w loc) fun _ h => h
  | assign target value loc => exact assign target value loc
  | record typeName given loc => exact fun m hk hv => hk.visit hv .literal rfl
  | array items loc =>
    exact fun m hk hv => (hk.visit hv .items rfl).bind fun vs m₁ _ _ hm₁ hvs =>
      .pure hm₁ (good_array.2 hvs)

/-! ### Statements -/

/-- A statement of a list. What follows is the rest of the list, or what stands behind a label. -/
theorem sequence {run : Stmt → Exec Flow} {all rest : List Stmt} {left : Nat} {s : Stmt}
    {m : Machine} (hs : Exec.Keeps src m src.Yields (run s))
    (hnext : ∀ m₁, run s m = .done .normal m₁ →
      Exec.Keeps src m₁ src.Yields (Exec.sequence run all left rest))
    (hjump : ∀ label loc m₁ behind, run s m = .done (.jump label loc) m₁ →
      Stmt.afterLabel? label all = some behind →
      Exec.Keeps src m₁ src.Yields (Exec.sequence run all left behind)) :
    Exec.Keeps src m src.Yields (Exec.sequence run all (left + 1) (s :: rest)) := by
  refine hs.bind fun flow m₁ done _ hm₁ hflow => ?_
  cases flow with
  | normal => exact hnext m₁ done
  | jump label loc =>
    cases hbehind : Stmt.afterLabel? label all with
    | none => simpa only [hbehind] using .pure hm₁ hflow
    | some behind => simpa only [hbehind] using hjump label loc m₁ behind done hbehind
  | snap | sink | awaken => exact .pure hm₁ hflow

theorem list (all rest : List Stmt) (left : Nat) : Hereditary src n (.list all rest left) := by
  intro m hk hv
  cases left with
  | zero => exact .exhausted
  | succ left =>
    cases rest with
    | nil => exact .pure hv.sound fun _ hv => by cases hv
    | cons s rest =>
      exact sequence (hk.visit hv .head rfl) (fun _ done => hk.visit hv (.next done) rfl)
        fun _ _ _ _ done found => hk.visit hv (.jumped done found) rfl

theorem main (all rest : List Stmt) (left : Nat) : Hereditary src n (.main all rest left) := by
  intro m hk hv
  cases left with
  | zero => exact .exhausted
  | succ left =>
    cases rest with
    | nil => exact .pure hv.sound fun _ hv => by cases hv
    | cons s rest =>
      exact sequence (hk.mainStmt hv) (fun _ done => hk.visit hv (.mainNext done) rfl)
        fun _ _ _ _ done found => hk.visit hv (.mainJumped done found) rfl

theorem block (stmts : List Stmt) : Hereditary src n (.block stmts) := fun _ hk hv =>
  .inFrame (hk.visit hv .block rfl) fun _ _ hflow v hv => (hflow v hv).mono (.same rfl rfl)

theorem rounds (cond next : Option Expr) (stmts : List Stmt) (left : Nat) :
    Hereditary src n (.rounds cond next stmts left) := by
  intro m hk hv
  cases left with
  | zero => exact .exhausted
  | succ left =>
    refine (hk.holds hv).bind fun held m₁ hheld hc₁ hm₁ _ => ?_
    cases held with
    | false => exact .pure hm₁ fun _ hv => by cases hv
    | true =>
      refine (hk.visit hv (.roundBody hheld) rfl).bind fun flow m₂ done hc₂ hm₂ hflow => ?_
      have hagain : (flow = .normal ∨ ∃ loc, flow = .sink loc) → Exec.Keeps src m₂ src.Yields (do
          perform (Exec.eval cfg n) next
          iterate (holds (Exec.eval cfg n) cond) (Exec.block (Exec.exec cfg n) n stmts)
            (perform (Exec.eval cfg n) next) left) := by
        intro goesOn
        have hnext := (Task.sourced_mono (.rounds cond next stmts left) (hc₁.trans hc₂) hv.task).2.1
        exact (hk.perform hheld done goesOn hm₂ hnext).bind fun _ m₃ stepped _ _ _ =>
          hk.visit hv (.again hheld done goesOn stepped) rfl
      cases flow with
      | normal => exact hagain (.inl rfl)
      | sink loc => exact hagain (.inr ⟨loc, rfl⟩)
      | snap => exact .pure hm₂ fun _ hv => by cases hv
      | jump | awaken => exact .pure hm₂ hflow

theorem exec (stmt : Stmt) : Hereditary src (n + 1) (.exec stmt) := by
  intro m hk hv
  have hnormal : ∀ {m₁}, src.Sound m₁ → Exec.Keeps src m₁ src.Yields (Pure.pure Flow.normal) :=
    fun hm₁ => .pure hm₁ fun _ hv => by cases hv
  cases stmt with
  | induce decl => exact (hk.visit hv .induced rfl).bind fun _ _ _ _ hm₁ _ => hnormal hm₁
  | branch cond yes no loc =>
    refine (hk.visit hv .cond rfl).bind fun v m₁ done _ hm₁ _ => ?_
    split
    · rename_i htrue
      exact hk.visit hv (.yes done htrue) rfl
    · rename_i hfalse
      cases no with
      | none => exact hnormal hm₁
      | some no => exact hk.visit hv (.no done (by simpa using hfalse)) rfl
  | whileLoop cond stmts loc => exact hk.visit hv .whileLoop rfl
  | loop init cond next stmts loc =>
    refine .inFrame (Q := src.Yields) ?_ fun _ _ hflow v hv => (hflow v hv).mono (.same rfl rfl)
    cases init with
    | none => exact hk.visit hv .loop rfl
    | some init =>
      refine (hk.visit hv .loopStart rfl).bind fun flow m₁ done _ hm₁ hflow => ?_
      cases flow with
      | normal => exact hk.visit hv (.loopStarted done) rfl
      | _ => exact .pure hm₁ hflow
  | suggestion | session | tranceify =>
    exact (hk.visit hv (.declared rfl) rfl).bind fun _ _ _ _ hm₁ _ => hnormal hm₁
  | observe expr loc =>
    exact (hk.visit hv .observed rfl).bind fun _ m₁ _ _ hm₁ _ =>
      (Exec.Keeps.writeLine hm₁ _).bind fun _ _ _ _ hm₂ _ => hnormal hm₂
  | awaken value loc =>
    cases value with
    | none =>
      refine .pure hv.sound ?_
      rintro _ ⟨⟩
      exact good_null
    | some expr =>
      refine (hk.visit hv .awakened rfl).bind fun v m₁ _ _ hm₁ hgood => .pure hm₁ ?_
      rintro _ ⟨⟩
      exact hgood
  | label => exact hnormal hv.sound
  | snap | sink | sinkTo =>
    exact (Exec.Keeps.update
      (hv.sound.outside m.events m.input m.capacity m.failures _)).bind fun _ _ _ _ hm₁ _ =>
      .pure hm₁ fun _ hv => by cases hv
  | assert cond message loc =>
    exact (hk.visit hv .asserted rfl).bind fun _ m₁ _ _ hm₁ _ =>
      (Exec.Keeps.checkAssertion hm₁ _ message loc).bind fun _ _ _ _ hm₂ _ => hnormal hm₂
  | entrance stmts loc => exact hk.visit hv .entrance rfl
  | mindLink path loc => exact (hk.visit hv .linked rfl).bind fun _ _ _ _ hm₁ _ => hnormal hm₁
  | expr expr loc => exact (hk.visit hv .performed rfl).bind fun _ _ _ _ hm₁ _ => hnormal hm₁

/-! ### Links and programs -/

theorem link (path : String) (loc : Location) : Hereditary src (n + 1) (.link path loc) := by
  intro m hk hv
  refine .machine ?_
  simp only
  split
  · exact .pure hv.sound trivial
  rename_i hnew
  refine (Exec.Keeps.update (hv.sound.link _)).bind fun _ m₁ hlinked _ hm₁ _ => ?_
  cases hlinked
  split
  · exact .fail hm₁ trivial
  rename_i source hread
  split
  · exact .fail hm₁ trivial
  rename_i p hparsed
  exact .inDirectory
    (hk.visit hv (.linkedFile (by simpa using hnew) hread hparsed) rfl) fun _ _ h => h

theorem merge (rest : List Stmt) : Hereditary src n (.merge rest) := by
  intro m hk hv
  cases rest with
  | nil => exact .pure hv.sound trivial
  | cons s rest =>
    exact (hk.mergeStmt hv).bind fun _ _ done _ _ _ => hk.visit hv (.moreMerged done) rfl

theorem hoist (rest : List Stmt) : Hereditary src n (.hoist rest) := by
  intro m hk hv
  cases rest with
  | nil => exact .pure hv.sound trivial
  | cons s rest =>
    exact (hk.visit hv .hoisted rfl).bind fun _ _ done _ _ _ => hk.visit hv (.moreHoisted done) rfl

theorem follow (rest : List Stmt) : Hereditary src n (.follow rest) := by
  intro m hk hv
  cases rest with
  | nil => exact .pure hv.sound trivial
  | cons s rest =>
    exact (hk.followLink hv).bind fun _ _ done _ _ _ => hk.visit hv (.moreFollowed done) rfl

theorem entrances (rest : List Stmt) : Hereditary src n (.entrances rest) := by
  intro m hk hv
  cases rest with
  | nil => exact .pure hv.sound fun _ hv => by cases hv
  | cons s rest =>
    cases s with
    | entrance stmts loc =>
      refine (hk.visit hv .entered rfl).bind fun flow m₁ done _ hm₁ hflow => ?_
      cases flow with
      | awaken v => exact .pure hm₁ hflow
      | normal =>
        exact (Exec.Keeps.rejectEscape hm₁ _).after (.rejectEscape _) fun _ _ _ =>
          hk.visit hv (.moreEntered done) rfl
      | snap | sink | jump =>
        exact (Exec.Keeps.rejectEscape hm₁ _).after (.rejectEscape _) fun _ rejected _ => by
          cases rejected
    | _ => exact hk.visit hv (.passed nofun) rfl

theorem afterHoist {p : Program} {m m₁ : Machine} (hk : Visit.Relies src ⟨n, .program p, m⟩)
    (hv : Visit.Sourced src ⟨n, .program p, m⟩)
    (hoisted : p.statements.forM (Exec.declare (Exec.eval cfg n)) m = .done () m₁) :
    Exec.Keeps src m₁ (fun _ _ => True) (Exec.afterHoist cfg n p) := by
  refine (hk.visit hv (.following hoisted) rfl).bind fun _ m₂ followed _ _ _ =>
    (hk.visit hv (.entering hoisted followed) rfl).bind fun (flow : Flow) m₃ entered _ hm₃ _ => ?_
  have hmain : (∀ v, flow ≠ .awaken v) → Exec.Keeps src m₃ (fun _ _ => True) (do
      let flow ← Exec.sequence (Exec.mainStmt (Exec.exec cfg n)) p.statements n p.statements
      Exec.rejectEscape flow) := fun goesOn =>
    (hk.visit hv (.starting hoisted followed entered goesOn) rfl).bind fun _ _ _ _ hm₄ _ =>
      .rejectEscape hm₄ _
  cases flow with
  | awaken => exact .pure hm₃ trivial
  | _ => exact hmain nofun

theorem program (p : Program) : Hereditary src n (.program p) := fun _ hk hv =>
  (hk.visit hv .hoisting rfl).bind fun _ _ hoisted _ _ _ => afterHoist hk hv hoisted

end Task.Hereditary

/-! ## Everything -/

section

variable {cfg : Settings}

theorem Task.hereditary {src : Sources cfg.files} (n : Nat) (task : Task)
    (hthis : task.bindsThis = true → ¬ src.Reserved Expr.thisName) : task.Hereditary src n := by
  cases task with
  | eval expr =>
    cases n with
    | zero => exact fun _ _ _ => .exhausted
    | succ n => exact .eval expr
  | exec stmt =>
    cases n with
    | zero => exact fun _ _ _ => .exhausted
    | succ n => exact .exec stmt
  | call decl args receiver loc =>
    cases n with
    | zero => exact fun _ _ _ => .exhausted
    | succ n => exact .call decl args receiver loc
  | link path loc =>
    cases n with
    | zero => exact fun _ _ _ => .exhausted
    | succ n => exact .link path loc
  | values exprs => exact .values exprs
  | place loc target => exact .place loc target
  | detached expr => exact .detached expr
  | record typeName given loc => exact .record typeName given loc
  | fields given rest => exact .fields given rest
  | default typeName loc => exact .default typeName loc
  | statics object rest => exact .statics object rest
  | members loc object rest => exact .members loc object rest
  | instantiate name args loc => exact .instantiate name args loc
  | body decl args receiver => exact .body (hthis rfl) decl args receiver
  | declare stmt => exact .declare stmt
  | induce decl => exact .induce decl
  | block stmts => exact .block stmts
  | list all rest left => exact .list all rest left
  | rounds cond next stmts left => exact .rounds cond next stmts left
  | merge rest => exact .merge rest
  | program p => exact .program p
  | hoist rest => exact .hoist rest
  | follow rest => exact .follow rest
  | entrances rest => exact .entrances rest
  | main all rest left => exact .main all rest left

/-- **Every visit leaves a sound machine behind.** -/
theorem Visit.keeps (src : Sources cfg.files) (v : Visit) : v.Keeps src := by
  have hall : ∀ w, v.Reaches cfg w → w.Keeps src := by
    induction v using Visit.induction cfg with
    | h v ih =>
      have hk : v.Relies src := by
        intro w hw
        obtain ⟨u, edge, hu⟩ := Relation.TransGen.head'_iff.1 hw
        exact ih u edge w hu
      intro w hw
      obtain rfl | ⟨u, edge, hu⟩ := Relation.ReflTransGen.cases_head hw
      · exact fun hv hthis => v.task.hereditary v.bound hthis v.machine hk hv
      · exact ih u edge w hu
  exact hall v .refl

variable {src : Sources cfg.files} {v w : Visit}

theorem Visit.relies (src : Sources cfg.files) (v : Visit) : v.Relies src := fun w _ => w.keeps src

theorem Visit.Sourced.keeps (hv : v.Sourced src) (hbinds : v.task.bindsThis = false) :
    Exec.Keeps src v.machine (v.task.Returns src) (v.task.step cfg v.bound) :=
  v.keeps src hv fun htrue => by simp [hbinds] at htrue

/-- **What is started is sound again.** -/
theorem Visit.Starts.descends (edge : Visit.Starts cfg v w) (hv : v.Sourced src) :
    v.Descends src w :=
  (v.relies src).descends edge hv

/-- **Everything that is reached is sound.** -/
theorem Visit.Sourced.of_reaches (hv : v.Sourced src) (h : v.Reaches cfg w) : w.Sourced src := by
  induction h with
  | refl => exact hv
  | tail _ edge ih => exact (edge.descends ih).toSourced

end

theorem Program.sourced_reset {cfg : Settings} (p : Program) (reserved : String → Prop)
    (h : ∀ name, reserved name → p.Spares cfg.files name) (bound : Nat) (m : Machine) :
    Visit.Sourced (p.sources cfg.files reserved h) ⟨bound, .program p, m.reset⟩ :=
  ⟨sound_reset _ m, fun s hs => .inl (mem_listParts.2 ⟨s, hs, .inl rfl⟩)⟩

theorem Program.sourced_of_reaches {cfg : Settings} {p : Program} {bound : Nat} {m : Machine}
    {v : Visit} (h : Visit.Reaches cfg ⟨bound, .program p, m.reset⟩ v) :
    v.Sourced (p.plainSources cfg.files) :=
  (p.sourced_reset _ _ bound m).of_reaches h

end Trance
