import Trance.Proofs.Checking.Statements

/-!
# A check only adds to what it has

However a check goes on, it comes back to the place where it was, with the frames that were open.
What has been reported stays reported, files stay linked, and names stay bound: a symbol keeps its
kind and its value, and its type once it has one. -/

namespace Trance

open List Option Terms

/-! ## Scopes -/

/-- A symbol that stays what it is, and keeps its type once it has one. -/
structure Symbol.Becomes (a b : Symbol) : Prop where
  name : b.name = a.name
  kind : b.kind = a.kind
  value : b.value = a.value
  typeName : ∀ t, a.typeName = some t → b.typeName = some t

theorem Symbol.Becomes.refl (a : Symbol) : a.Becomes a := ⟨rfl, rfl, rfl, fun _ h => h⟩

theorem Symbol.Becomes.trans {a b c : Symbol} (h : a.Becomes b) (h' : b.Becomes c) : a.Becomes c :=
  ⟨h'.name.trans h.name, h'.kind.trans h.kind, h'.value.trans h.value, fun t ht =>
    h'.typeName t (h.typeName t ht)⟩

namespace Bindings

/-- What is bound stays bound, and at most gets a type. -/
def Extends (bindings bindings' : Bindings) : Prop :=
  ∀ name symbol, bindings.find? name = some symbol → ∃ later, bindings'.find? name = some later ∧
    symbol.Becomes later

theorem Extends.refl (bindings : Bindings) : bindings.Extends bindings :=
  fun _ symbol h => ⟨symbol, h, .refl symbol⟩

variable {bindings : Bindings}

theorem Extends.trans {bindings' bindings'' : Bindings} (h : bindings.Extends bindings')
    (h' : bindings'.Extends bindings'') : bindings.Extends bindings'' := by
  intro name symbol hfound
  obtain ⟨later, hlater, hbecomes⟩ := h name symbol hfound
  obtain ⟨last, hlast, hbecomes'⟩ := h' name later hlater
  exact ⟨last, hlast, hbecomes.trans hbecomes'⟩

theorem extends_of_add? {bindings' : Bindings} {symbol : Symbol}
    (h : bindings.add? symbol = some bindings') : bindings.Extends bindings' := by
  intro name old hold
  have hfound := find?_add? h name
  split at hfound
  · rename_i hname
    rw [add?, if_pos (by rw [has, hname, hold]; rfl)] at h
    cases h
  · exact ⟨old, hfound.trans hold, .refl old⟩

theorem extends_update {name : String} {change : Symbol → Symbol}
    (hname : ∀ symbol, (change symbol).name = symbol.name)
    (h : ∀ symbol, bindings.find? name = some symbol → symbol.Becomes (change symbol)) :
    bindings.Extends (bindings.update name change) := by
  intro other symbol hfound
  refine ⟨_, by rw [find?_update _ _ _ _ hname, hfound, map_some], ?_⟩
  split
  · rename_i hsame
    have hother : symbol.name = other := by simpa using List.find?_some hfound
    rw [beq_iff_eq, hother] at hsame
    exact h symbol (hsame ▸ hfound)
  · exact .refl symbol

end Bindings

def Frame.Extends (f g : Frame) : Prop := g.kind = f.kind ∧ f.bindings.Extends g.bindings

theorem Frame.Extends.refl (f : Frame) : f.Extends f := ⟨rfl, .refl _⟩

/-- Scopes with the same frames, in which names stay bound. -/
structure Scopes.Extends (s t : Scopes) : Prop where
  frames : List.Forall₂ Frame.Extends s.frames t.frames
  globals : s.globals.Extends t.globals

namespace Scopes

variable {s t u : Scopes}

theorem extends_frames (frames : List Frame) : List.Forall₂ Frame.Extends frames frames :=
  forall₂_same.2 fun f _ => .refl f

theorem Extends.refl (s : Scopes) : s.Extends s := ⟨extends_frames _, .refl _⟩

theorem extends_frames_trans {fs gs hs : List Frame} (h : List.Forall₂ Frame.Extends fs gs)
    (h' : List.Forall₂ Frame.Extends gs hs) : List.Forall₂ Frame.Extends fs hs := by
  induction h generalizing hs with
  | nil => exact h'
  | cons hfg _ ih =>
    cases h' with
    | cons hgh hrest => exact .cons ⟨hgh.1.trans hfg.1, hfg.2.trans hgh.2⟩ (ih hrest)

theorem Extends.trans (h : s.Extends t) (h' : t.Extends u) : s.Extends u :=
  ⟨extends_frames_trans h.frames h'.frames, h.globals.trans h'.globals⟩

theorem Extends.exit (h : s.Extends t) : s.exit.Extends t.exit := by
  obtain ⟨frames, globals⟩ := s
  obtain ⟨frames', globals'⟩ := t
  obtain ⟨hframes, hglobals⟩ := h
  cases hframes with
  | nil => exact ⟨.nil, hglobals⟩
  | cons _ hframes => exact ⟨hframes, hglobals⟩

theorem extends_define? {symbol : Symbol} (h : s.define? symbol = some t) : s.Extends t := by
  obtain ⟨frames, globals⟩ := s
  cases frames with
  | nil =>
    obtain ⟨globals', hadd, rfl⟩ := map_eq_some_iff.1 h
    exact ⟨.nil, Bindings.extends_of_add? hadd⟩
  | cons frame below =>
    obtain ⟨bindings', hadd, rfl⟩ := map_eq_some_iff.1 h
    exact ⟨.cons ⟨rfl, Bindings.extends_of_add? hadd⟩ (extends_frames below), .refl _⟩

theorem extends_defineGlobal? {symbol : Symbol} (h : s.defineGlobal? symbol = some t) :
    s.Extends t := by
  obtain ⟨globals', hadd, rfl⟩ := map_eq_some_iff.1 h
  exact ⟨extends_frames _, Bindings.extends_of_add? hadd⟩

theorem extends_update? {name : String} (change : Symbol → Symbol)
    (hname : ∀ symbol, (change symbol).name = symbol.name)
    (hchange : ∀ symbol, s.resolve? name = some symbol → symbol.Becomes (change symbol))
    (h : s.update? name change = some t) : s.Extends t := by
  obtain ⟨frames, globals⟩ := s
  obtain ⟨symbol, hsymbol, hcases⟩ := update?_eq_some h
  have hextends {bindings : Bindings} (hfind : bindings.find? name = some symbol) :
      bindings.Extends (bindings.update name change) :=
    Bindings.extends_update hname fun _ hother => hchange _ (hsymbol.trans (hfind.symm.trans hother))
  obtain ⟨hfind, rfl⟩ | ⟨above, frame, below, rfl, hfind, rfl⟩ := hcases
  · exact ⟨extends_frames _, hextends hfind⟩
  · exact ⟨rel_append (extends_frames above) (.cons ⟨rfl, hextends hfind⟩ (extends_frames below)),
      .refl _⟩

end Scopes

/-! ## Checks -/

theorem Report.errors_add (r : Report) (d : Diagnostic) : r.errors <+: (r.add d).errors := by
  unfold Report.add
  cases d.severity with
  | error => exact prefix_append _ _
  | warning => exact prefix_rfl

theorem Report.warnings_add (r : Report) (d : Diagnostic) : r.warnings <+: (r.add d).warnings := by
  unfold Report.add
  cases d.severity with
  | error => exact prefix_rfl
  | warning => exact prefix_append _ _

/-- A check goes on at the same place in a program. Files stay linked, and names stay bound. -/
structure Checker.Grows (c c' : Checker) : Prop extends c.Before c' where
  context : c'.context = c.context
  baseDir : c'.baseDir = c.baseDir
  linked : c.linked ⊆ c'.linked
  scopes : c.scopes.Extends c'.scopes

namespace Checker.Grows

variable {c c' c'' : Checker}

theorem refl (c : Checker) : c.Grows c := ⟨.refl c, rfl, rfl, List.Subset.refl _, .refl _⟩

theorem trans (h : c.Grows c') (h' : c'.Grows c'') : c.Grows c'' :=
  ⟨h.toBefore.trans h'.toBefore, h'.context.trans h.context, h'.baseDir.trans h.baseDir,
    List.Subset.trans h.linked h'.linked, h.scopes.trans h'.scopes⟩

theorem add (c : Checker) (d : Diagnostic) : c.Grows { c with report := c.report.add d } :=
  ⟨⟨c.report.errors_add d, c.report.warnings_add d, fun type h => by cases type <;> exact h⟩, rfl,
    rfl, List.Subset.refl _, .refl _⟩

theorem extend {s : Scopes} (h : c.scopes.Extends s) : c.Grows { c with scopes := s } :=
  ⟨⟨prefix_rfl, prefix_rfl, fun type h => by cases type <;> exact h⟩, rfl, rfl, List.Subset.refl _,
    h⟩

theorem know (c : Checker) (name : String) (info : SessionInfo) :
    c.Grows { c with sessions := c.sessions.insert name info } := by
  refine ⟨⟨prefix_rfl, prefix_rfl, fun type h => ?_⟩, rfl, rfl, List.Subset.refl _, .refl _⟩
  cases type with
  | session other => exact Table.has_insert_of_has h name info
  | _ => exact h

theorem knowRecord (c : Checker) (name : String) (info : RecordInfo) :
    c.Grows { c with records := c.records.insert name info } := by
  refine ⟨⟨prefix_rfl, prefix_rfl, fun type h => ?_⟩, rfl, rfl, List.Subset.refl _, .refl _⟩
  cases type with
  | record other => exact Table.has_insert_of_has h name info
  | _ => exact h

end Checker.Grows

namespace Check

variable {α β : Type} {x : Check α}

/-- A step with which a check only grows. -/
class Growing (x : Check α) : Prop where
  grows (x) : ∀ c : Checker, c.Grows (x.run c).2

export Growing (grows)

instance (a : α) : Growing (pure a : Check α) := ⟨.refl⟩

instance {f : α → Check β} [Growing x] [∀ a, Growing (f a)] : Growing (x >>= f) :=
  ⟨fun c => (grows x c).trans (grows (f (x.run c).1) _)⟩

instance {p : Prop} [Decidable p] {y : Check α} [Growing x] [Growing y] :
    Growing (if p then x else y) := by
  split <;> infer_instance

instance (finding : Finding) (loc : Location) : Growing (report finding loc) := ⟨fun c => .add c _⟩

instance (cond : Bool) (finding : Finding) (loc : Location) :
    Growing (reportIf cond finding loc) := by
  unfold reportIf
  infer_instance

instance {σ : Type} {step : σ → Check Unit} [∀ s, Growing (step s)] (all : List σ) :
    Growing (all.forM step) := by
  induction all with
  | nil => exact inferInstanceAs (Growing (pure ()))
  | cons s rest ih => exact inferInstanceAs (Growing (step s >>= fun _ => rest.forM step))

instance (kind : Frame.Kind) [Growing x] : Growing (inFrame kind x) where
  grows c := by
    have h := grows x { c with scopes := c.scopes.enter kind }
    exact { h with scopes := h.scopes.exit }

theorem growing_inContext {enter : Context → Context} {leave : Context → Context → Context}
    (back : ∀ context, leave context (enter context) = context) [Growing x] :
    Growing (inContext enter leave x) where
  grows c := by
    have h := grows x { c with context := enter c.context }
    refine { h with context := ?_ }
    show leave c.context (x.run { c with context := enter c.context }).2.context = c.context
    rw [h.context, back]

theorem Growing.get {f : Checker → Check β} (h : ∀ c, Growing (f c)) :
    Growing (MonadState.get >>= f) :=
  ⟨fun c => (h c).grows c⟩

/-! ## Plain steps -/

theorem run_define_none {symbol : Symbol} {c : Checker} (h : c.scopes.define? symbol = none) :
    (define symbol).run c = (false, c) := by
  simp only [define, StateT.run_bind, StateT.run_get, pure_bind, h]
  rfl

theorem run_define_some {symbol : Symbol} {c : Checker} {s : Scopes}
    (h : c.scopes.define? symbol = some s) :
    (define symbol).run c = (true, { c with scopes := s }) := by
  simp only [define, StateT.run_bind, StateT.run_get, pure_bind, h]
  rfl

instance (symbol : Symbol) : Growing (define symbol) where
  grows c := by
    cases hdefine : c.scopes.define? symbol with
    | none =>
      rw [run_define_none hdefine]
      exact .refl c
    | some s =>
      rw [run_define_some hdefine]
      exact .extend (Scopes.extends_define? hdefine)

instance (name typeName : String) : Growing (giveType name typeName) where
  grows c := by
    show c.Grows (if _ then _ else _)
    split
    · rename_i hfree
      refine .extend ?_
      cases hupdate : c.scopes.update? name fun symbol =>
        { symbol with typeName := some typeName } with
      | none => exact .refl _
      | some s =>
        refine Scopes.extends_update? (fun symbol => { symbol with typeName := some typeName })
          (fun _ => rfl) (fun symbol hsymbol => ⟨rfl, rfl, rfl, fun t ht => ?_⟩) hupdate
        rw [show c.scopes.resolve? name = some symbol from hsymbol, any_some, ht] at hfree
        cases hfree
    · exact .refl c

instance (name : String) (info : SessionInfo) :
    Growing (modify fun c => { c with sessions := c.sessions.insert name info }) :=
  ⟨fun c => .know c name info⟩

instance (name : String) (info : RecordInfo) :
    Growing (modify fun c => { c with records := c.records.insert name info }) :=
  ⟨fun c => .knowRecord c name info⟩

instance (type : Ty) : Growing (modify (Checker.learn type)) := by
  cases type with
  | session name => exact inferInstanceAs
    (Growing (modify fun c => { c with sessions := c.sessions.insert name ⟨[], 0⟩ }))
  | record name =>
    exact inferInstanceAs (Growing (modify fun c => { c with records := c.records.insert name [] }))
  | _ => exact ⟨.refl⟩

instance (type : Ty) (loc : Location) : Growing (introduce type loc) := by
  unfold introduce
  infer_instance

end Check

open Check

namespace Terms

variable {α : Type} {T : Terms} {p : Prop} {k : Nat} {Q : α → Prop} {x y : Check α}
  {jumps : Context → List (Code × Location)} {calls : Checker → List Call}

/-- **A check only adds to what it has**, if links do. -/
theorem Made.growing (h : T.Made p k Q x y jumps calls)
    (hlink : T.links → ∀ path loc, Growing (T.link path loc)) : Growing x := by
  induction h with
  | bind _ _ ih ih' => infer_instance
  | look _ _ ih => exact .get ih
  | jump => exact .get fun _ => inferInstance
  | inContext back _ ih => exact growing_inContext back
  | link h path loc => exact hlink h path loc
  | infer _ ih => exact ih
  | induce _ ih => exact ih
  | _ => infer_instance

end Terms

namespace Check

variable {α : Type} {Q : α → Prop} {x : Check α} {calls : Checker → List Call}

abbrev linking (link : Follower) : Terms := .lax (fun _ => True) True link link

theorem growing_of_plain (h : (linking fun _ _ => pure ()).Plain False 1 Q x calls) : Growing x :=
  h.growing fun _ _ _ => inferInstanceAs (Growing (pure ()))

instance (name : String) : Growing (typeNamed name) := growing_of_plain (looks_typeNamed name)

instance (name : String) (loc : Location) : Growing (resolveType name loc) :=
  growing_of_plain (looks_resolveType name loc)

instance (op : BinaryOp) (s t : Ty) (loc : Location) : Growing (binaryType op s t loc) :=
  growing_of_plain (looks_binaryType nofun nofun op loc)

instance (op : UnaryOp) (s : Ty) (loc : Location) : Growing (unaryType op s loc) :=
  growing_of_plain (looks_unaryType op nofun loc)

instance (name : String) (nameLoc : Location) (s : Ty) (loc : Location) :
    Growing (assignName name nameLoc s loc) :=
  growing_of_plain (looks_assignName name nameLoc nofun loc)

instance (e : Expr) : Growing (infer e) := growing_of_plain (plain_infer e)

instance (cond : Expr) (word : String) : Growing (condition cond word) :=
  growing_of_plain (plain_condition cond word)

instance (symbol : Symbol) (finding : Finding) (loc : Location) :
    Growing (defineOr symbol finding loc) :=
  inferInstanceAs (Growing (define symbol >>= fun free =>
    if free then pure () else report finding loc))

instance (s : Stmt) : Growing (collectType s) :=
  growing_of_plain (looks_collectType (lax_admits _ _ _ _ s))

instance (name : String) (actual : Ty) (loc : Location) : Growing (inferredType name actual loc) :=
  growing_of_plain (looks_inferredType name nofun loc)

instance (decl : Variable) (declared : Option Ty) : Growing (variableType decl declared) :=
  growing_of_plain (plain_variableType nofun)

instance growing_awakenHere (actual : Option Ty) (loc : Location) : Growing (do
    match (← get).context.enclosing with
    | some enclosing => awakenValue enclosing actual loc
    | none => pure ()) :=
  growing_of_plain (looks_awakenHere actual loc)

instance (step : Check Unit) [Growing step] : Growing (inLoop step) :=
  growing_inContext fun _ => rfl

instance (labels : List String) (step : Check Unit) [Growing step] :
    Growing (withLabels labels step) :=
  growing_inContext fun _ => rfl

instance (body : List Stmt) (step : Check Unit) [Growing step] : Growing (inBlock body step) :=
  inferInstanceAs (Growing (inFrame .block (withLabels (labelsOf body) step)))

instance (loop : Loop) : Growing loop.checkCond := by
  unfold Loop.checkCond
  split <;> infer_instance

instance (loop : Loop) : Growing loop.checkStep := by
  unfold Loop.checkStep
  split <;> infer_instance

section

variable (link : Follower) [∀ path loc, Growing (link path loc)]

instance (s : Stmt) : Growing (stmt link s) :=
  have hlinks : (linking link).Follows (s.sites .fresh) := fun _ _ _ => trivial
  (made_stmt s hlinks (.of_forall (lax_admits _ _ _ _)) (p := False) (k := 1) nofun).growing
    fun _ path loc => inferInstanceAs (Growing (link path loc))

instance (body : List Stmt) : Growing (stmts link body) := by
  induction body with
  | nil => exact inferInstanceAs (Growing (pure ()))
  | cons first rest ih =>
    exact inferInstanceAs (Growing (stmt link first >>= fun _ => stmts link rest))

instance (body : List Stmt) : Growing (block link body) :=
  inferInstanceAs (Growing (inBlock body (stmts link body)))

instance (loop : Loop) : Growing (loop.check link) :=
  inferInstanceAs (Growing (loop.checkCond >>= fun _ => loop.checkStep >>= fun _ =>
    inLoop (block link loop.body)))

instance (s : Stmt) : Growing (entrance link s) := by
  cases s with
  | entrance body loc => exact inferInstanceAs (Growing (block link body))
  | _ => exact inferInstanceAs (Growing (pure ()))

instance growing_deferring (change : List Deferred → List Deferred) :
    Growing (modify fun c => { c with deferred := change c.deferred }) :=
  ⟨fun c => { Checker.Grows.refl c with }⟩

instance (s : Stmt) : Growing (mainStmt link s) := by
  cases s with
  | entrance | mindLink => exact inferInstanceAs (Growing (pure ()))
  | suggestion decl => exact growing_deferring (· ++ [.suggestion decl])
  | session decl => exact growing_deferring (· ++ [.session decl])
  | tranceify decl => exact growing_deferring (· ++ [.tranceify decl])
  | _ => exact inferInstanceAs (Growing (stmt link _))

instance (s : Stmt) : Growing (followLink link s) := by
  cases s with
  | mindLink path loc => exact inferInstanceAs (Growing (link path loc))
  | _ => exact inferInstanceAs (Growing (pure ()))

instance (p : Program) : Growing (names p) :=
  growing_of_plain (looks_names (fun _ _ => trivial) fun s _ => lax_admits _ _ _ _ s)

instance (p : Program) : Growing (bodies link p) :=
  (made_bodies (T := linking link) (k := 0) (q := False) (fun _ _ => trivial) (fun _ _ _ => trivial)
    fun _ _ => .of_forall (lax_admits _ _ _ _)).growing fun _ path loc => inferInstanceAs
      (Growing (link path loc))

instance (s : Stmt) : Growing (declarationBody link s) :=
  (made_declarationBody (T := linking link) (k := 0) (p := False) (fun _ _ _ => trivial)
    (.of_forall (lax_admits _ _ _ _))).growing fun _ path loc =>
      inferInstanceAs (Growing (link path loc))

instance (decl : Deferred) : Growing (deferredBody link decl) := by
  cases decl with
  | suggestion decl => exact inferInstanceAs (Growing (declarationBody link (.suggestion decl)))
  | session decl => exact inferInstanceAs (Growing (declarationBody link (.session decl)))
  | tranceify decl => exact inferInstanceAs (Growing (declarationBody link (.tranceify decl)))

theorem grows_program (p : Program) (c : Checker) :
    (c.after (names p)).Grows (c.after (program link p)) := by
  have hcollected := (grows (p.statements.forM (followLink link)) (c.after (names p))).trans
    (grows (p.statements.forM collectType) _)
  have hmain := (hcollected.trans (grows (p.statements.forM (entrance link)) _)).trans
    (grows (withLabels (labelsOf p.statements) (p.statements.forM (mainStmt link))) _)
  exact (hmain.trans (growing_deferring (fun _ => []) |>.grows _)).trans
    (grows (List.forM _ (deferredBody link)) _)

instance (p : Program) : Growing (program link p) :=
  ⟨fun c => (grows (names p) c).trans (grows_program link p c)⟩

end

end Check

end Trance
