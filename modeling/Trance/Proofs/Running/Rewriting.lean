import Trance.Proofs.Running.Parts
import Trance.Proofs.Running.Statement

/-!
# Programs with other statements

Two programs are compared whose statements are related one by one, and so are the programs in the
files that they link. Related statements are of the same form with related parts, or one takes the
place of the other; in the latter case it has to be known that they run alike. Then the programs run
alike. Suggestions are values, so values and objects of the two runs may differ in the bodies of
suggestions. -/

namespace Trance

open List Exec

/-! ## Related statements -/

/-- Whether a statement has no statements inside and is no assertion. -/
def Stmt.isSimple : Stmt → Bool
  | .branch .. | .whileLoop .. | .loop .. | .suggestion _ | .session _ | .assert ..
  | .entrance .. => false
  | _ => true

/-- Suggestions that differ in their bodies only, which are related by `R`. -/
inductive Suggestion.Related (R : List Stmt → List Stmt → Prop) :
    Suggestion → Suggestion → Prop where
  | intro {name params returnType body body' imperative dominant location origin}
      (bodies : R body body') :
      Related R ⟨name, params, returnType, body, imperative, dominant, location, origin⟩
        ⟨name, params, returnType, body', imperative, dominant, location, origin⟩

/-- Members that differ in the bodies of methods only. -/
inductive Member.Related (R : List Stmt → List Stmt → Prop) : Member → Member → Prop where
  | field (decl : Variable) (exposed dominant : Bool) :
      Related R ⟨.field decl, exposed, dominant⟩ ⟨.field decl, exposed, dominant⟩
  | method {a b} (decl : Suggestion.Related R a b) (exposed dominant : Bool) :
      Related R ⟨.method a, exposed, dominant⟩ ⟨.method b, exposed, dominant⟩

/-- Statements of the same form, with statements inside that are related by `T`. -/
inductive Stmt.Congruent (T : Stmt → Stmt → Prop) : Stmt → Stmt → Prop where
  | simple {s} (h : s.isSimple = true) : Congruent T s s
  | assert (cond message loc) : Congruent T (.assert cond message loc) (.assert cond message loc)
  | branch {cond yes yes' no no' loc} (first : Forall₂ T yes yes')
      (second : Option.Rel (Forall₂ T) no no') :
      Congruent T (.branch cond yes no loc) (.branch cond yes' no' loc)
  | whileLoop {cond body body' loc} (inside : Forall₂ T body body') :
      Congruent T (.whileLoop cond body loc) (.whileLoop cond body' loc)
  | loop {init init' cond step body body' loc} (before : Option.Rel T init init')
      (inside : Forall₂ T body body') :
      Congruent T (.loop init cond step body loc) (.loop init' cond step body' loc)
  | suggestion {a b} (decl : Suggestion.Related (Forall₂ T) a b) :
      Congruent T (.suggestion a) (.suggestion b)
  | session {name members members' loc}
      (inside : Forall₂ (Member.Related (Forall₂ T)) members members') :
      Congruent T (.session ⟨name, members, loc⟩) (.session ⟨name, members', loc⟩)
  | entrance {body body' loc} (inside : Forall₂ T body body') :
      Congruent T (.entrance body loc) (.entrance body' loc)

/-! ## Statements of the same form -/

theorem exists_forall₂ {α β : Type} {R : α → β → Prop} {as : List α} (h : ∀ a ∈ as, ∃ b, R a b) :
    ∃ bs, Forall₂ R as bs := by
  induction as with
  | nil => exact ⟨[], .nil⟩
  | cons a as ih =>
    obtain ⟨b, hab⟩ := h a mem_cons_self
    obtain ⟨bs, has⟩ := ih fun a' ha' => h a' (mem_cons_of_mem a ha')
    exact ⟨b :: bs, .cons hab has⟩

theorem forall_mem_of_forall₂ {α β : Type} {R : α → β → Prop} {good : β → Prop} {as : List α}
    {bs : List β} (h : Forall₂ R as bs) (hR : ∀ {a b}, R a b → good b) : ∀ b ∈ bs, good b := by
  induction h with
  | nil => exact forall_mem_nil _
  | cons hab _ ih => exact forall_mem_cons.2 ⟨hR hab, ih⟩

theorem Suggestion.exists_related {R : List Stmt → List Stmt → Prop} (decl : Suggestion)
    (h : ∃ body, R decl.body body) : ∃ decl', Suggestion.Related R decl decl' := by
  obtain ⟨body, hbody⟩ := h
  exact ⟨_, .intro hbody⟩

section

variable {T T' : Stmt → Stmt → Prop} {s t : Stmt}

theorem Stmt.exists_congruent (s : Stmt) (h : ∀ child ∈ s.children, ∃ t, T child t) :
    ∃ t, Stmt.Congruent T s t := by
  have hlist : ∀ {body : List Stmt}, (∀ child ∈ body, child ∈ s.children) →
      ∃ body', Forall₂ T body body' :=
    fun hbody => exists_forall₂ fun child hchild => h child (hbody child hchild)
  cases s with
  | assert cond message loc => exact ⟨_, .assert cond message loc⟩
  | branch cond yes no loc =>
    obtain ⟨yes', hyes⟩ := hlist fun child h => mem_append_left _ h
    cases no with
    | none => exact ⟨_, .branch hyes .none⟩
    | some no =>
      obtain ⟨no', hno⟩ := hlist fun child h => mem_append_right yes h
      exact ⟨_, .branch hyes (.some hno)⟩
  | whileLoop cond body loc =>
    obtain ⟨body', hbody⟩ := hlist fun _ => id
    exact ⟨_, .whileLoop hbody⟩
  | loop init cond step body loc =>
    obtain ⟨body', hbody⟩ := hlist fun child h => mem_append_right init.toList h
    cases init with
    | none => exact ⟨_, .loop .none hbody⟩
    | some init =>
      obtain ⟨init', hinit⟩ := h init mem_cons_self
      exact ⟨_, .loop (.some hinit) hbody⟩
  | suggestion decl =>
    obtain ⟨decl', hdecl⟩ := Suggestion.exists_related decl (hlist fun _ => id)
    exact ⟨_, .suggestion hdecl⟩
  | session decl =>
    obtain ⟨name, members, loc⟩ := decl
    have hmember : ∀ member ∈ members, ∃ member', Member.Related (Forall₂ T) member member' := by
      rintro ⟨field | method, exposed, dominant⟩ hmem
      · exact ⟨_, .field field exposed dominant⟩
      · obtain ⟨method', hmethod⟩ := Suggestion.exists_related method
          (hlist fun child h => mem_flatMap.2 ⟨_, hmem, h⟩)
        exact ⟨_, .method hmethod exposed dominant⟩
    obtain ⟨members', hmembers⟩ := exists_forall₂ hmember
    exact ⟨_, .session hmembers⟩
  | entrance body loc =>
    obtain ⟨body', hbody⟩ := hlist fun _ => id
    exact ⟨_, .entrance hbody⟩
  | _ => exact ⟨_, .simple rfl⟩

namespace Stmt.Congruent

theorem self (h : ∀ child ∈ s.children, T child child) : Congruent T s s := by
  have hlist : ∀ {body : List Stmt}, (∀ child ∈ body, child ∈ s.children) → Forall₂ T body body :=
    fun hbody => forall₂_same.2 fun child hchild => h child (hbody child hchild)
  cases s with
  | assert cond message loc => exact .assert cond message loc
  | branch cond yes no loc =>
    refine .branch (hlist fun _ => mem_append_left _) ?_
    cases no with
    | none => exact .none
    | some no => exact .some (hlist fun _ => mem_append_right yes)
  | loop init cond step body loc =>
    refine .loop ?_ (hlist fun _ => mem_append_right init.toList)
    cases init with
    | none => exact .none
    | some init => exact .some (h init mem_cons_self)
  | suggestion decl => exact .suggestion (.intro (hlist fun _ => id))
  | session decl =>
    refine .session (forall₂_same.2 ?_)
    rintro ⟨field | method, exposed, dominant⟩ hmem
    · exact .field field exposed dominant
    · exact .method (.intro (hlist fun child h => mem_flatMap.2 ⟨_, hmem, h⟩)) exposed dominant
  | whileLoop => exact .whileLoop (hlist fun _ => id)
  | entrance => exact .entrance (hlist fun _ => id)
  | _ => exact .simple rfl

theorem imp (h : Congruent T s t) (hT : ∀ {a b}, T a b → T' a b) : Congruent T' s t := by
  have hlist : ∀ {body body'}, Forall₂ T body body' → Forall₂ T' body body' :=
    fun hbody => hbody.imp fun _ _ => hT
  have hdecl : ∀ {a b}, Suggestion.Related (Forall₂ T) a b →
      Suggestion.Related (Forall₂ T') a b := by
    rintro a b ⟨bodies⟩
    exact .intro (hlist bodies)
  cases h with
  | simple h => exact .simple h
  | assert cond message loc => exact .assert cond message loc
  | branch first second =>
    cases second with
    | none => exact .branch (hlist first) .none
    | some second => exact .branch (hlist first) (.some (hlist second))
  | whileLoop inside => exact .whileLoop (hlist inside)
  | loop before inside =>
    cases before with
    | none => exact .loop .none (hlist inside)
    | some before => exact .loop (.some (hT before)) (hlist inside)
  | suggestion decl => exact .suggestion (hdecl decl)
  | session inside =>
    refine .session (inside.imp ?_)
    intro a b hab
    cases hab with
    | field decl => exact .field decl _ _
    | method decl => exact .method (hdecl decl) _ _
  | entrance inside => exact .entrance (hlist inside)

theorem children (h : Congruent T s t) : Forall₂ T s.children t.children := by
  cases h with
  | simple h =>
    cases s with
    | branch | whileLoop | loop | suggestion | session | assert | entrance => cases h
    | _ => exact .nil
  | assert => exact .nil
  | branch first second =>
    cases second with
    | none => exact rel_append first .nil
    | some second => exact rel_append first second
  | loop before inside =>
    cases before with
    | none => exact inside
    | some before => exact .cons before inside
  | suggestion decl => cases decl with | intro bodies => exact bodies
  | session inside =>
    induction inside with
    | nil => exact .nil
    | cons first _ ih =>
      refine rel_append ?_ ih
      cases first with
      | field => exact .nil
      | method decl => cases decl with | intro bodies => exact bodies
  | whileLoop inside | entrance inside => exact inside

end Stmt.Congruent

end

/-- Whether a statement is nothing but run: it declares nothing, it is no label, no link and no
entrance. -/
def Stmt.isAction : Stmt → Bool
  | .branch .. | .whileLoop .. | .loop .. | .assert .. | .expr .. => true
  | _ => false

/-! ## Files -/

/-- The program in the file at a path, or the message about what is wrong with it. -/
def Store.load (files : Store) (target : String) : Except String Program :=
  match files.read target with
  | .error e => .error e.message
  | .ok source =>
    match Program.ofText (files.key target).origin source with
    | .error e => .error e.message
    | .ok p => .ok p

variable {target : String} {p : Program}

theorem Store.load_of_ofText {files : Store} {source : String}
    (hread : files.read target = .ok source)
    (hparse : Program.ofText (files.key target).origin source = .ok p) :
    files.load target = .ok p := by
  simp only [load, hread, hparse]

theorem Store.load_eq_ok {files : Store} (h : files.load target = .ok p) :
    ∃ source, files.read target = .ok source ∧
    Program.ofText (files.key target).origin source = .ok p := by
  unfold load at h
  cases hread : files.read target with
  | error e => simp [hread] at h
  | ok source =>
    simp only [hread] at h
    cases hparse : Program.ofText (files.key target).origin source with
    | error e => simp [hparse] at h
    | ok q =>
      simp only [hparse, Except.ok.injEq] at h
      exact ⟨source, rfl, h ▸ hparse⟩

theorem Store.load_empty : Store.empty.load target ≠ .ok p := by
  intro h
  obtain ⟨source, hread, -⟩ := load_eq_ok h
  unfold read at hread
  split at hread
  · cases hread
  · split at hread
    · rename_i hnode
      simp [node?, empty] at hnode
    all_goals cases hread

theorem Exec.linkStep_eq (files : Store) (eval : Expr → Exec Value)
    (link : String → Location → Exec Unit) (path : String) (loc : Location) (m : Machine)
    (htarget : Path.join m.baseDir path = target) :
    linkStep files eval link path loc m =
      if files.key target ∈ m.linked then .done () m
      else
        match files.load target with
        | .error message =>
          .failed (.raised (.linkFailure path message) loc)
            { m with linked := files.key target :: m.linked }
        | .ok p =>
          inDirectory (Path.parent target) (p.statements.forM (mergeStmt eval link))
            { m with linked := files.key target :: m.linked } := by
  subst htarget
  unfold Store.load
  simp only [linkStep, Bind.bind, Exec.bind, machine, contains_eq_mem, decide_eq_true_eq]
  split
  · rfl
  cases files.read (Path.join m.baseDir path) with
  | error e => rfl
  | ok source =>
    simp only
    cases Program.ofText (files.key (Path.join m.baseDir path)).origin source <;> rfl

/-- Files at the same paths, with programs whose statements are related by `T`. A file that cannot
be read or is no program is the same. -/
structure Store.Related (T : Stmt → Stmt → Prop) (files files' : Store) : Prop where
  key : ∀ target, files.key target = files'.key target
  load : ∀ target, (∃ message, files.load target = .error message ∧
      files'.load target = .error message) ∨
    ∃ p q : Program, files.load target = .ok p ∧ files'.load target = .ok q ∧
      Forall₂ T p.statements q.statements

theorem Store.related_empty (T : Stmt → Stmt → Prop) : Store.empty.Related T .empty where
  key _ := rfl
  load target := by
    cases hload : Store.empty.load target with
    | error message => exact .inl ⟨message, rfl, rfl⟩
    | ok p => exact absurd hload load_empty

/-- A comparison of two runs whose statements are related by `T`: they are of the same form, or one
takes the place of the other. -/
structure Pairing.Rewrites (P : Pairing) (T replaces : Stmt → Stmt → Prop) : Prop where
  rel_iff : ∀ {a b}, P.matching.rel a b ↔ Suggestion.Related (Forall₂ T) a b
  types : ∀ {decl t}, T (.tranceify decl) t → P.types decl
  errors_eq : P.errors = Eq
  notes : ∀ {cond message loc}, T (.assert cond message loc) (.assert cond message loc) → P.Notes
  step : ∀ {s t}, T s t → Stmt.Congruent T s t ∨ replaces s t
  actions : ∀ {s t}, replaces s t → s.isAction = true ∧ t.isAction = true

/-- What is known where links can be followed: no names are lacked, base directories and linked
files are the same, and the files are related. -/
structure Pairing.FollowsLinks (P : Pairing) (T : Stmt → Stmt → Prop) (files files' : Store) :
    Prop where
  lacks : ∀ symbol, ¬P.lacks symbol
  around : ∀ {dir linked dir' linked'}, P.around dir linked dir' linked' ↔ dir = dir' ∧
      linked = linked'
  files : files.Related T files'

/-! ## Statements that are nothing but run -/

namespace Stmt

variable {s : Stmt}

theorem names_of_isAction (h : s.isAction = true) :
    s.labelName? = none ∧ s.isHoisted = false ∧ s.declaredName? = none ∧ s.entranceBody? = none := by
  cases s with
  | branch | whileLoop | loop | assert | expr => exact ⟨rfl, rfl, rfl, rfl⟩
  | _ => cases h

theorem declare_of_isAction (h : s.isAction = true) (eval : Expr → Exec Value) :
    declare eval s = pure () := by
  cases s with
  | branch | whileLoop | loop | assert | expr => rfl
  | _ => cases h

theorem followLink_of_isAction (h : s.isAction = true) (link : String → Location → Exec Unit) :
    followLink link s = pure () := by
  cases s with
  | branch | whileLoop | loop | assert | expr => rfl
  | _ => cases h

theorem mergeFree_of_isAction (h : s.isAction = true) (eval : Expr → Exec Value)
    (link : String → Location → Exec Unit) : mergeFree eval link s = pure () := by
  cases s with
  | branch | whileLoop | loop | assert | expr => rfl
  | _ => cases h

end Stmt

namespace Stmt.Congruent

variable {T : Stmt → Stmt → Prop} {s t : Stmt}

theorem labelName?_eq (h : Congruent T s t) : s.labelName? = t.labelName? := by
  cases h <;> rfl

theorem isHoisted_eq (h : Congruent T s t) : s.isHoisted = t.isHoisted := by
  cases h <;> rfl

theorem declaredName?_eq (h : Congruent T s t) : s.declaredName? = t.declaredName? := by
  cases h with
  | suggestion decl => cases decl with | intro => rfl
  | _ => rfl

end Stmt.Congruent

/-! ## Runs side by side -/

namespace Rewriting

abbrev Runs (P : Pairing) (T : Stmt → Stmt → Prop) (exec exec' : Stmt → Exec Flow) : Prop :=
  ∀ {s t : Stmt}, T s t → FlowSim P P.Inside .every (exec s) (exec' t)

abbrev Follows (P : Pairing) (T : Stmt → Stmt → Prop) (link link' : String → Location → Exec Unit) :
    Prop :=
  ∀ path loc, T (.mindLink path loc) (.mindLink path loc) →
    Sim P P.Inside Eq (link path loc) (link' path loc)

variable {P : Pairing} {T replaces : Stmt → Stmt → Prop} (hP : P.Rewrites T replaces)
  {eval eval' : Expr → Exec Value} {exec exec' : Stmt → Exec Flow}
  {link link' : String → Location → Exec Unit} {bound bound' : Nat} {s t : Stmt}
    {body body' : List Stmt}

include hP

theorem rejected : Exits.Rejected P .every :=
  ⟨fun _ _ _ _ => hP.errors_eq ▸ rfl, fun _ _ h => h.elim⟩

theorem labelName?_eq (h : T s t) : s.labelName? = t.labelName? := by
  obtain h | h := hP.step h
  · exact h.labelName?_eq
  · obtain ⟨hs, ht⟩ := hP.actions h
    rw [(Stmt.names_of_isAction hs).1, (Stmt.names_of_isAction ht).1]

theorem sequence (hexec : Runs P T exec exec') (hbody : Forall₂ T body body')
    (hb : P.Bounds bound bound') :
    FlowSim P P.Inside .every (Exec.sequence exec body bound body)
      (Exec.sequence exec' body' bound' body') :=
  .sequence (labelName?_eq hP) hbody hexec (Exits.pass_every _) hb hbody

theorem block (hexec : Runs P T exec exec') (hbody : Forall₂ T body body')
    (hb : P.Bounds bound bound') :
    FlowSim P P.Inside .every (block exec bound body) (block exec' bound' body') :=
  .inside (.inBlock (sequence hP hexec hbody hb))

theorem session {name : String} {members members' : List Member} {loc : Location}
    (h : Forall₂ (Member.Related (Forall₂ T)) members members') :
    Session.Alike P.matching ⟨name, members, loc⟩ ⟨name, members', loc⟩ := by
  refine ⟨rfl, h.imp ?_, rfl⟩
  intro a b hab
  cases hab with
  | field decl => exact ⟨.field decl, rfl, rfl⟩
  | method decl => exact ⟨.method (hP.rel_iff.2 decl), rfl, rfl⟩

theorem declare (heval : Evaluators P eval eval') (h : T s t) :
    Sim P P.Inside Eq (declare eval s) (declare eval' t) := by
  obtain hst | hst := hP.step h
  · cases hst with
    | suggestion decl => exact .declareSuggestion (hP.rel_iff.2 decl)
    | session inside => exact .declareSession heval (session hP inside)
    | simple hsimple =>
      cases s with
      | tranceify decl => exact .declareTranceify (hP.types h)
      | suggestion | session => cases hsimple
      | _ => exact .pure rfl
    | _ => exact .pure rfl
  · obtain ⟨hs, ht⟩ := hP.actions hst
    rw [Stmt.declare_of_isAction hs, Stmt.declare_of_isAction ht]
    exact .pure rfl

/-- **One step of statements of the same form.** -/
theorem execStep (hb : P.Bounds bound bound') (heval : Evaluators P eval eval')
    (hexec : Runs P T exec exec')
    (hlink : Follows P T link link') (h : T s t) (hst : Stmt.Congruent T s t) :
    FlowSim P P.Inside .every (execStep bound eval exec link s)
      (execStep bound' eval' exec' link' t) := by
  have hdeclare := declare hP heval h
  cases hst with
  | assert cond message loc => exact .assert heval trivial (hP.notes h) cond message loc
  | branch first second =>
    refine .branch heval trivial _ _ (block hP hexec first hb) ?_
    cases second with
    | none => exact .none
    | some second => exact .some (block hP hexec second hb)
  | whileLoop inside => exact .whileLoop heval _ _ hb (block hP hexec inside hb) (Exits.pass_every _)
  | loop before inside =>
    refine .loop heval _ _ _ ?_ (fun _ h => h) hb (block hP hexec inside hb) (Exits.pass_every _)
    cases before with
    | none => exact .none
    | some before => exact .some (hexec before)
  | suggestion | session => exact .andThen hdeclare trivial
  | entrance inside => exact block hP hexec inside hb
  | simple hsimple =>
    cases s with
    | snap loc => exact .makeJump (.snap loc) trivial loc
    | sink loc => exact .makeJump (.sink loc) trivial loc
    | sinkTo label loc => exact .makeJump (.jump label loc) trivial loc
    | mindLink path loc => exact .andThen (hlink path loc h) trivial
    | tranceify => exact .andThen hdeclare trivial
    | induce | observe | awaken | label | expr =>
      exact .plain heval trivial (fun _ => trivial) (fun _ h => nomatch h) rfl
    | branch | whileLoop | loop | suggestion | session | assert | entrance => cases hsimple

theorem callBody [∀ s, (exec s).Signals] [∀ s, (exec' s).Signals] (limit : Nat)
    (hb : P.Bounds bound bound') (hexec : Runs P T exec exec') :
    Callers P (callBody limit exec bound) (callBody limit exec' bound') := by
  intro a b hab args args' hargs receiver loc
  refine .callBody limit hab ?_ (rejected hP) hargs receiver loc
  cases hP.rel_iff.1 hab with
  | intro bodies => exact sequence hP hexec bodies hb

theorem mergeStmt (hlacks : ∀ symbol, ¬P.lacks symbol) (heval : Evaluators P eval eval')
    (hlink : Follows P T link link') (h : T s t) :
    Sim P P.Inside Eq (mergeStmt eval link s) (mergeStmt eval' link' t) := by
  have hdeclare := declare hP heval h
  obtain hst | hst := hP.step h
  · refine .mergeStmt_of_free hlacks hst.declaredName?_eq ?_
    cases hst with
    | simple =>
      cases s with
      | mindLink path loc => exact hlink path loc h
      | induce decl => exact .induce heval decl
      | _ => exact hdeclare
    | _ => exact hdeclare
  · obtain ⟨hs, ht⟩ := hP.actions hst
    refine .mergeStmt_of_free hlacks ?_ ?_
    · rw [(Stmt.names_of_isAction hs).2.2.1, (Stmt.names_of_isAction ht).2.2.1]
    · rw [Stmt.mergeFree_of_isAction hs, Stmt.mergeFree_of_isAction ht]
      exact .pure rfl

theorem linkStep {files files' : Store}
    (hfiles : (∀ path loc, ¬T (.mindLink path loc) (.mindLink path loc)) ∨
      P.FollowsLinks T files files')
    (heval : Evaluators P eval eval') (hlink : Follows P T link link') :
    Follows P T (linkStep files eval link) (linkStep files' eval' link') := by
  intro path loc h kinds hk m n hm
  obtain hnone | hfiles := hfiles
  · exact absurd h (hnone path loc)
  obtain ⟨hdir, hlinked⟩ := hfiles.around.1 hm.around
  rw [linkStep_eq files eval link path loc m rfl, linkStep_eq files' eval' link' path loc n rfl,
    hdir, hlinked, hfiles.files.key]
  split
  · exact .done rfl hm
  · have hnoted : Machine.Alike P kinds
        { m with baseDir := n.baseDir, linked := files'.key (Path.join n.baseDir path) :: n.linked }
        { n with linked := files'.key (Path.join n.baseDir path) :: n.linked } :=
      { hm with around := hfiles.around.2 ⟨rfl, rfl⟩ }
    obtain ⟨message, hp, hq⟩ | ⟨p, q, hp, hq, hpq⟩ := hfiles.files.load
      (Path.join n.baseDir path) <;> rw [hp, hq]
    · exact .failed (P.errors_self rfl) hnoted
    · exact Simulates.inDirectory hfiles.around _
        (.forM_of_forall₂ hpq fun _ _ h =>
          mergeStmt hP hfiles.lacks heval hlink h) kinds hk _ _ hnoted

theorem mainStmt (hexec : Runs P T exec exec') :
    Runs P T (Exec.mainStmt exec) (Exec.mainStmt exec') := by
  intro s t h
  have hhoisted : s.isHoisted = t.isHoisted := by
    obtain hst | hst := hP.step h
    · exact hst.isHoisted_eq
    · obtain ⟨hs, ht⟩ := hP.actions hst
      rw [(Stmt.names_of_isAction hs).2.1, (Stmt.names_of_isAction ht).2.1]
  unfold Exec.mainStmt
  rw [hhoisted]
  split
  · exact .normal trivial
  · exact hexec h

theorem followLink (hlink : Follows P T link link') (h : T s t) :
    Sim P P.Inside Eq (followLink link s) (followLink link' t) := by
  obtain hst | hst := hP.step h
  · cases hst with
    | simple =>
      cases s with
      | mindLink path loc => exact hlink path loc h
      | _ => exact .pure rfl
    | _ => exact .pure rfl
  · obtain ⟨hs, ht⟩ := hP.actions hst
    rw [Stmt.followLink_of_isAction hs, Stmt.followLink_of_isAction ht]
    exact .pure rfl

theorem entrances (hexec : Runs P T exec exec') (hb : P.Bounds bound bound') (h : T s t) :
    Simulates.Entrances P .every exec exec' bound bound' s t := by
  obtain hst | hst := hP.step h
  · cases hst with
    | simple hsimple =>
      cases s with
      | entrance => cases hsimple
      | _ => exact .none
    | entrance inside => exact .some (block hP hexec inside hb)
    | _ => exact .none
  · obtain ⟨hs, ht⟩ := hP.actions hst
    rw [Simulates.Entrances, (Stmt.names_of_isAction hs).2.2.2, (Stmt.names_of_isAction ht).2.2.2]
    exact .none

variable {cfg cfg' : Settings}
  (hfiles : (∀ path loc, ¬T (.mindLink path loc) (.mindLink path loc)) ∨
    P.FollowsLinks T cfg.files cfg'.files)
  (hdepth : cfg.maxDepth = cfg'.maxDepth)
  (hreplaces : ∀ {n n' s t}, P.Bounds n n' → Evaluators P (Exec.eval cfg n) (Exec.eval cfg' n') →
    Runs P T (Exec.exec cfg n) (Exec.exec cfg' n') → replaces s t →
    FlowSim P P.Inside .every (Exec.exec cfg (n + 1) s) (Exec.exec cfg' (n' + 1) t))
include hfiles hdepth hreplaces

/-- **Related statements run alike**, if those that take the place of others do. -/
theorem run (hb : P.Bounds bound bound') : Evaluators P (Exec.eval cfg bound)
    (Exec.eval cfg' bound') ∧ Callers P (Exec.call cfg bound) (Exec.call cfg' bound') ∧
    Runs P T (Exec.exec cfg bound) (Exec.exec cfg' bound') ∧
    Follows P T (Exec.link cfg bound) (Exec.link cfg' bound') := by
  induction bound generalizing bound' with
  | zero =>
    obtain ⟨hcuts, rfl⟩ | hlags := hb.zero
    · exact ⟨fun _ => .exhausted hcuts, fun _ _ _ _ _ _ => .exhausted hcuts, fun _ =>
        .exhausted hcuts,
        fun _ _ _ => .exhausted hcuts⟩
    · exact ⟨fun _ => .lagging hlags, fun _ _ _ _ _ _ => .lagging hlags, fun _ => .lagging hlags,
        fun _ _ _ => .lagging hlags⟩
  | succ bound ih =>
    obtain ⟨bound', rfl, hless⟩ := hb.succ
    obtain ⟨heval, hcall, hexec, hlink⟩ := ih hless
    refine ⟨?_, ?_, fun h => ?_, linkStep hP hfiles heval hlink⟩
    · show Evaluators P (Exec.evalStep cfg.maxDepth _ _) (Exec.evalStep cfg'.maxDepth _ _)
      rw [hdepth]
      exact .evalStep cfg'.maxDepth heval hcall
    · show Callers P (Exec.callBody cfg.maxDepth _ _) (Exec.callBody cfg'.maxDepth _ _)
      rw [hdepth]
      exact callBody hP cfg'.maxDepth hless hexec
    · obtain hst | hst := hP.step h
      · exact execStep hP hless heval hexec hlink h hst
      · exact hreplaces hless heval hexec hst

/-- **Related programs run alike.** -/
theorem program (hb : P.Bounds bound bound') {p q : Program}
    (h : Forall₂ T p.statements q.statements) :
    Sim P P.Inside Eq (program cfg bound p) (program cfg' bound' q) := by
  obtain ⟨heval, -, hexec, hlink⟩ := run hP hfiles hdepth hreplaces hb
  refine .bind (.forM_of_forall₂ h fun _ _ hst => declare hP heval hst) fun _ _ _ => ?_
  refine .bind (.forM_of_forall₂ h fun _ _ hst => followLink hP hlink hst) fun _ _ _ => ?_
  exact .blocks (rejected hP) (h.imp fun _ _ hst => entrances hP hexec hb hst)
    (sequence hP (mainStmt hP hexec) h hb)

end Rewriting

end Trance
