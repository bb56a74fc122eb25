import Trance.Proofs.Checking.Declarations
import Trance.Proofs.Jumps.Site

/-!
# What the check of a program is made of

Statements are checked in the steps of their parts, in frames and contexts of their own. Where the
tree says that a jump is stray the check reports this, and it reports nothing else about jumps. Once
names are declared and links followed, the rest of a program is checked in three rounds over its
statements. -/

namespace Trance

open List Site

def Context.reach (context : Context) : Reach := ⟨context.loops, context.labels⟩

def Site.findings (sites : List Site) : List (Code × Location) := sites.filterMap finding?

@[simp] theorem Site.findings_append (sites sites' : List Site) :
    findings (sites ++ sites') = findings sites ++ findings sites' :=
  filterMap_append

theorem Site.findings_singleton {reach : Reach} {stmt : Stmt} {flow : Flow} {e : RuntimeError}
    {finding : Code × Location} (hflow : stmt.flow? = some flow) (herror : flow.error? = some e)
    (hfinding : e.finding? = some finding) :
    findings [⟨reach, stmt⟩] = if !reach.takes flow then [finding] else [] := by
  cases htakes : reach.takes flow <;>
    simp [findings, finding?, hflow, herror, hfinding, htakes]

def Stmt.binds? : Stmt → Option Symbol.Kind
  | .induce _ => some .variable
  | .suggestion _ => some .suggestion
  | .session _ => some .session
  | .tranceify _ => some .record
  | .label .. => some .label
  | _ => none

/-! ## Loops -/

/-- What a loop repeats: while a condition holds, a body and then a step. The check calls the loop
by a word. -/
structure Loop where
  word : String
  cond : Option Expr
  step : Option Expr
  body : List Stmt
deriving Inhabited

namespace Loop

def checkCond (loop : Loop) : Check Unit :=
  match loop.cond with
  | some cond => Check.condition cond loop.word
  | none => pure ()

def checkStep (loop : Loop) : Check Unit :=
  match loop.step with
  | some step => do let _ ← Check.infer step
  | none => pure ()

def check (link : Follower) (loop : Loop) : Check Unit := do
  loop.checkCond
  loop.checkStep
  Check.inLoop (Check.block link loop.body)

def calls (loop : Loop) (bodyCalls : Checker → List Call) (c : Checker) : List Call :=
  Check.callsOf loop.cond c ++ (Check.callsOf loop.step (c.after loop.checkCond) ++
    bodyCalls (((c.after loop.checkCond).after loop.checkStep).inLoop.enter.withLabels
      (Check.labelsOf loop.body)))

end Loop

namespace Check

section

variable (link : Follower) (cond step : Option Expr) (body : List Stmt) (loc :
  Location)

theorem stmt_loop : stmt link (.loop none cond step body loc) =
    inFrame .block (Loop.check link ⟨"loop", cond, step, body⟩) := by
  cases cond <;> cases step <;> rfl

theorem stmt_loopStart (init : Stmt) : stmt link (.loop (some init) cond step body loc) =
    inFrame .block (do stmt link init; Loop.check link ⟨"loop", cond, step, body⟩) := by
  cases cond <;> cases step <;> rfl

end

/-! ## Inferences -/

section

variable (link : Follower)

mutual

/-- The calls that the check of a statement makes, in order. Each is made in the state that what
comes before it has left. -/
def stmtCalls (s : Stmt) (c : Checker) : List Call :=
  match s with
  | .induce decl => induceCalls decl c
  | .branch cond yes no _ =>
    calls cond c ++
      (stmtsCalls yes ((c.after (condition cond "if")).enter.withLabels (labelsOf yes)) ++
      match no with
      | some no =>
        stmtsCalls no (((c.after (condition cond "if")).after
          (inBlock yes (stmts link yes))).enter.withLabels (labelsOf no))
      | none => [])
  | .whileLoop cond body _ => Loop.calls ⟨"while", some cond, none, body⟩ (stmtsCalls body) c
  | .loop none cond step body _ => Loop.calls ⟨"loop", cond, step, body⟩ (stmtsCalls body) c.enter
  | .loop (some init) cond step body _ =>
    stmtCalls init c.enter ++ Loop.calls ⟨"loop", cond, step, body⟩ (stmtsCalls body)
      (c.enter.after (stmt link init))
  | .suggestion decl => suggestionCalls none decl (c.after (declareSuggestion decl))
  | .session decl => sessionCalls decl ((c.after (declareSession decl)).after (collectMembers decl))
  | .tranceify decl =>
    callsFor (fieldStart decl.name) fieldCalls decl.members
      ((c.after (declareTranceify decl)).after (collectFields decl))
  | .observe e _ | .expr e _ | .assert e _ _ => calls e c
  | .awaken value _ => callsOf value c
  | .entrance body _ => stmtsCalls body (c.enter.withLabels (labelsOf body))
  | .snap _ | .sink _ | .sinkTo .. | .label .. | .mindLink .. => []

def stmtsCalls (body : List Stmt) (c : Checker) : List Call :=
  match body with
  | [] => []
  | first :: rest => stmtCalls first c ++ stmtsCalls rest (c.after (stmt link first))

def suggestionCalls (owner : Option String) (decl : Suggestion) (c : Checker) : List Call :=
  match decl with
  | ⟨_, _, _, body, _, _, _, _⟩ =>
    stmtsCalls body ((bodyStart owner decl c).withLabels (labelsOf body))

def sessionCalls (decl : Session) (c : Checker) : List Call :=
  match decl with
  | ⟨name, all, _⟩ => membersCalls name all c

def membersCalls (owner : String) (all : List Member) (c : Checker) : List Call :=
  match all with
  | [] => []
  | first :: rest => memberCalls owner first c ++
    membersCalls owner rest (c.after (member link owner first))

def memberCalls (owner : String) (member : Member) (c : Checker) : List Call :=
  match member with
  | ⟨decl, _, _⟩ => memberDeclCalls owner decl c

def memberDeclCalls (owner : String) (decl : MemberDecl) (c : Checker) : List Call :=
  match decl with
  | .field field => fieldCalls field c
  | .method decl => suggestionCalls (some owner) decl c

end

end

end Check

/-! ## Jumps -/

namespace Terms

open Check

variable {T : Terms} {p : Prop} {k : Nat}

theorem made_insideLoop {word : String} {loc : Location} {stmt : Stmt} {flow : Flow}
    (hflow : stmt.flow? = some flow)
    (herror : flow.error? = some (.raised (.jumpOutsideLoop word) loc))
    (htakes : ∀ reach : Reach, reach.takes flow = decide (reach.loops ≠ 0)) :
    T.Made p k (fun _ => True) (insideLoop word loc) (insideLoop word loc)
      (fun context => findings [⟨context.reach, stmt⟩]) fun _ => [] := by
  have hjumps (context : Context) : findings [⟨context.reach, stmt⟩] =
      if decide (context.loops = 0) then [(Code.jumpOutsideLoop, loc)] else [] := by
    rw [findings_singleton hflow herror rfl, htakes, Context.reach]
    by_cases hloops : context.loops = 0 <;> simp [hloops]
  rw [funext hjumps]
  exact .jump (fun context => decide (context.loops = 0)) rfl loc

theorem made_jump (label : String) (loc : Location) :
    T.Made p k (fun _ => True) (jump label loc) (jump label loc)
      (fun context => findings [⟨context.reach, .sinkTo label loc⟩]) fun _ => [] := by
  have hjumps (context : Context) : findings [⟨context.reach, .sinkTo label loc⟩] =
      if !context.labels.any (·.contains label) then [(Code.unknownLabel, loc)] else [] :=
    findings_singleton (show (Stmt.sinkTo label loc).flow? = some (.jump label loc) from rfl) rfl rfl
  rw [funext hjumps]
  exact .jump (fun context => !context.labels.any (·.contains label)) rfl loc

/-! ## Statements -/

/-- Links among some sites are followed only if there may be links. -/
def Follows (T : Terms) (sites : List Site) : Prop :=
  ∀ site ∈ sites, site.stmt.isLink = true → T.links

theorem Follows.append {sites sites' : List Site} (h : T.Follows (sites ++ sites')) :
    T.Follows sites ∧ T.Follows sites' :=
  forall_mem_append.1 h

theorem Follows.of_linkFree {sites : List Site} (h : LinkFree sites) : T.Follows sites := by
  intro site hsite hlink
  rw [h site hsite] at hlink
  cases hlink

theorem plain_condition (cond : Expr) (word : String) :
    T.Plain p k (fun _ => cond.Every T.Builds) (condition cond word) (calls cond) :=
  .before (plain_infer cond) fun _ => (Made.reportIf _ rfl _).mono fun _ hp _ => hp.2.2

theorem looks_awakenValue (enclosing : Enclosing) (actual : Option Ty) (loc : Location) :
    T.Goes p k (awakenValue enclosing actual loc) := by
  unfold awakenValue
  cases actual with
  | some actual =>
    exact .ite (fun _ => .tell rfl loc) fun _ => .ite (fun _ => .tell rfl loc) fun _ =>
      .reportIf _ rfl loc
  | none =>
    cases enclosing.returnType with
    | void | any | unknown => exact .skip ()
    | _ => exact .tell rfl loc

theorem looks_awakenHere (actual : Option Ty) (loc : Location) : T.Goes p k (do
    match (← get).context.enclosing with
    | some enclosing => awakenValue enclosing actual loc
    | none => pure ()) := by
  refine .lookAt (fun h => by simp only [h.context]) fun c => ?_
  cases c.context.enclosing with
  | none => exact .skip ()
  | some enclosing => exact looks_awakenValue enclosing actual loc

theorem plain_awaken (value : Option Expr) (loc : Location) :
    T.Plain p k (fun _ => ∀ e ∈ value.toList, e.Every T.Builds) (awaken value loc)
      (callsOf value) := by
  unfold awaken
  cases value with
  | some value =>
    exact .before (plain_infer value) fun _ => .before (.skip _) fun actual =>
      (looks_awakenHere actual loc).mono fun _ hp _ => forall_mem_singleton.2 hp.1.2.2
  | none =>
    exact .before (.skip _) fun actual => (looks_awakenHere actual loc).mono fun _ _ _ => nofun

abbrev MadeList (T : Terms) (p : Prop) (k : Nat) (body : List Stmt) : Prop :=
  T.Made p (k + 1) (fun _ => ∀ part ∈ listParts body, T.Checked part) (stmts T.link body)
    (stmts T.link' body)
    (fun context => findings (listSites context.reach body)) (stmtsCalls T.link body)

theorem made_block {body : List Stmt} (h : T.MadeList p k body) :
    T.Made p k (fun _ => ∀ part ∈ listParts body, T.Checked part) (inBlock body (stmts T.link body))
      (inBlock body (stmts T.link' body))
      (fun context => findings (listSites (context.reach.within body) body))
      fun c => stmtsCalls T.link body (c.enter.withLabels (labelsOf body)) :=
  .inFrame .block (.inContext (fun _ => rfl) h)

theorem made_loop (loop : Loop) (h : ∀ {p : Prop}, T.MadeList p k loop.body) :
    T.Made p k (fun _ => (∀ e ∈ loop.cond.toList ++ loop.step.toList, e.Every T.Builds) ∧
        ∀ part ∈ listParts loop.body, T.Checked part)
      (loop.check T.link) (loop.check T.link')
      (fun context => findings (listSites (context.reach.inLoop.within loop.body) loop.body))
      (loop.calls (stmtsCalls T.link loop.body)) := by
  have hcond : T.Plain p k (fun _ => ∀ e ∈ loop.cond.toList, e.Every T.Builds) loop.checkCond
      (callsOf loop.cond) := by
    unfold Loop.checkCond
    cases loop.cond with
    | some cond => exact (plain_condition cond loop.word).mono fun _ _ => forall_mem_singleton.2
    | none => exact .pure () fun _ => nofun
  have hstep {p : Prop} : T.Plain p k (fun _ => ∀ e ∈ loop.step.toList,
    e.Every T.Builds) loop.checkStep (callsOf loop.step) := by
    unfold Loop.checkStep
    cases loop.step with
    | some step =>
      exact .before (plain_infer step) fun _ => .pure () fun hp => forall_mem_singleton.2 hp.2.2
    | none => exact .pure () fun _ => nofun
  have hbody {p : Prop} : T.Made p k _ (inLoop _) (inLoop _) _ _ :=
    .inContext (fun _ => rfl) (made_block h)
  exact .andThen hcond fun _ => .andThen hstep fun _ => hbody.mono fun _ hp h =>
    ⟨forall_mem_append.2 ⟨hp.1.2, hp.2⟩, h⟩

/-- What is known about a member of a session once it has been checked. -/
def CheckedMember (T : Terms) (member : Member) : Prop :=
  (∀ e ∈ member.exprs, e.Every T.Builds) ∧ ∀ decl ∈ member.suggestions, T.Signs decl

theorem checked_session {decl : Session} (h : ∀ member ∈ decl.members, T.CheckedMember member) :
    T.Checked (.session decl) := by
  constructor
  · intro e he
    obtain ⟨member, hmember, he⟩ := mem_flatMap.1 he
    exact (h member hmember).1 e he
  · intro method hmethod
    obtain ⟨member, hmember, hmethod⟩ := mem_flatMap.1 hmethod
    exact (h member hmember).2 method hmethod

mutual

/-- **The check of a statement, with the findings of its sites.** -/
theorem made_stmt : ∀ (s : Stmt) {reach : Reach} {p : Prop} {k : Nat}, T.Follows (s.sites reach) →
    s.Every T.Admits → (k = 0 → ∀ kind ∈ s.binds?, T.opens kind) →
    T.Made p k (fun _ => s.Every T.Checked) (stmt T.link s) (stmt T.link' s)
      (fun context => Site.findings (s.sites context.reach)) (stmtCalls T.link s)
  | .induce decl, _, _, _, _, h, hk =>
    (plain_induce (fun h0 => hk h0 _ rfl) h.1).mono fun _ _ h => ⟨⟨h, nofun⟩, nofun⟩
  | .branch cond yes none loc, _, _, k, hl, h, _ => by
    have hyes {p : Prop} := made_stmts yes (p := p) (k := k) hl.append.1 (forall_mem_append.1 h.2).1
    simp only [Stmt.sites, findings_append]
    exact .andThen (plain_condition cond "if") fun _ => .bind (made_block hyes) fun _ =>
      .pure () fun hp => ⟨⟨forall_mem_singleton.2 hp.1.2, nofun⟩, forall_mem_append.2 ⟨hp.2, nofun⟩⟩
  | .branch cond yes (some no) loc, _, _, k, hl, h, _ => by
    have hyes {p : Prop} := made_stmts yes (p := p) (k := k) hl.append.1 (forall_mem_append.1 h.2).1
    have hno {p : Prop} := made_stmts no (p := p) (k := k) hl.append.2 (forall_mem_append.1 h.2).2
    simp only [Stmt.sites, findings_append]
    exact .andThen (plain_condition cond "if") fun _ => .bind (made_block hyes) fun _ =>
      (made_block hno).mono
      fun _ hp hno => ⟨⟨forall_mem_singleton.2 hp.1.2, nofun⟩, forall_mem_append.2 ⟨hp.2, hno⟩⟩
  | .whileLoop cond body loc, _, _, _, hl, h, _ =>
    (made_loop ⟨"while", some cond, none, body⟩ (made_stmts body hl h.2)).mono fun _ _ h =>
      ⟨⟨h.1, nofun⟩, h.2⟩
  | .loop none cond step body loc, _, _, k, hl, h, _ => by
    have hbody {p : Prop} := made_stmts body (p := p) (k := k + 1) hl h.2
    rw [stmt_loop, stmt_loop]
    exact (Made.inFrame .block (made_loop ⟨"loop", cond, step, body⟩ hbody)).mono fun _ _ h =>
      ⟨⟨h.1, nofun⟩, h.2⟩
  | .loop (some init) cond step body loc, _, p, k, hl, h, _ => by
    obtain ⟨hinit, hbody⟩ := forall_mem_append.1 h.2
    have hinit := made_stmt init (p := p) (k := k + 1) hl.append.1 (forall_mem_cons.1 hinit) nofun
    have hbody {p : Prop} := made_loop (p := p) ⟨"loop", cond, step, body⟩
      (made_stmts body (k := k + 1) hl.append.2 hbody)
    rw [stmt_loopStart, stmt_loopStart]
    simp only [Stmt.sites, findings_append]
    exact .inFrame .block (.bind hinit fun _ => hbody.mono fun _ hp h =>
      ⟨⟨h.1, nofun⟩, forall_mem_append.2 ⟨forall_mem_cons.2 hp.2, h.2⟩⟩)
  | .suggestion decl, _, _, _, hl, h, hk =>
    .after (looks_declareSuggestion (fun h0 => hk h0 _ rfl) h.1) fun _ =>
      (made_suggestion none decl hl h.1 nofun h.2).mono fun _ _ h =>
        ⟨⟨nofun, forall_mem_singleton.2 h.1⟩, h.2⟩
  | .session decl, _, _, _, hl, h, hk =>
    .after (looks_declareSession (fun h0 => hk h0 _ rfl) h.1.1) fun _ =>
      .after (looks_collectMembers h.1.1.1 h.1.2) fun _ => made_session decl hl h
  | .tranceify decl, _, _, _, _, h, hk =>
    .after (looks_declareTranceify (fun h0 => hk h0 _ rfl) h.1.1) fun _ =>
      .after (looks_collectFields h.1.1.1 h.1.2) fun _ => (plain_fieldStarts decl).mono fun _ _ h =>
        ⟨h, nofun⟩
  | .observe e _, _, _, _, _, _, _ | .expr e _, _, _, _, _, _, _ =>
    .before (plain_infer e) fun _ => .pure () fun hp =>
      ⟨⟨forall_mem_singleton.2 hp.2.2, nofun⟩, nofun⟩
  | .awaken value loc, _, _, _, _, _, _ => (plain_awaken value loc).mono fun _ _ h =>
    ⟨⟨h, nofun⟩, nofun⟩
  | .snap loc, _, _, _, _, _, _ => (made_insideLoop rfl rfl fun _ => rfl).mono fun _ _ _ =>
    ⟨⟨nofun, nofun⟩, nofun⟩
  | .sink loc, _, _, _, _, _, _ => (made_insideLoop rfl rfl fun _ => rfl).mono fun _ _ _ =>
    ⟨⟨nofun, nofun⟩, nofun⟩
  | .sinkTo label loc, _, _, _, _, _, _ => (made_jump label loc).mono fun _ _ _ =>
    ⟨⟨nofun, nofun⟩, nofun⟩
  | .label name loc, _, _, _, _, _, hk =>
    have hfits : T.Fits { name, kind := .label } := ⟨nofun, nofun, nofun, nofun⟩
    (looks_defineOr (fun h0 => hk h0 _ rfl) (fun _ => hfits) rfl loc).mono fun _ _ _ =>
      ⟨⟨nofun, nofun⟩, nofun⟩
  | .assert cond _ _, _, _, _, _, _, _ =>
    (plain_condition cond "assert").mono fun _ _ h => ⟨⟨forall_mem_singleton.2 h, nofun⟩, nofun⟩
  | .entrance body loc, _, _, _, hl, h, _ =>
    (made_block (made_stmts body hl h.2)).mono fun _ _ h => ⟨⟨nofun, nofun⟩, h⟩
  | .mindLink path loc, _, _, _, hl, _, _ =>
    (Made.link (hl _ mem_cons_self rfl) path loc).mono fun _ _ _ => ⟨⟨nofun, nofun⟩, nofun⟩

theorem made_stmts : ∀ (body : List Stmt) {reach : Reach} {p : Prop} {k : Nat}, T.Follows
    (listSites reach body) → (∀ part ∈ listParts body, T.Admits part) → T.MadeList p k body
  | [], _, _, _, _, _ => .pure () fun _ => nofun
  | first :: rest, _, p, k, hl, h => by
    obtain ⟨hfirst, hrest⟩ :=
      forall_mem_append.1 (show ∀ part ∈ (first :: first.inner) ++ listParts rest, _ from h)
    have hfirst := made_stmt first (p := p) (k := k + 1) hl.append.1 (forall_mem_cons.1 hfirst) nofun
    have hrest {p : Prop} := made_stmts rest (p := p) (k := k) hl.append.2 hrest
    simp only [MadeList, listSites, findings_append]
    exact .bind hfirst fun _ => hrest.mono fun _ hp hrest =>
      forall_mem_cons.2 ⟨hp.2.1, forall_mem_append.2 ⟨hp.2.2, hrest⟩⟩

theorem made_suggestion (owner : Option String) : ∀ (decl : Suggestion) {p : Prop} {k : Nat},
    T.Follows (suggestionSites decl) → T.Declares decl → (∀ session ∈ owner, T.writes session) →
    (∀ part ∈ suggestionParts decl, T.Admits part) →
    T.Made p k (fun _ => T.Signs decl ∧ ∀ part ∈ suggestionParts decl, T.Checked part)
      (suggestion T.link owner decl)
      (suggestion T.link' owner decl) (fun _ => findings (suggestionSites decl))
    (suggestionCalls T.link owner decl)
  | ⟨_, _, _, body, _, _, _, _⟩, _, _, hl, hdecl, howner, h =>
    made_inSuggestion hdecl howner (.inContext (fun _ => rfl) (made_stmts body hl h)) fun _ => rfl

theorem made_session : ∀ (decl : Session) {p : Prop} {k : Nat}, T.Follows (sessionSites decl) →
    (Stmt.session decl).Every T.Admits →
    T.Made p k (fun _ => (Stmt.session decl).Every T.Checked) (session T.link decl)
      (session T.link' decl) (fun _ => findings (sessionSites decl)) (sessionCalls T.link decl)
  | ⟨name, all, _⟩, _, _, hl, h =>
    (made_members name all hl h.1.1.2 h.1.2 h.2).mono fun _ _ h => ⟨checked_session h.1, h.2⟩

theorem made_members (owner : String) :
    ∀ (all : List Member) {p : Prop} {k : Nat}, T.Follows (membersSites all) →
    T.writes owner → (∀ member ∈ all, T.AdmitsMember member) →
    (∀ part ∈ membersParts all, T.Admits part) →
    T.Made p k (fun _ => (∀ member ∈ all, T.CheckedMember member) ∧
      ∀ part ∈ membersParts all, T.Checked part)
      (members T.link owner all) (members T.link' owner all)
      (fun _ => findings (membersSites all)) (membersCalls T.link owner all)
  | [], _, _, _, _, _, _ => .pure () fun _ => ⟨nofun, nofun⟩
  | first :: rest, p, k, hl, howner, hall, h => by
    obtain ⟨hfirst, hrest⟩ := forall_mem_append.1 h
    obtain ⟨hentry, hall⟩ := forall_mem_cons.1 hall
    have hfirst := made_member owner first (p := p) (k := k) hl.append.1 howner hentry hfirst
    have hrest {p : Prop} := made_members owner rest (p := p) (k := k) hl.append.2 howner hall hrest
    simp only [membersSites, findings_append]
    exact .bind hfirst fun _ => hrest.mono fun _ hp hrest =>
      ⟨forall_mem_cons.2 ⟨hp.2.1, hrest.1⟩, forall_mem_append.2 ⟨hp.2.2, hrest.2⟩⟩

theorem made_member (owner : String) :
    ∀ (entry : Member) {p : Prop} {k : Nat}, T.Follows (memberSites entry) →
    T.writes owner → T.AdmitsMember entry → (∀ part ∈ memberParts entry, T.Admits part) →
    T.Made p k (fun _ => T.CheckedMember entry ∧ ∀ part ∈ memberParts entry, T.Checked part)
      (member T.link owner entry) (member T.link' owner entry)
      (fun _ => findings (memberSites entry)) (memberCalls T.link owner entry)
  | ⟨decl, _, _⟩, _, _, hl, howner, hmember, h => made_memberDecl owner decl hl howner hmember h

theorem made_memberDecl (owner : String) :
    ∀ (decl : MemberDecl) {exposed dominant : Bool} {p : Prop} {k : Nat},
    T.Follows (memberDeclSites decl) → T.writes owner → T.AdmitsMember ⟨decl, exposed, dominant⟩ →
    (∀ part ∈ memberDeclParts decl, T.Admits part) →
    T.Made p k (fun _ => T.CheckedMember ⟨decl, exposed, dominant⟩ ∧
      ∀ part ∈ memberDeclParts decl, T.Checked part)
      (memberDecl T.link owner decl) (memberDecl T.link' owner decl)
      (fun _ => findings (memberDeclSites decl)) (memberDeclCalls T.link owner decl)
  | .field field, _, _, _, _, _, _, _, _ => (plain_fieldStart owner field).mono fun _ _ h =>
    ⟨⟨h, nofun⟩, nofun⟩
  | .method decl, _, _, _, _, hl, howner, hdecl, h =>
    (made_suggestion (some owner) decl hl hdecl (by rintro _ ⟨⟩; exact howner) h).mono fun _ _ h =>
      ⟨⟨nofun, forall_mem_singleton.2 h.1⟩, h.2⟩

end

end Terms

/-! ## Programs -/

namespace Check

/-- Declare the types and the suggestions of the top level, which can be used before they are
declared. -/
def names (p : Program) : Check Unit := do
  p.statements.forM declareTypeName
  p.statements.forM declareSuggestionName

/-- Check a statement of the main list, and do nothing about declarations. -/
def mainEffect (link : Follower) : Stmt → Check Unit
  | .entrance .. | .mindLink .. | .suggestion _ | .session _ | .tranceify _ => pure ()
  | other => stmt link other

/-- Check the body of a declaration. -/
def declarationBody (link : Follower) : Stmt → Check Unit
  | .suggestion decl => suggestion link none decl
  | .session decl => session link decl
  | .tranceify decl => fieldStarts decl
  | _ => pure ()

/-- Check a program once its names are declared and its links followed. -/
def bodies (link : Follower) (p : Program) : Check Unit := do
  p.statements.forM collectType
  p.statements.forM (entrance link)
  withLabels (labelsOf p.statements) (p.statements.forM (mainEffect link))
  p.statements.forM (declarationBody link)

def entranceSites (reach : Reach) : Stmt → List Site
  | .entrance body _ => listSites (reach.within body) body
  | _ => []

def mainSites (reach : Reach) : Stmt → List Site
  | .entrance .. | .mindLink .. | .suggestion _ | .session _ | .tranceify _ => []
  | other => other.sites reach

def bodySites : Stmt → List Site
  | .suggestion decl => suggestionSites decl
  | .session decl => sessionSites decl
  | _ => []

theorem topSites_eq (reach : Reach) (s : Stmt) :
    s.topSites reach = entranceSites .fresh s ++ mainSites reach s ++ bodySites s := by
  cases s with
  | entrance | mindLink | suggestion | session | tranceify =>
    simp [Stmt.topSites, entranceSites, mainSites, bodySites, Stmt.sites]
  | _ => exact (append_nil _).symm

section

variable (link : Follower)

def entranceCalls (s : Stmt) (c : Checker) : List Call :=
  match s with
  | .entrance .. => stmtCalls link s c
  | _ => []

def mainCalls (s : Stmt) (c : Checker) : List Call := if s.isHoisted then [] else stmtCalls link s c

def bodyCalls (s : Stmt) (c : Checker) : List Call :=
  match s with
  | .suggestion decl => suggestionCalls link none decl c
  | .session decl => sessionCalls link decl c
  | .tranceify decl => callsFor (fieldStart decl.name) fieldCalls decl.members c
  | _ => []

/-- The inferences for a program once its names are declared and its links followed. -/
def bodiesCalls (p : Program) (c : Checker) : List Call :=
  let collected := c.after (p.statements.forM collectType)
  let entered := collected.after (p.statements.forM (entrance link))
  let run := entered.after (withLabels (labelsOf p.statements) (p.statements.forM (mainEffect link)))
  callsFor (entrance link) (entranceCalls link) p.statements collected ++
    (callsFor (mainEffect link) (mainCalls link) p.statements
      (entered.withLabels (labelsOf p.statements)) ++
      callsFor (declarationBody link) (bodyCalls link) p.statements run)

/-- All calls that the check of a program makes, apart from those in the files that it links, if
nothing has been put off before. -/
def programCalls (p : Program) (c : Checker) : List Call :=
  bodiesCalls link p ((c.after (names p)).after (p.statements.forM (followLink link)))

end

end Check

namespace Terms

open Check

variable {T : Terms} {p : Prop} {k : Nat}

theorem looks_names {p : Program} (hopens : k = 0 → ∀ kind, T.opens kind)
    (h : ∀ s ∈ p.statements, T.Admits s) {q : Prop} : T.Goes q k (names p) := by
  refine .before (.forM (P := fun _ => True) fun s hs _ => ?_) fun _ =>
    (Made.forM (P := fun _ => True) fun s hs _ => ?_).goes
  · cases s with
    | session decl => exact looks_declareSession (fun h0 => hopens h0 _) (h _ hs).1
    | tranceify decl => exact looks_declareTranceify (fun h0 => hopens h0 _) (h _ hs).1
    | _ => exact .skip ()
  · cases s with
    | suggestion decl => exact looks_declareSuggestion (fun h0 => hopens h0 _) (h _ hs)
    | _ => exact .skip ()

variable {s : Stmt}

theorem looks_collectType (h : T.Admits s) : T.Goes p k (collectType s) := by
  cases s with
  | session decl => exact looks_collectMembers h.1.1 h.2
  | tranceify decl => exact looks_collectFields h.1.1 h.2
  | _ => exact .skip ()

theorem made_entrance {reach : Reach} (hl : T.Follows (entranceSites reach s))
    (h : s.Every T.Admits) :
    T.Made p k (fun _ => (∃ body loc, s = .entrance body loc) → s.Every T.Checked)
      (entrance T.link s)
      (entrance T.link' s) (fun context => findings (entranceSites context.reach s))
      (entranceCalls T.link s) := by
  cases s with
  | entrance body loc =>
    exact (made_stmt (.entrance body loc) (k := k) hl h fun _ => nofun).mono fun _ _ h _ => h
  | _ => exact .pure () fun _ => nofun

theorem made_mainEffect {reach : Reach} (hl : T.Follows (mainSites reach s)) (h : s.Every T.Admits)
    (hopens : k = 0 → s.isHoisted = false → ∀ kind ∈ s.binds?, T.opens kind) :
    T.Made p k (fun _ => s.isHoisted = false → s.Every T.Checked) (mainEffect T.link s)
      (mainEffect T.link' s)
      (fun context => findings (mainSites context.reach s)) (mainCalls T.link s) := by
  cases s with
  | entrance | mindLink | suggestion | session | tranceify => exact .pure () fun _ => nofun
  | _ =>
    exact (made_stmt _ (show T.Follows (Stmt.sites reach _) from hl) h fun h0 =>
      hopens h0 rfl).mono fun _ _ h _ => h

theorem made_declarationBody (hl : T.Follows (bodySites s)) (h : s.Every T.Admits) :
    T.Made p k (fun _ => s.isHoisted = true → (∃ body loc, s = .entrance body loc) ∨
      s.Every T.Checked)
      (declarationBody T.link s) (declarationBody T.link' s) (fun _ => findings (bodySites s))
      (bodyCalls T.link s) := by
  cases s with
  | suggestion decl =>
    exact (made_suggestion none decl hl h.1 nofun h.2).mono fun _ _ h _ =>
      .inr ⟨⟨nofun, forall_mem_singleton.2 h.1⟩, h.2⟩
  | session decl => exact (made_session decl hl h).mono fun _ _ h _ => .inr h
  | tranceify decl => exact (plain_fieldStarts decl).mono fun _ _ h _ => .inr ⟨h, nofun⟩
  | entrance body loc => exact .pure () fun _ _ => .inl ⟨body, loc, rfl⟩
  | mindLink => exact .pure () fun _ _ => .inr ⟨⟨nofun, nofun⟩, nofun⟩
  | _ => exact .pure () fun _ => nofun

/-- **The check of a program once its names are declared and its links followed.** -/
theorem made_bodies {p : Program} (hopens : k = 0 → ∀ kind, T.opens kind) (hl : T.Follows p.sites)
    (h : ∀ s ∈ p.statements, s.Every T.Admits) {q : Prop} :
    T.Made q k (fun _ => ∀ s ∈ p.statements, s.Every T.Checked) (bodies T.link p) (bodies T.link' p)
      (fun context =>
        p.statements.flatMap (fun s => findings (entranceSites context.reach s)) ++
          (p.statements.flatMap (fun s =>
            findings (mainSites (context.reach.within p.statements) s)) ++
          p.statements.flatMap fun s => findings (bodySites s)))
      (bodiesCalls T.link p) := by
  have htop : ∀ s ∈ p.statements, T.Follows (s.topSites (Reach.fresh.within p.statements)) :=
    fun s hs site hsite => hl site (mem_flatMap.2 ⟨s, hs, hsite⟩)
  simp only [topSites_eq] at htop
  have hentrances {q : Prop} :
      T.Made q k _ (p.statements.forM (entrance T.link)) (p.statements.forM (entrance T.link'))
      _ _ := .forAll fun s hs _ => made_entrance (htop s hs).append.1.append.1 (h s hs)
  have hmain {q : Prop} : T.Made q k _ (p.statements.forM (mainEffect T.link))
    (p.statements.forM (mainEffect T.link')) _ _ :=
    .forAll fun s hs _ => made_mainEffect (htop s hs).append.1.append.2 (h s hs) fun h0 _ kind _ =>
      hopens h0 kind
  have hbodies {q : Prop} : T.Made q k _ (p.statements.forM (declarationBody T.link))
      (p.statements.forM (declarationBody T.link')) _ _ :=
    .forAll fun s hs _ => made_declarationBody (htop s hs).append.2 (h s hs)
  have hlabelled {q : Prop} : T.Made q k _ (withLabels (labelsOf p.statements) _)
      (withLabels (labelsOf p.statements) _) _ _ := .inContext (fun _ => rfl) hmain
  refine .after (.forM (P := fun _ => True) fun s hs _ => looks_collectType (h s hs).1) fun _ =>
    .bind hentrances fun _ => .bind hlabelled fun _ => hbodies.mono fun _ hq hbodies s hs => ?_
  cases hhoisted : s.isHoisted with
  | false => exact hq.2 s hs hhoisted
  | true => exact (hbodies s hs hhoisted).elim (hq.1.2 s hs) id

end Terms

end Trance
