import Trance.Proofs.Checking.Inference

/-!
# What the check of a declaration is made of

Declarations are checked in plain steps: a name is bound, a type becomes known with its members, and
the type of a variable is found. -/

namespace Trance

open List

/-- The suggestion that a member of a session declares, if it is a method. -/
def MemberOf.suggestions (member : Member) : List Suggestion :=
  match member.decl with
  | .field _ => []
  | .method decl => [decl]

def Stmt.suggestions : Stmt → List Suggestion
  | .suggestion decl => [decl]
  | .session decl => decl.members.flatMap MemberOf.suggestions
  | _ => []

/-- The type that a statement declares. -/
def Stmt.type? : Stmt → Option Ty
  | .session decl => some (.session decl.name)
  | .tranceify decl => some (.record decl.name)
  | _ => none

namespace Terms

variable (T : Terms)

/-- The type of a variable is written in a name that may be mentioned. -/
def AdmitsVariable (decl : Variable) : Prop := ∀ name ∈ decl.typeName, T.Mentions name

def AdmitsMember (member : Member) : Prop :=
  match member.decl with
  | .field field => T.AdmitsVariable field
  | .method decl => T.Declares decl

def Admits : Stmt → Prop
  | .induce decl => T.AdmitsVariable decl
  | .suggestion decl => T.Declares decl
  | .session decl => T.AdmitsType (.session decl.name) ∧
    ∀ member ∈ decl.members, T.AdmitsMember member
  | .tranceify decl => T.AdmitsType (.record decl.name) ∧
    ∀ field ∈ decl.members, T.AdmitsVariable field
  | _ => True

/-- The types in the declaration of a suggestion stand for something. -/
structure Signs (decl : Suggestion) : Prop where
  params : ∀ param ∈ decl.params, ∀ name ∈ param.typeName, T.Resolves name
  returnType : ∀ name ∈ decl.returnType, T.Resolves name

/-- The record literals of a statement have known types, and its suggestions are declared with known
types. -/
structure Checked (s : Stmt) : Prop where
  exprs : ∀ e ∈ s.exprs, e.Every T.Builds
  suggestions : ∀ decl ∈ s.suggestions, T.Signs decl

variable {T} in
theorem admits_of_type {s : Stmt} (hmentions : ∀ name, T.Mentions name)
    (hwrites : ∀ name, T.writes name) (htype : ∀ type ∈ s.type?, T.Learns type) : T.Admits s := by
  have hvariable (decl : Variable) : T.AdmitsVariable decl := fun name _ => hmentions name
  have hdeclares (decl : Suggestion) : T.Declares decl :=
    ⟨fun _ _ name _ => hwrites name, fun name _ => hwrites name⟩
  cases s with
  | induce decl => exact hvariable decl
  | suggestion decl => exact hdeclares decl
  | session decl =>
    refine ⟨⟨htype _ rfl, hwrites _⟩, fun member _ => ?_⟩
    unfold AdmitsMember
    cases member.decl with
    | field field => exact hvariable field
    | method decl => exact hdeclares decl
  | tranceify decl => exact ⟨⟨htype _ rfl, hwrites _⟩, fun field _ => hvariable field⟩
  | _ => exact trivial

theorem lax_admits (opens : Symbol.Kind → Prop) (links : Prop) (link link' : Follower) (s : Stmt) :
    (lax opens links link link').Admits s :=
  admits_of_type (fun _ _ _ => trivial) (fun _ => trivial) fun _ _ _ _ _ => trivial

end Terms

namespace Check

def callsOf (e? : Option Expr) (c : Checker) : List Call :=
  match e? with
  | some e => calls e c
  | none => []

def inducedCalls (decl : Variable) (c : Checker) : List Call :=
  match decl.typeName with
  | some name => callsOf decl.start.expr? (c.after (resolveType name decl.location))
  | none => callsOf decl.start.expr? c

def induceCalls (decl : Variable) (c : Checker) : List Call := .induce decl c :: inducedCalls decl c

def fieldCalls (field : Variable) (c : Checker) : List Call :=
  callsOf field.start.expr? { c with scopes := c.scopes.enter .call }

/-- The calls of a step that is done for one element of a list after the other. -/
def callsFor {σ : Type} (step : σ → Check Unit) (calls : σ → Checker → List Call) :
    List σ → Checker → List Call
  | [], _ => []
  | s :: rest, c => calls s c ++ callsFor step calls rest (c.after (step s))

def inducedType (decl : Variable) : Check (Option Ty) :=
  match decl.typeName with
  | some name => do variableType decl (some (← resolveType name decl.location))
  | none => variableType decl none

theorem induce_eq (decl : Variable) : induce decl = (do
    let type ← inducedType decl
    defineOr { name := decl.name, kind := .variable, typeName := type.map Ty.name }
      (.redeclaredVariable decl.name) decl.location) := by
  unfold induce inducedType
  cases decl.typeName <;> rfl

def bindThis (owner : Option String) : Check Unit :=
  match owner with
  | some session => do
    let _ ← define { name := Expr.thisName, kind := .parameter, typeName := some session }
  | none => pure ()

/-- The state in which the body of a suggestion is checked: its signature is checked, and its
parameters are bound in a frame of their own. -/
def bodyStart (owner : Option String) (decl : Suggestion) (c : Checker) : Checker :=
  let signed := c.after (signature decl)
  let typed := signed.after (returnType decl)
  let inside : Checker :=
    { typed with
      context := ⟨some ⟨decl.name, ((returnType decl).run signed).1, decl.imperative⟩, 0, []⟩
      scopes := typed.scopes.enter .call }
  (inside.after (bindThis owner)).after (bindParams decl)

end Check

namespace Terms

open Check

variable {T : Terms} {p : Prop} {k : Nat}

theorem Made.forAll {σ : Type} {step step' : σ → Check Unit} {P : σ → Prop}
    {jumps : σ → Context → List (Code × Location)} {calls : σ → Checker → List Call} {all : List σ}
    (h : ∀ s ∈ all, ∀ {p : Prop}, T.Made p k (fun _ => P s) (step s) (step' s) (jumps s) (calls s)) :
    T.Made p k (fun _ => ∀ s ∈ all, P s) (all.forM step) (all.forM step')
      (fun context => all.flatMap (jumps · context)) (callsFor step calls all) := by
  induction all generalizing p with
  | nil => exact .pure () fun _ => nofun
  | cons s rest ih =>
    obtain ⟨hs, hrest⟩ := forall_mem_cons.1 h
    exact .bind hs fun _ => (ih hrest).mono fun _ hP hPs => forall_mem_cons.2 ⟨hP.2, hPs⟩

theorem Made.forPlain {σ : Type} {step : σ → Check Unit} {P : σ → Prop}
    {calls : σ → Checker → List Call}
    {all : List σ} (h : ∀ s ∈ all, ∀ {p : Prop}, T.Plain p k (fun _ => P s) (step s) (calls s)) :
    T.Plain p k (fun _ => ∀ s ∈ all, P s) (all.forM step) (callsFor step calls all) := by
  have hnone : all.flatMap (fun _ => ([] : List (Code × Location))) = [] :=
    flatMap_eq_nil_iff.2 fun _ _ => rfl
  simpa only [hnone] using Made.forAll h

theorem looks_defineOr {symbol : Symbol} (hopens : k = 0 → T.opens symbol.kind)
    (hfits : p → T.Fits symbol)
    {finding : Finding} (h : finding.code.isJump = false) (loc : Location) :
    T.Goes p k (defineOr symbol finding loc) :=
  .before (.define hopens hfits) fun _ => .ite (fun _ => .skip ()) fun _ => .tell h loc

/-! ## Names -/

theorem looks_declareSession {decl : Session} (hopens : k = 0 → T.opens .session)
    (h : T.AdmitsType (.session decl.name)) : T.Goes p k (declareSession decl) :=
  .introduce hopens h _

theorem looks_declareTranceify {decl : Tranceify} (hopens : k = 0 → T.opens .record)
    (h : T.AdmitsType (.record decl.name)) : T.Goes p k (declareTranceify decl) :=
  .introduce hopens h _

variable {decl : Suggestion}

theorem looks_declareSuggestion (hopens : k = 0 → T.opens .suggestion) (h : T.Declares decl) :
    T.Goes p k (declareSuggestion decl) := by
  refine looks_defineOr hopens (fun _ => ?_) rfl _
  exact ⟨nofun, nofun, nofun, by rintro _ ⟨⟩; exact h⟩

/-! ## Members -/

theorem looks_fieldType {field : Variable} (h : T.AdmitsVariable field) :
    T.Looks p k T.infers (fieldType field) := by
  unfold fieldType
  cases hname : field.typeName with
  | some name =>
    exact (looks_resolveType name field.location).mono fun _ _ htype => htype.1 (h name hname)
  | none =>
    simp only
    split
    · exact .pure _ fun _ => T.basic rfl
    · exact .pure _ fun _ => T.basic rfl
    · exact .pure _ fun _ => T.basic rfl
    · exact .pure _ fun _ => T.basic rfl
    · refine .lookAt (fun h => by simp only [h.has_record]) fun c => .pure _ fun hc => ?_
      split
      · rename_i hhas
        obtain ⟨info, hinfo⟩ := Option.isSome_iff_exists.1 hhas
        exact T.known (hc.2.records _ (Table.mem_of_find? hinfo)).1
      · exact T.basic rfl
    · exact .pure _ fun _ => T.basic rfl

theorem looks_collectMember (session : String) {info : SessionInfo}
    (hinfo : p → ∀ entry ∈ info.members, T.Holds entry.2.kind) {member : Member}
    (h : T.AdmitsMember member) :
    T.Looks p k (fun info => ∀ entry ∈ info.members, T.Holds entry.2.kind)
      (collectMember session info member) := by
  have hinsert (hp : p) {new : MemberInfo} (hnew : T.Holds new.kind) :
      ∀ entry ∈ info.members.insert member.name new, T.Holds entry.2.kind := by
    intro entry hentry
    obtain rfl | hold := Table.mem_insert hentry
    · exact hnew
    · exact hinfo hp entry hold
  unfold collectMember
  refine .ite (fun _ => .before (.tell rfl _) fun _ => .pure _ fun hp => hinfo hp.1) fun _ => ?_
  unfold AdmitsMember at h
  cases hdecl : member.decl with
  | field field =>
    rw [hdecl] at h
    exact .before (looks_fieldType h) fun _ => .pure _ fun hp => hinsert hp.1 hp.2
  | method decl =>
    rw [hdecl] at h
    exact .pure _ fun hp => hinsert hp h

theorem looks_collectMembers {decl : Session} (htype : T.Learns (.session decl.name))
    (h : ∀ member ∈ decl.members, T.AdmitsMember member) : T.Goes p k (collectMembers decl) :=
  .before (.foldlM (fun _ member hmember _ hinfo => looks_collectMember decl.name hinfo
    (h member hmember)) fun _ => nofun)
    fun _ => .know htype And.right

theorem looks_collectFields {decl : Tranceify} (htype : T.Learns (.record decl.name))
    (h : ∀ field ∈ decl.members, T.AdmitsVariable field) : T.Goes p k (collectFields decl) := by
  refine .before (Q := fun info => ∀ field ∈ info, T.infers field.2)
    (.foldlM (fun info field hfield _ hinfo => ?_) fun _ => nofun) fun _ =>
      .knowRecord htype And.right
  refine .ite (fun _ => .before (.tell rfl _) fun _ => .pure _ fun hp => hinfo hp.1) fun _ => ?_
  refine .before (looks_fieldType (h field hfield)) fun type => .pure _ fun hp entry hentry => ?_
  obtain rfl | hold := Table.mem_insert hentry
  · exact hp.2
  · exact hinfo hp.1 entry hold

theorem plain_fieldStart (owner : String) (field : Variable) :
    T.Plain p k (fun _ => ∀ e ∈ field.start.expr?.toList, e.Every T.Builds) (fieldStart owner field)
    (fieldCalls field) := by
  unfold fieldStart fieldCalls
  cases field.start with
  | value init =>
    refine .before (.inFrame .call (plain_infer init)) fun actual => ?_
    cases field.typeName with
    | some name =>
      exact .before (looks_typeNamed name) fun _ =>
        (Made.reportIf _ rfl _).mono fun _ hp _ => forall_mem_singleton.2 hp.1.2.2
    | none => exact .pure () fun hp => forall_mem_singleton.2 hp.2.2
  | unset | external => exact .pure () fun _ => nofun

theorem plain_fieldStarts (decl : Tranceify) : T.Plain p k (fun _ => T.Checked (.tranceify decl))
    (fieldStarts decl) (callsFor (fieldStart decl.name) fieldCalls decl.members) := by
  refine (Made.forPlain fun field _ => plain_fieldStart decl.name field).mono fun _ _ h =>
    ⟨fun e he => ?_, nofun⟩
  obtain ⟨field, hfield, hstart⟩ := mem_flatMap.1 he
  exact h field hfield e hstart

/-! ## Suggestions -/

theorem looks_signature (decl : Suggestion) :
    T.Looks p k (fun _ => T.Signs decl) (signature decl) := by
  refine .before (.forM (P := fun param => ∀ name ∈ param.typeName,
    T.Resolves name) fun param _ _ => ?_) fun _ => ?_
  · cases param.typeName with
    | some name =>
      exact .before (looks_resolveType name _) fun _ => .pure () fun hp =>
        by rintro _ ⟨⟩; exact hp.2.2
    | none => exact .pure () fun _ => nofun
  · cases hname : decl.returnType with
    | some name =>
      refine .before (looks_resolveType name _) fun _ => (Made.reportIf _ rfl _).mono fun _ hp _ =>
        ⟨hp.1.2, ?_⟩
      rw [hname]
      rintro _ ⟨⟩
      exact hp.2.2
    | none => exact .pure () fun hp => ⟨hp.2, by rw [hname]; exact nofun⟩

theorem looks_bindParams (h : T.Declares decl) : T.Goes p (k + 1) (bindParams decl) := by
  refine (Made.forM (P := fun _ => True) fun param hparam _ => ?_).goes
  refine .before (looks_paramType fun _ => h.params param hparam) fun type =>
    looks_defineOr (fun h => absurd h k.succ_ne_zero) (fun hp => ?_) rfl _
  exact ⟨by rintro _ ⟨⟩; exact T.named hp.2, nofun, nofun, nofun⟩

theorem looks_bindThis {owner : Option String} (h : ∀ session ∈ owner, T.writes session) :
    T.Goes p (k + 1) (bindThis owner) := by
  cases owner with
  | some session =>
    refine .before (.define (fun h => absurd h k.succ_ne_zero) fun _ => ?_) fun _ => .skip ()
    exact ⟨by rintro _ ⟨⟩; exact h session rfl, nofun, nofun, nofun⟩
  | none => exact .skip ()

theorem inSuggestion_eq (decl : Suggestion) (owner : Option String) (body : Check Unit) :
    inSuggestion decl owner body = (do
      signature decl
      let type ← returnType decl
      inContext (fun _ => ⟨some ⟨decl.name, type, decl.imperative⟩, 0, []⟩) (fun saved _ => saved)
        (inFrame .call do bindThis owner; bindParams decl; body)) := by
  cases owner <;> rfl

theorem made_inSuggestion (h : T.Declares decl) {owner : Option String}
    (howner : ∀ session ∈ owner, T.writes session) {x y : Check Unit} {Q : Prop}
    {jumps : Context → List (Code × Location)} {calls : Checker → List Call}
    (hxy : ∀ {p : Prop}, T.Made p (k + 1) (fun _ => Q) x y jumps calls)
    {new : List (Code × Location)} (hjumps : ∀ enclosing, jumps ⟨some enclosing, 0, []⟩ = new) :
    T.Made p k (fun _ => T.Signs decl ∧ Q) (inSuggestion decl owner x) (inSuggestion decl owner y)
      (fun _ => new) fun c => calls (bodyStart owner decl c) := by
  have hbound {p : Prop} : T.Made p (k + 1) (fun _ => Q) (do bindParams decl; x)
      (do bindParams decl; y) jumps fun c => calls (c.after (bindParams decl)) :=
    .after (looks_bindParams h) fun _ => hxy
  have hinside {p : Prop} (type : Ty) : T.Made p k (fun _ => Q)
      (inContext (fun _ => ⟨some ⟨decl.name, type, decl.imperative⟩, 0, []⟩) (fun saved _ => saved)
        (inFrame .call do bindThis owner; bindParams decl; x))
      (inContext (fun _ => ⟨some ⟨decl.name, type, decl.imperative⟩, 0, []⟩) (fun saved _ => saved)
        (inFrame .call do bindThis owner; bindParams decl; y))
      (fun _ => new) fun c => calls ((Checker.after { c with
        context := ⟨some ⟨decl.name, type, decl.imperative⟩, 0, []⟩
        scopes := c.scopes.enter .call } (bindThis owner)).after (bindParams decl)) := by
    rw [← funext fun _ : Context => hjumps ⟨decl.name, type, decl.imperative⟩]
    exact .inContext (fun _ => rfl) (.inFrame .call (.after (looks_bindThis howner) fun _ => hbound))
  rw [inSuggestion_eq, inSuggestion_eq]
  exact .after (looks_signature decl) fun _ => .after (looks_returnType fun _ => h) fun type =>
    (hinside type).mono fun _ hp hQ => ⟨hp.1.2, hQ⟩

/-! ## Variables -/

def Starts (T : Terms) (decl : Variable) (type? : Option Ty) : Prop :=
  (∀ type ∈ type?, T.infers type) ∧ ∀ e ∈ decl.start.expr?.toList, e.Every T.Builds

theorem looks_inferredType (name : String) {actual : Ty} (h : p → T.infers actual)
    (loc : Location) : T.Looks p k T.infers (inferredType name actual loc) :=
  .ite (fun _ => .fail rfl loc) fun _ => .pure _ h

theorem plain_variableType {decl : Variable} {declared : Option Ty}
    (h : p → ∀ type ∈ declared, T.infers type) :
    T.Plain p k (T.Starts decl) (variableType decl declared) (callsOf decl.start.expr?) := by
  unfold variableType Starts
  cases decl.start with
  | external =>
    refine .pure _ fun hp => ⟨?_, nofun⟩
    rintro _ ⟨⟩
    cases declared with
    | some type => exact h hp type rfl
    | none => exact T.basic rfl
  | unset => exact .pure _ fun hp => ⟨h hp, nofun⟩
  | value init =>
    have hbuilds {type : Ty} (h : T.Infers init type) :
        ∀ e ∈ (Start.value init).expr?.toList, e.Every T.Builds :=
      forall_mem_singleton.2 h.2
    cases declared with
    | some declared =>
      exact .before (plain_infer init) fun _ => .before (.reportIf _ rfl _) fun _ =>
        .pure _ fun hp => ⟨h hp.1.1, hbuilds hp.1.2⟩
    | none =>
      exact .before (plain_infer init) fun _ =>
        .before (looks_inferredType decl.name (·.2.1) _) fun _ =>
        .pure _ fun hp => ⟨by rintro _ ⟨⟩; exact hp.2, hbuilds hp.1.2⟩

theorem plain_inducedType {decl : Variable} (h : T.AdmitsVariable decl) :
    T.Plain p k (T.Starts decl) (inducedType decl) (inducedCalls decl) := by
  unfold inducedType inducedCalls
  cases hname : decl.typeName with
  | some name =>
    refine .after (looks_resolveType name _) fun type => plain_variableType fun hp => ?_
    rintro _ ⟨⟩
    exact hp.2.1 (h name hname)
  | none => exact plain_variableType fun _ => nofun

theorem plain_induce {decl : Variable} (hopens : k = 0 → T.opens .variable)
    (h : T.AdmitsVariable decl) :
    T.Plain p k (fun _ => ∀ e ∈ decl.start.expr?.toList, e.Every T.Builds) (induce decl)
      (induceCalls decl) := by
  refine .induce ?_
  rw [induce_eq]
  refine .before (plain_inducedType h) fun type? => Made.mono
    (looks_defineOr hopens (fun hp => ?_) rfl _) fun _ hp _ => hp.2.2
  refine ⟨fun name hname => ?_, nofun, nofun, nofun⟩
  obtain ⟨type, hmem, rfl⟩ := Option.map_eq_some_iff.1 hname
  exact T.named (hp.2.1 type hmem)

end Terms

end Trance
