import Trance.Proofs.Running.Simulation
import Trance.Running.Engine

/-!
# Expressions side by side

If two ways of evaluating expressions are related, and two ways of calling suggestions, then so is
everything that is built over them: members and places, records and sessions, declarations, and
one more step of evaluation.
-/

namespace Trance

open List Instance Exec

def Evaluators (P : Pairing) (eval eval' : Expr → Exec Value) : Prop :=
  ∀ expr, Sim P P.Sees P.Values (eval expr) (eval' expr)

def Callers (P : Pairing) (call call' : Caller) : Prop :=
  ∀ {a b}, P.matching.rel a b → ∀ {args args'}, List.Forall₂ P.Values args args' →
    ∀ receiver loc, Sim P Anywhere P.Values (call a args receiver loc) (call' b args' receiver loc)

theorem Exec.intrinsic_of_notMem {name : String} (h : name ∉ intrinsicNames) (args : List Value)
    (loc : Location) : intrinsic name args loc = fail (.undefinedFunction name) loc := by
  simp only [intrinsicNames, mem_cons, not_mem_nil, or_false, not_or] at h
  simp only [intrinsic, h.1, h.2.1, h.2.2, decide_false, Bool.or_false, Bool.false_eq_true, if_false]

namespace Simulates

variable {P : Pairing} {K : List Frame.Kind → Prop} {eval eval' : Expr → Exec Value}
  {call call' : Caller}

/-! ## Members -/

theorem staticObject (session member : String) (loc : Location) :
    Sim P K (fun a b => a.1 = b.1 ∧ Alike P.matching a.2 b.2)
      (staticObject session member loc) (staticObject session member loc) := by
  refine machine fun _ m n _ hm => ?_
  rw [hm.statics]
  cases n.statics.find? session with
  | none => exact fail rfl
  | some ref => exact (object ref).bind fun _ _ h => pure ⟨rfl, h⟩

theorem requireVisible {a b : Instance} (h : Alike P.matching a b) (session member : String)
    (viaThis : Bool) (loc : Location) :
    Sim P K Eq (Exec.requireVisible a session member viaThis loc)
      (Exec.requireVisible b session member viaThis loc) := by
  unfold Exec.requireVisible
  rw [h.conceals]
  split
  · exact fail rfl
  · exact pure rfl

theorem sessionMember (ref : SessionRef) (member : String) (viaThis : Bool) (loc : Location) :
    Sim P K P.Values (sessionMember ref member viaThis loc)
      (sessionMember ref member viaThis loc) := by
  refine (object ref).bind fun own own' hown => ?_
  rw [hown.name]
  refine (requireVisible hown _ member viaThis loc).bind fun _ _ _ => ?_
  obtain ⟨ha, hb⟩ | ⟨_, _, ha, hb, hvalue⟩ := relates_or_none (hown.member? member) <;> rw [ha, hb]
  · refine (staticObject _ member loc).bind fun a b hab => ?_
    refine (requireVisible hab.2 _ member viaThis loc).bind fun _ _ _ => ?_
    obtain ⟨ha, hb⟩ | ⟨_, _, ha, hb, hvalue⟩ := relates_or_none (hab.2.member? member) <;>
      rw [ha, hb]
    · exact fail rfl
    · exact pure hvalue
  · exact pure hvalue

theorem memberValue {v w : Value} (h : P.Values v w) (member : String) (viaThis : Bool)
    (loc : Location) :
    Sim P K P.Values (Exec.memberValue v member viaThis loc)
      (Exec.memberValue w member viaThis loc) := by
  cases h with
  | record typeName fields =>
    unfold Exec.memberValue
    simp only
    obtain ⟨ha, hb⟩ | ⟨_, _, ha, hb, hvalue⟩ := relates_or_none (fields.find? member) <;> rw [ha, hb]
    · exact fail rfl
    · exact pure hvalue
  | session ref => exact sessionMember ref member viaThis loc
  | number | text | boolean | array | suggestion | null => exact fail rfl

/-! ## Places -/

theorem place (heval : Evaluators P eval eval') (loc : Location) (target : Expr) :
    Sim P P.Sees (Place.Alike P.matching) (place eval loc target) (place eval' loc target) := by
  induction target using place.induct with
  | case1 name nameLoc => exact pure ⟨rfl, .nil⟩
  | case2 object member _ ih =>
    refine (heval object).bind fun _ _ h => ?_
    cases h with
    | session ref => exact pure ⟨rfl, .nil⟩
    | number | text | boolean | array | record | suggestion | null =>
      exact ih.bind fun _ _ h => pure (h.step (.field member))
  | case3 object index _ ih =>
    refine (heval index).bind fun _ _ hindex => ?_
    exact ih.bind fun _ _ h => pure (h.step (.index hindex))
  | case4 other hname hfield hindex =>
    cases other with
    | name => exact absurd rfl (hname _ _)
    | field => exact absurd rfl (hfield _ _ _)
    | index => exact absurd rfl (hindex _ _ _)
    | _ => exact fail rfl

section

variable {f g : Value → Attempt Value}
  (hfg : ∀ v w, P.Values v w → Attempt.Alike P.Values (f v) (g w))
include hfg

theorem modifyVariable (name : String) (nameLoc loc : Location) :
    Sim P P.Sees Eq (Exec.modifyVariable name nameLoc loc f)
      (Exec.modifyVariable name nameLoc loc g) := by
  intro kinds hk m n hm
  have hname := hm.scopes.resolve? (Bindings.alike_find? Symbol.Alike.name · name) Symbol.Found.both
    (hm.scopes.globals.find? name) hk
  simp only [Exec.modifyVariable, Exec.resolve?, Exec.machine, Bind.bind, Exec.bind, Pure.pure,
    Exec.pure]
  -- the assignment takes place where the name has been found
  generalize hfound : m.scopes.resolve? name = found at hname ⊢
  generalize n.scopes.resolve? name = found' at hname ⊢
  cases hname with
  | neither => exact .failed (P.errors_self rfl) hm
  | lacking lacked named => exact .parted lacked (.first (named ▸ rfl))
  | @both a b hab =>
    simp only [hab.kind]
    split
    · exact .failed (P.errors_self rfl) hm
    · have hvalue : P.Values (a.value.getD .null) (b.value.getD .null) := by
        obtain ⟨ha, hb⟩ | ⟨_, _, ha, hb, hvw⟩ := relates_or_none hab.value <;> rw [ha, hb]
        · exact .null
        · exact hvw
      have hchanged := hfg _ _ hvalue
      generalize f (a.value.getD .null) = x at hchanged ⊢
      generalize g (b.value.getD .null) = y at hchanged ⊢
      cases hchanged with
      | ok hvw => exact .done rfl { hm with scopes := hm.scopes.assign hk (by rw [hfound]; rfl) hvw }
      | error e he => exact .failed (P.errors_self he) hm

theorem modifyField (ref : SessionRef) {a b : Instance} (h : Alike P.matching a b) (name : String) :
    Sim P K Eq (Exec.modifyField ref a name f) (Exec.modifyField ref b name g) := by
  unfold Exec.modifyField
  obtain ⟨ha, hb⟩ | ⟨_, _, ha, hb, hfields⟩ := relates_or_none (h.fields.modify? name hfg) <;>
    rw [ha, hb]
  · exact pure rfl
  · refine (ofExcept hfields).bind fun fields fields' hfields => ?_
    have hobject : Alike P.matching { a with fields } { b with fields := fields' } :=
      { h with fields := hfields }
    exact (setObject ref hobject).bind fun _ _ _ => pure rfl

omit hfg in
theorem modifySession {f g : SessionRef → Value → Attempt Value}
    (hfg : ∀ held v w, P.Values v w → Attempt.Alike P.Values (f held v) (g held w))
    (ref : SessionRef) (name : String) (viaThis : Bool) (loc : Location) :
    Sim P K Eq (modifySession ref name viaThis loc f) (modifySession ref name viaThis loc g) := by
  refine (object ref).bind fun own own' hown => ?_
  rw [hown.name]
  refine (requireVisible hown _ name viaThis loc).bind fun _ _ _ => ?_
  refine (modifyField (hfg ref) ref hown name).bind ?_
  rintro found _ rfl
  cases found with
  | true => exact pure rfl
  | false =>
    refine (staticObject _ name loc).bind ?_
    rintro ⟨sharedRef, a⟩ ⟨_, b⟩ ⟨rfl, hab⟩
    refine (requireVisible hab _ name viaThis loc).bind fun _ _ _ => ?_
    refine (modifyField (hfg sharedRef) sharedRef hab name).bind ?_
    rintro found _ rfl
    cases found with
    | true => exact pure rfl
    | false => exact fail rfl

theorem modifyPlace {p q : Place} (h : Place.Alike P.matching p q) (loc : Location) :
    Sim P P.Sees Eq (modifyPlace p loc f) (modifyPlace q loc g) := by
  obtain ⟨root, path⟩ := p
  obtain ⟨_, path'⟩ := q
  obtain ⟨rfl, hpath⟩ := h
  have hinside : ∀ held v w, P.Values v w →
      Attempt.Alike P.Values (Value.modifyAt held loc f path v)
        (Value.modifyAt held loc g path' w) :=
    fun _ _ _ => Value.Alike.modifyAt hfg hpath
  cases root with
  | «variable» name nameLoc => exact modifyVariable (hinside none) name nameLoc loc
  | field ref name viaThis =>
    exact modifySession (fun held => hinside (some held)) ref name viaThis loc

end

theorem assign (heval : Evaluators P eval eval') (target : Expr) {v w : Value} (h : P.Values v w)
    (loc : Location) : Sim P P.Sees Eq (assign eval target v loc) (assign eval' target w loc) :=
  (place heval loc target).bind fun _ _ hplace => modifyPlace (fun _ _ _ => .ok h) hplace loc

/-! ## Records -/

theorem evalDetached (heval : Evaluators P eval eval') (expr : Expr) :
    Sim P K P.Values (evalDetached eval expr) (evalDetached eval' expr) :=
  inCall (heval expr).inside

theorem recordField (heval : Evaluators P eval eval') {given : List (String × Expr)}
    (hgiven : ∀ name expr, Table.find? given name = some expr →
      Sim P K P.Values (eval expr) (eval' expr)) (member : Variable) :
    Sim P K (fun a b => a.1 = b.1 ∧ P.Values a.2 b.2) (Exec.recordField eval given member)
      (Exec.recordField eval' given member) := by
  unfold Exec.recordField
  cases hfind : Table.find? given member.name with
  | some expr => exact (hgiven _ expr hfind).bind fun _ _ h => pure ⟨rfl, h⟩
  | none =>
    cases member.start with
    | value init => exact (evalDetached heval init).bind fun _ _ h => pure ⟨rfl, h⟩
    | unset | external => exact pure ⟨rfl, .null⟩

theorem buildRecord (heval : Evaluators P eval eval') (typeName : String)
    {given : List (String × Expr)} (hgiven : ∀ name expr, Table.find? given name = some expr →
      Sim P K P.Values (eval expr) (eval' expr)) (loc : Location) :
    Sim P K P.Values (buildRecord eval typeName given loc)
      (buildRecord eval' typeName given loc) := by
  refine machine fun _ m n _ hm => ?_
  obtain ⟨ha, hb⟩ | ⟨decl, _, ha, hb, rfl, -⟩ := relates_or_none (hm.records.find? typeName) <;>
    rw [ha, hb]
  · exact fail rfl
  · simp only
    split
    · exact fail rfl
    · exact (mapM (recordField heval hgiven) decl.members).bind fun _ _ h =>
        pure (.record typeName (.of_forall₂ h))

theorem defaultValue (heval : Evaluators P eval eval') (typeName : Option String) (loc : Location) :
    Sim P K P.Values (defaultValue eval typeName loc) (defaultValue eval' typeName loc) := by
  cases typeName with
  | none => exact pure .null
  | some name =>
    refine machine fun _ m n _ hm => ?_
    rw [hm.records.has]
    split
    · exact buildRecord heval name (fun _ _ h => by cases h) loc
    · exact pure .null

/-! ## Sessions -/

theorem filter_members {as bs : List Member} (h : List.Forall₂ (Member.Alike P.matching) as bs)
    {p : Member → Bool} (hp : ∀ a b, Member.Alike P.matching a b → p a = p b) :
    List.Forall₂ (Member.Alike P.matching) (as.filter p) (bs.filter p) := by
  induction h with
  | nil => exact .nil
  | cons hab _ ih =>
    rw [filter_cons, filter_cons, hp _ _ hab]
    split
    · exact .cons hab ih
    · exact ih

section

variable (heval : Evaluators P eval eval') {a b : Instance} (h : Alike P.matching a b)
  {m n : Member} (hmn : Member.Alike P.matching m n)

include heval h hmn

theorem addStatic :
    Sim P K (Alike P.matching) (Exec.addStatic eval a m) (Exec.addStatic eval' b n) := by
  have hmark := h.mark hmn
  have hdecl := hmn.decl
  unfold Exec.addStatic
  generalize m.decl = c at hdecl ⊢
  generalize n.decl = d at hdecl ⊢
  cases hdecl with
  | field field =>
    simp only
    cases field.start with
    | value init => exact (evalDetached heval init).bind fun _ _ h => pure (hmark.setField _ h)
    | unset | external => exact pure (hmark.setField _ .null)
  | method hcd => exact pure (hmark.setMethod hcd)

theorem addMember (loc : Location) :
    Sim P K (Alike P.matching) (Exec.addMember eval loc a m) (Exec.addMember eval' loc b n) := by
  have hmark := h.mark hmn
  have hdecl := hmn.decl
  unfold Exec.addMember
  generalize m.decl = c at hdecl ⊢
  generalize n.decl = d at hdecl ⊢
  cases hdecl with
  | field field =>
    simp only
    cases field.start with
    | value init => exact (evalDetached heval init).bind fun _ _ h => pure (hmark.setField _ h)
    | unset | external =>
      exact (defaultValue heval _ loc).bind fun _ _ h => pure (hmark.setField _ h)
  | method hcd =>
    simp only [Matching.name_eq hcd]
    split
    · exact pure hmark
    · exact pure (hmark.setMethod hcd)

end

theorem buildStatic (heval : Evaluators P eval eval') {s t : Session}
    (h : Session.Alike P.matching s t) :
    Sim P K (Alike P.matching) (Exec.buildStatic eval s) (Exec.buildStatic eval' t) := by
  unfold Exec.buildStatic
  rw [h.name]
  exact foldlM (filter_members h.members fun _ _ hab => hab.dominant)
    (fun _ _ hab _ _ hmn => addStatic heval hab hmn) (.empty t.name)

theorem buildInstance (heval : Evaluators P eval eval') {s t : Session}
    (h : Session.Alike P.matching s t) (loc : Location) :
    Sim P K (Alike P.matching) (Exec.buildInstance eval s loc)
      (Exec.buildInstance eval' t loc) := by
  unfold Exec.buildInstance
  rw [h.name]
  exact foldlM (filter_members h.members fun _ _ hab => by rw [hab.dominant])
    (fun _ _ hab _ _ hmn => addMember heval hab hmn loc) (.empty t.name)

/-! ## Declarations -/

theorem declareSuggestion {a b : Suggestion} (h : P.matching.rel a b) :
    Sim P P.Inside Eq (declare eval (.suggestion a)) (declare eval' (.suggestion b)) := by
  simp only [declare, Matching.name_eq h, Matching.location_eq h]
  exact define (.of_value (.some (.suggestion h)) _ _ _) _

theorem declareSession (heval : Evaluators P eval eval') {a b : Session}
    (h : Session.Alike P.matching a b) :
    Sim P P.Inside Eq (declare eval (.session a)) (declare eval' (.session b)) := by
  refine (buildStatic heval h).bind fun _ _ hobject => ?_
  refine (allocate hobject).bind ?_
  rintro ref _ rfl
  simp only [h.name, h.location]
  refine (define (.of_value (.some (.session ref)) _ _ _) _).bind fun _ _ _ => ?_
  exact update fun _ _ _ _ hm =>
    { hm with sessions := hm.sessions.insert _ h, statics := by simp only [hm.statics] }

theorem declareTranceify {decl : Tranceify} (h : P.types decl) :
    Sim P P.Inside Eq (declare eval (.tranceify decl)) (declare eval' (.tranceify decl)) := by
  refine (define (.of_value .none _ _ _) _).bind fun _ _ _ => ?_
  exact update fun _ _ _ _ hm => { hm with records := hm.records.insert _ ⟨rfl, h⟩ }

theorem inputValue (decl : Variable) (line : String) :
    Attempt.Alike P.Values (Exec.inputValue decl line) (Exec.inputValue decl line) := by
  unfold Exec.inputValue
  simp only
  split
  iterate 4
    split
    · exact .ok (.number _)
    · exact .error _ rfl
  iterate 2
    split
    · exact .ok (.boolean _)
    · exact .ok (.boolean _)
    · exact .error _ rfl
  exact .ok (.text _)

theorem readExternal (decl : Variable) :
    Sim P K P.Values (readExternal decl) (readExternal decl) := by
  refine (readLine _).bind ?_
  rintro line _ rfl
  cases line with
  | none => exact fail rfl
  | some line => exact ofExcept (inputValue decl line)

theorem induce (heval : Evaluators P eval eval') (decl : Variable) :
    Sim P P.Inside Eq (Exec.induce eval decl) (Exec.induce eval' decl) := by
  have hdefine : ∀ v w, P.Values v w → Sim P P.Inside Eq
      (Exec.define ⟨decl.name, .variable, decl.typeName, some v⟩ decl.location)
      (Exec.define ⟨decl.name, .variable, decl.typeName, some w⟩ decl.location) :=
    fun _ _ h => define (.of_value (.some h) _ _ _) _
  unfold Exec.induce
  cases decl.start with
  | external => exact (readExternal decl).bind hdefine
  | value init => exact (heval init).inside.bind hdefine
  | unset => exact (defaultValue heval _ _).bind hdefine

/-! ## Calls -/

theorem requireDepth (limit : Nat) (loc : Location) :
    Sim P K Eq (requireDepth limit loc) (requireDepth limit loc) := by
  refine machine fun _ m n _ hm => ?_
  rw [hm.depth]
  split
  · exact fail rfl
  · exact pure rfl

theorem bindThis (hK : ∀ kinds, K kinds → P.Inside kinds ∧ (kinds ≠ [] ∨ ∀ symbol, ¬P.lacks symbol))
    (receiver : Option SessionRef) : Sim P K Eq (bindThis receiver) (bindThis receiver) := by
  cases receiver with
  | none => exact pure rfl
  | some ref =>
    refine update fun kinds m n hk hm => { hm with scopes := ?_ }
    obtain ⟨hinside, hframe⟩ := hK kinds hk
    have hthis : Symbol.Alike P.matching ⟨Expr.thisName, .parameter, none, some (.session ref)⟩
        ⟨Expr.thisName, .parameter, none, some (.session ref)⟩ :=
          .of_value (.some (.session ref)) _ _ _
    have hglobal (hnil : kinds = []) := (hm.scopes.globals.add? hthis).resolve_left fun ⟨symbol,
      hlacks, _⟩ => hframe.elim (fun h => h hnil) fun h => h symbol hlacks
    obtain ⟨ha, hb⟩ | ⟨_, _, ha, hb, hscopes⟩ := relates_or_none
      (hm.scopes.define? (Bindings.alike_add? Symbol.Alike.name · hthis) hglobal hinside.1 hinside.2)
    · simp only [ha, hb]
      exact hm.scopes
    · simp only [ha, hb]
      exact hscopes

variable {args args' : List Value}

theorem bindParams (loc : Location) (params : List Param) (h : List.Forall₂ P.Values args args') :
    Sim P P.Inside Eq (bindParams loc (params.zip args)) (bindParams loc (params.zip args')) := by
  induction h generalizing params with
  | nil =>
    rw [zip_nil_right]
    exact pure rfl
  | cons hvw _ ih =>
    cases params with
    | nil => exact pure rfl
    | cons param params =>
      exact (define (.of_value (.some hvw) _ _ _) loc).bind fun _ _ _ => ih params

theorem receiver (ref : SessionRef) {a b : Suggestion} (h : P.matching.rel a b) :
    Sim P K Eq (Exec.receiver ref a) (Exec.receiver ref b) := by
  unfold Exec.receiver
  rw [Matching.dominant_eq h]
  split
  · exact machine fun _ m n _ hm => pure (by rw [hm.statics])
  · exact pure rfl

theorem instantiate (limit : Nat) (heval : Evaluators P eval eval') (hcall : Callers P call call')
    (name : String) (hargs : List.Forall₂ P.Values args args') (loc : Location) :
    Sim P K P.Values (instantiate limit eval call name args loc)
      (instantiate limit eval' call' name args' loc) := by
  refine machine fun _ m n _ hm => ?_
  obtain ⟨ha, hb⟩ | ⟨s, t, ha, hb, hst⟩ := relates_or_none (hm.sessions.find? name) <;> rw [ha, hb]
  · exact fail rfl
  · refine (requireDepth limit loc).bind fun _ _ _ => ?_
    refine (deeper (buildInstance heval hst loc)).bind fun _ _ hobject => ?_
    refine (allocate hobject).bind ?_
    rintro ref _ rfl
    obtain ⟨ha, hb⟩ | ⟨_, _, ha, hb, hinit⟩ := relates_or_none hst.constructor? <;> rw [ha, hb]
    · cases hargs with
      | nil => exact pure (.session ref)
      | cons _ rest =>
        simp only [isEmpty_cons, Bool.false_eq_true, if_false, length_cons, rest.length_eq]
        exact fail rfl
    · exact (hcall hinit hargs (some ref) loc).anywhere.bind fun _ _ _ => pure (.session ref)

theorem onlyArgument (name : String) (h : List.Forall₂ P.Values args args') (loc : Location) :
    Sim P K P.Values (onlyArgument name args loc) (onlyArgument name args' loc) := by
  cases h with
  | nil => exact fail rfl
  | cons hvw rest =>
    cases rest with
    | nil => exact pure hvw
    | cons _ rest =>
      simp only [onlyArgument, length_cons, rest.length_eq]
      exact fail rfl

theorem intrinsic (name : String) (h : List.Forall₂ P.Values args args') (loc : Location) :
    Sim P K P.Values (Exec.intrinsic name args loc) (Exec.intrinsic name args' loc) := by
  unfold Exec.intrinsic
  split
  · refine (onlyArgument name h loc).bind fun _ _ hvw => ?_
    refine (ofExcept (hvw.asNumber loc)).bind ?_
    rintro time _ rfl
    exact bind (update fun _ _ _ _ hm => { hm with events := by rw [hm.events, Array.push_append] })
      fun _ _ _ => pure .null
  · split
    · refine (onlyArgument name h loc).bind fun _ _ hvw => ?_
      rw [hvw.toText]
      exact (writeLine _).bind fun _ _ _ => pure .null
    · exact fail rfl

section

variable (limit : Nat) (heval : Evaluators P eval eval') (hcall : Callers P call call')
include heval

theorem arguments (args : List Expr) :
    Sim P P.Sees (List.Forall₂ P.Values) (args.mapM eval) (args.mapM eval') :=
  mapM heval args

include hcall

theorem callMember (object : Expr) (member : String) (args : List Expr) (loc : Location) :
    Sim P P.Sees P.Values (callMember eval call object member args loc)
      (callMember eval' call' object member args loc) := by
  refine (heval object).bind fun v w htarget => ?_
  refine (memberValue htarget member _ loc).bind fun _ _ hmethod => ?_
  refine (arguments heval args).bind fun _ _ hargs => ?_
  cases hmethod with
  | suggestion hdecl =>
    cases htarget with
    | session ref =>
      refine (receiver ref hdecl).bind ?_
      rintro ref _ rfl
      exact (hcall hdecl hargs _ loc).anywhere
    | number | text | boolean | array | record | suggestion | null =>
      exact (hcall hdecl hargs _ loc).anywhere
  | number | text | boolean | array | record | session | null => exact fail rfl

theorem callName (name : String) (args : List Expr) (loc : Location) :
    Sim P P.Sees P.Values (Exec.callName limit eval call name args loc)
      (Exec.callName limit eval' call' name args loc) := by
  refine (resolve? name).bind fun _ _ h => ?_
  cases h with
  | neither => exact (arguments heval args).bind fun _ _ hargs => intrinsic name hargs loc
  | @lacking b lacked named =>
    -- the arguments are evaluated in both runs, and then the first one fails
    have hfails : ∀ {κ : List Value → Exec Value}, Sim P P.Sees P.Values
        (do let values ← args.mapM eval; Exec.intrinsic name values loc)
        (do let values ← args.mapM eval'; κ values) := by
      refine (arguments heval args).bind fun values _ _ => ?_
      rw [Exec.intrinsic_of_notMem (named ▸ P.lacks_ordinary lacked)]
      exact .lacking lacked (named ▸ rfl)
    simp only
    split
    · exact hfails
    · exact hfails
    · exact failing lacked rfl
  | @both a b hab =>
    have hsession : Sim P P.Sees P.Values
        (do let values ← args.mapM eval; Exec.instantiate limit eval call name values loc)
        (do let values ← args.mapM eval'; Exec.instantiate limit eval' call' name values loc) :=
      (arguments heval args).bind fun _ _ hargs => instantiate limit heval hcall name hargs loc
    simp only [hab.kind]
    obtain ⟨ha, hb⟩ | ⟨_, _, ha, hb, hvw⟩ := relates_or_none hab.value <;> rw [ha, hb]
    · cases b.kind with
      | session => exact hsession
      | _ => exact fail rfl
    · cases hvw with
      | suggestion hdecl =>
        exact (arguments heval args).bind fun _ _ hargs => (hcall hdecl hargs none loc).anywhere
      | number | text | boolean | array | record | session | null =>
        cases b.kind with
        | session => exact hsession
        | _ => exact fail rfl

theorem callValue (callee : Expr) (args : List Expr) (loc : Location) :
    Sim P P.Sees P.Values (callValue eval call callee args loc)
      (callValue eval' call' callee args loc) := by
  refine (heval callee).bind fun _ _ h => ?_
  cases h with
  | suggestion hdecl =>
    exact (arguments heval args).bind fun _ _ hargs => (hcall hdecl hargs none loc).anywhere
  | number | text | boolean | array | record | session | null => exact fail rfl

theorem callExpr (callee : Expr) (args : List Expr) (loc : Location) :
    Sim P P.Sees P.Values (callExpr limit eval call callee args loc)
      (callExpr limit eval' call' callee args loc) := by
  cases callee with
  | field object member _ => exact callMember heval hcall object member args loc
  | name name _ => exact callName limit heval hcall name args loc
  | _ => exact callValue heval hcall _ args loc

end

/-! ## One step -/

theorem nameValue (name : String) (loc : Location) :
    Sim P P.Sees P.Values (nameValue name loc) (nameValue name loc) := by
  refine (resolve? name).bind fun _ _ h => ?_
  cases h with
  | neither => exact fail rfl
  | lacking lacked named => exact lacking lacked (named ▸ rfl)
  | @both a b hab =>
    simp only [hab.kind]
    obtain ⟨ha, hb⟩ | ⟨_, _, ha, hb, hvw⟩ := relates_or_none hab.value <;> rw [ha, hb]
    · cases b.kind with
      | record => exact fail rfl
      | _ => exact pure .null
    · exact pure hvw

/-- **One step of evaluation keeps evaluation related.** -/
theorem evalStep (limit : Nat) (heval : Evaluators P eval eval') (hcall : Callers P call call') :
    Evaluators P (Exec.evalStep limit eval call) (Exec.evalStep limit eval' call') := by
  intro expr
  cases expr with
  | number n _ => exact pure (.number n)
  | text s _ => exact pure (.text s)
  | boolean b _ => exact pure (.boolean b)
  | name name loc => exact nameValue name loc
  | binary op left right loc =>
    have hboth : Sim P P.Sees P.Values
        (do let l ← eval left; let r ← eval right; Exec.ofExcept (op.apply l r loc))
        (do let l ← eval' left; let r ← eval' right; Exec.ofExcept (op.apply l r loc)) :=
      (heval left).bind fun _ _ hl => (heval right).bind fun _ _ hr => ofExcept (hl.binary hr op loc)
    cases op with
    | conj =>
      refine (heval left).bind fun _ _ hl => ?_
      rw [hl.truthy]
      split
      · exact (heval right).bind fun _ _ hr => pure (hr.truthy ▸ .boolean _)
      · exact pure (.boolean false)
    | disj =>
      refine (heval left).bind fun _ _ hl => ?_
      rw [hl.truthy]
      split
      · exact pure (.boolean true)
      · exact (heval right).bind fun _ _ hr => pure (hr.truthy ▸ .boolean _)
    | _ => exact hboth
  | unary op operand loc => exact (heval operand).bind fun _ _ h => ofExcept (h.unary op loc)
  | call callee args loc => exact callExpr limit heval hcall callee args loc
  | field object member loc => exact (heval object).bind fun _ _ h => memberValue h member _ loc
  | index object index loc =>
    exact (heval object).bind fun _ _ h => (heval index).bind fun _ _ h' => ofExcept (h.at? h' loc)
  | assign target value loc =>
    exact (heval value).bind fun _ _ h => (assign heval target h loc).bind fun _ _ _ => pure h
  | record typeName fields loc => exact buildRecord heval typeName (fun _ expr _ => heval expr) loc
  | array items _ => exact (arguments heval items).bind fun _ _ h => pure (.array h)

end Simulates

end Trance
