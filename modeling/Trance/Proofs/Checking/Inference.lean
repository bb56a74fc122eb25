import Trance.Proofs.Checking.Steps

/-!
# Types are inferred in plain steps

The type of an expression is inferred in steps that look at names and types, and report something.
The only change besides is that a variable without a type can be given one. To infer the type of an
expression is to infer types of its parts, one after the other. -/

namespace Trance

open List Option

namespace Check

/-! ## Inferences -/

/-- Check a field that a record literal gives, if the type of the record is known. -/
def givenTo (record? : Option (String × RecordInfo)) (seen : List String) (field : String)
    (actual : Ty)
    (loc : Location) : Check Unit :=
  match record? with
  | some (typeName, record) => givenField typeName record seen field actual loc
  | none => pure ()

mutual

/-- The inferences of which the inference of a type consists, with that one itself first. -/
def calls (e : Expr) (c : Checker) : List Call :=
  .infer e c ::
    match e with
    | .number .. | .text .. | .boolean .. | .name .. => []
    | .array items _ => callsAll items c
    | .binary _ left right _ | .index left right _ =>
      calls left c ++ calls right (c.after (infer left))
    | .unary _ operand _ | .field operand _ _ => calls operand c
    | .call (.name ..) args _ => callsAll args c
    | .call (.field object _ _) args _ => callsAll args c ++ calls object (c.after (inferAll args))
    | .call callee args _ => callsAll args c ++ calls callee (c.after (inferAll args))
    | .assign target value _ =>
      calls value c ++
        match target with
        | .field .. | .index .. => calls target (c.after (infer value))
        | _ => []
    | .record typeName fields _ =>
      callsFields ((c.records.find? typeName).map (typeName, ·)) [] fields c

def callsAll (exprs : List Expr) (c : Checker) : List Call :=
  match exprs with
  | [] => []
  | e :: rest => calls e c ++ callsAll rest (c.after (infer e))

def callsFields (record? : Option (String × RecordInfo)) (seen : List String)
    (fields : List (String × Expr))
    (c : Checker) : List Call :=
  match fields with
  | [] => []
  | (field, value) :: rest =>
    calls value c ++ callsFields record? (field :: seen) rest
      (c.after do givenTo record? seen field (← infer value) value.location)

end

end Check

namespace Terms

open Check

variable {T : Terms} {p : Prop} {k : Nat}

/-! ## Names and types -/

variable {name : String} {type : Ty}

theorem Sound.lookup? {c : Checker} (hc : T.Sound c) (h : c.lookup? name = some type) :
    (T.Mentions name → T.infers type) ∧ T.Resolves name := by
  unfold Checker.lookup? at h
  cases hbuiltin : Ty.builtin? name with
  | some found =>
    rw [hbuiltin] at h
    cases h
    exact ⟨fun hname => hname _ hbuiltin, .inl (by rw [hbuiltin]; rfl)⟩
  | none =>
    simp only [hbuiltin] at h
    split at h
    · rename_i hhas
      obtain ⟨info, hinfo⟩ := isSome_iff_exists.1 hhas
      have htype := (hc.sessions _ (Table.mem_of_find? hinfo)).1
      cases h
      exact ⟨fun _ => T.known htype, .inr (.inl htype)⟩
    · split at h
      · rename_i hhas
        obtain ⟨info, hinfo⟩ := isSome_iff_exists.1 hhas
        have htype := (hc.records _ (Table.mem_of_find? hinfo)).1
        cases h
        exact ⟨fun _ => T.known htype, .inr (.inr (.inl htype))⟩
      · cases h

theorem looks_resolve? (name : String) :
    T.Looks p k (fun symbol? => ∀ symbol, symbol? = some symbol → T.Fits symbol ∧
      symbol.name = name) (resolve? name) :=
  .lookAt (fun h => by rw [h.resolve?]) fun _ => .pure _ fun hc _ hfound =>
    hc.2.scopes.resolve? hfound

theorem lookupType_eq (name : String) : lookupType name = do return (← get).lookup? name := by
  unfold lookupType Checker.lookup?
  refine congrArg (get >>= ·) (funext fun c => ?_)
  cases Ty.builtin? name with
  | some type => rfl
  | none =>
    simp only
    split
    · rfl
    · split <;> rfl

theorem looks_typeNamed (name : String) :
    T.Looks p k (fun type => T.writes name → T.infers type) (typeNamed name) := by
  unfold typeNamed
  rw [lookupType_eq]
  exact .lookAt (fun h => by rw [h.lookup?]) fun c => .pure _ fun hc => hc.2.written name

theorem looks_typeWritten (h : p → T.writes name) : T.Looks p k T.infers (typeNamed name) :=
  (looks_typeNamed name).mono fun _ hp htype => htype (h hp)

theorem looks_resolveType (name : String) (loc : Location) :
    T.Looks p k (fun type => (T.Mentions name → T.infers type) ∧ T.Resolves name)
      (resolveType name loc) := by
  unfold resolveType
  rw [lookupType_eq]
  refine .lookAt (fun h => by simp only [h.lookup?]) fun c => ?_
  cases hfound : c.lookup? name with
  | some type => exact .pure _ fun hc => hc.2.lookup? hfound
  | none =>
    refine .before (Q := fun _ => (T.Mentions name → T.infers .unknown) ∧ T.Resolves name)
      (.report rfl loc ?_) fun _ => .pure _ And.right
    rintro - ⟨_, _, hclean⟩
    exact ⟨fun _ => T.unknown hclean, .inr (.inr (.inr ⟨_, rfl, _, _, hclean⟩))⟩

theorem looks_returnType {decl : Suggestion} (h : p → T.Declares decl) :
    T.Looks p k T.infers (returnType decl) := by
  unfold returnType
  refine .ite (fun _ => .pure _ fun _ => T.basic rfl) fun _ => ?_
  cases hname : decl.returnType with
  | some name => exact looks_typeWritten fun hp => (h hp).returnType name hname
  | none => exact .pure _ fun _ => T.basic rfl

theorem looks_paramType {param : Param} (h : p → ∀ name ∈ param.typeName, T.writes name) :
    T.Looks p k T.infers (paramType param) := by
  unfold paramType
  cases hname : param.typeName with
  | some name => exact looks_typeWritten fun hp => h hp name hname
  | none => exact .pure _ fun _ => T.basic rfl

theorem looks_nameType (name : String) (loc : Location) :
    T.Looks p k T.infers (nameType name loc) := by
  refine .before (looks_resolve? name) fun symbol? => ?_
  cases symbol? with
  | none => exact .fail rfl loc
  | some symbol =>
    simp only
    cases symbol.kind with
    | suggestion | builtin | module => exact .pure _ fun _ => T.basic rfl
    | label => exact .fail rfl loc
    | _ =>
      cases hname : symbol.typeName with
      | some typeName =>
        exact looks_typeWritten fun hp => (hp.2 symbol rfl).1.typeName typeName hname
      | none => exact .fail rfl loc

/-! ## Operators -/

theorem basic_arithmeticType (op : BinaryOp) (left right : Ty) :
    (arithmeticType op left right).isBuiltIn = true := by
  unfold arithmeticType
  split
  · split <;> rfl
  · rfl
  · rfl

section

variable {left right : Ty} (hleft : p → T.infers left) (hright : p → T.infers right)
include hleft hright

theorem looks_arithmetic (op : BinaryOp) (loc : Location) :
    T.Looks p k T.infers (arithmetic op left right loc) := by
  unfold arithmetic
  refine .ite (fun hunknown => .pure _ fun hp => ?_) fun _ =>
    .ite (fun _ => .pure _ fun _ => T.basic (basic_arithmeticType ..)) fun _ => .fail rfl loc
  rw [Bool.or_eq_true, decide_eq_true_eq, decide_eq_true_eq] at hunknown
  obtain rfl | rfl := hunknown
  · exact hleft hp
  · exact hright hp

theorem looks_binaryType (op : BinaryOp) (loc : Location) :
    T.Looks p k T.infers (binaryType op left right loc) := by
  have hbasic {type : Ty} (h : type.isBuiltIn = true) : T.Looks p k T.infers (pure type) :=
    .pure _ fun _ => T.basic h
  cases op with
  | eq | ne => exact hbasic rfl
  | add => exact .ite (fun _ => hbasic rfl) fun _ => looks_arithmetic hleft hright _ loc
  | sub | mul | div | mod => exact looks_arithmetic hleft hright _ loc
  | lt | le | gt | ge | conj | disj =>
    exact .before (.reportIf _ rfl loc) fun _ => .pure _ fun _ => T.basic rfl

end

theorem looks_unaryType (op : UnaryOp) {operand : Ty} (h : p → T.infers operand) (loc : Location) :
    T.Looks p k T.infers (unaryType op operand loc) := by
  cases op with
  | not => exact .before (.reportIf _ rfl loc) fun _ => .pure _ fun _ => T.basic rfl
  | neg | plus =>
    exact .ite (fun hunknown => .pure _ (hunknown ▸ h)) fun _ => .ite (fun _ => .pure _ h) fun _ =>
      .fail rfl loc

theorem looks_indexType {object : Ty} (h : p → T.infers object) (index : Ty) (loc : Location) :
    T.Looks p k T.infers (indexType object index loc) := by
  refine .before (.reportIf _ rfl loc) fun _ => ?_
  cases object with
  | array | any | text => exact .pure _ fun _ => T.basic rfl
  | unknown => exact .pure _ fun hp => h hp.1
  | _ => exact .fail rfl loc

/-! ## Members and calls -/

/-- A member of a value of a type. Where there is none, nothing is known about the type or it is
reported. -/
def Reaches (T : Terms) (type : Ty) : Option MemberKind → Prop
  | some kind => T.Holds kind
  | none => type = .any ∨ T.infers .unknown

theorem looks_noMember {finding : Finding} (h : finding.code.isJump = false) (loc : Location) :
    T.Looks p k (T.Reaches type) (do report finding loc; return none) :=
  .before (Q := fun _ => T.infers .unknown) (.report h loc fun _ ⟨_, _, hclean⟩ => T.unknown hclean)
    fun _ => .pure _ fun hp => .inr hp.2

theorem looks_sessionMember? (object : Expr) (session member : String) (loc : Location) :
    T.Looks p k (T.Reaches (.session session)) (sessionMember? object session member loc) := by
  refine .lookAt (fun h => by simp only [h.session?]) fun c => ?_
  cases hfound : (c.sessions.find? session).bind (·.members.find? member) with
  | none => exact looks_noMember rfl loc
  | some info =>
    have hholds (hc : T.Sound c) : T.Holds info.kind := by
      obtain ⟨all, hall, hinfo⟩ := bind_eq_some_iff.1 hfound
      exact (hc.sessions _ (Table.mem_of_find? hall)).2 _ (Table.mem_of_find? hinfo)
    have hreached (byName : Bool) {q : Prop} (hq : q → T.Sound c) :
        T.Looks q k (T.Reaches (.session session)) (if byName && !info.dominant then do
          report (.notDominant member session) loc
          return none
        else do
          reportIf (!info.exposed && !object.isThis) (.concealed member session) loc
          return some info.kind) :=
      .ite (fun _ => looks_noMember rfl loc) fun _ => .before (.reportIf _ rfl loc) fun _ =>
        .pure _ fun hp => hholds (hq hp.1)
    cases object with
    | name name _ =>
      exact .before (looks_resolve? name) fun _ => .before (.skip _) fun byName =>
        hreached byName (·.1.1.2)
    | _ => exact .before (.skip false) fun byName => hreached byName (·.1.2)

theorem looks_member? (object : Expr) (h : p → T.infers type) (member : String) (loc : Location) :
    T.Looks p k (T.Reaches type) (member? object type member loc) := by
  cases type with
  | session session => exact looks_sessionMember? object session member loc
  | record record =>
    refine .lookAt (fun h => by simp only [h.record?]) fun c => ?_
    cases hfound : (c.records.find? record).bind (Table.find? · member) with
    | some type =>
      obtain ⟨all, hall, htype⟩ := bind_eq_some_iff.1 hfound
      exact .pure _ fun hc => (hc.2.records _ (Table.mem_of_find? hall)).2 _
        (Table.mem_of_find? htype)
    | none => exact looks_noMember rfl loc
  | any => exact .pure _ fun _ => .inl rfl
  | unknown => exact .pure _ fun hp => .inr (h hp)
  | _ => exact looks_noMember rfl loc

theorem infers_unknownMember (h : T.Reaches type none) : T.infers (unknownMember type) := by
  unfold unknownMember
  split
  · exact T.basic rfl
  · exact h.resolve_left ‹_›

theorem looks_memberType (object : Expr) (h : p → T.infers type) (member : String)
    (loc : Location) : T.Looks p k T.infers (memberType object type member loc) := by
  refine .before (looks_member? object h member loc) fun kind? => ?_
  cases kind? with
  | none => exact .pure _ fun hp => infers_unknownMember hp.2
  | some kind =>
    cases kind with
    | field type => exact .pure _ And.right
    | method decl => exact .pure _ fun _ => T.basic rfl

theorem looks_argumentTypes (name : String) (loc : Location) (position : Nat)
    {args : List (Param × Ty)} (h : p → ∀ arg ∈ args, ∀ name ∈ arg.1.typeName, T.writes name) :
    T.Goes p k (argumentTypes name loc position args) := by
  induction args generalizing position p with
  | nil => exact .skip _
  | cons arg rest ih =>
    exact .before (looks_paramType fun hp => (forall_mem_cons.1 (h hp)).1) fun _ =>
      .before (.reportIf _ rfl loc) fun _ => ih (position + 1) fun hp =>
        (forall_mem_cons.1 (h hp.1.1)).2

theorem looks_suggestionCall {decl : Suggestion} (h : p → T.Declares decl) (args : List Ty)
    (loc : Location) : T.Looks p k T.infers (suggestionCall decl args loc) := by
  have hargs (hp : p) : ∀ arg ∈ decl.params.zip args, ∀ name ∈ arg.1.typeName, T.writes name :=
    fun arg harg => (h hp).params arg.1 (of_mem_zip harg).1
  unfold suggestionCall
  split
  · exact .before (looks_argumentTypes _ loc _ hargs) fun _ => looks_returnType fun hp => h hp.1
  · exact .before (.tell rfl loc) fun _ => looks_returnType fun hp => h hp.1

theorem looks_valueCall {finding : Ty → Finding} (h : ∀ type, (finding type).code.isJump = false)
    (type : Ty) (loc : Location) : T.Looks p k T.infers (valueCall finding type loc) :=
  .before (.reportIf _ (h type) loc) fun _ => .pure _ fun _ => T.basic rfl

theorem looks_sessionCall (h : p → T.types (.session name)) (args : List Ty) (loc : Location) :
    T.Looks p k T.infers (sessionCall name args loc) :=
  .lookAt (fun h => by simp only [h.session?]) fun _ => .before (.reportIf _ rfl loc) fun _ =>
    .pure _ fun hp => T.known (h hp.1.1)

theorem basic_returnType? (h : Builtin.returnType? name = some type) : type.isBuiltIn = true := by
  have hcatalog : ∀ entry ∈ Builtin.catalog, entry.1.isBuiltIn = true := by decide
  obtain ⟨entry, hentry, rfl⟩ := map_eq_some_iff.1 h
  exact hcatalog entry (mem_of_find?_eq_some hentry)

theorem looks_namedCall (name : String) (args : List Ty) (loc : Location) :
    T.Looks p k T.infers (namedCall name args loc) := by
  refine .before (looks_resolve? name) fun symbol? => ?_
  cases symbol? with
  | none =>
    simp only
    cases hbuiltin : Builtin.returnType? name with
    | some type => exact .pure _ fun _ => T.basic (basic_returnType? hbuiltin)
    | none => exact .fail rfl loc
  | some symbol =>
    simp only
    split
    · rename_i hvalue
      exact looks_suggestionCall (fun hp => (hp.2 symbol rfl).1.value _ hvalue) args loc
    · rename_i hkind
      refine looks_sessionCall (fun hp => ?_) args loc
      obtain ⟨hfits, rfl⟩ := hp.2 symbol rfl
      exact hfits.session hkind
    · rename_i hkind
      refine .before (.tell rfl loc) fun _ => .pure _ fun hp => ?_
      obtain ⟨hfits, rfl⟩ := hp.1.2 symbol rfl
      exact T.known (hfits.record hkind)
    · cases symbol.typeName with
      | some typeName =>
        exact .before (looks_typeNamed typeName) fun type => looks_valueCall (fun _ => rfl) type loc
      | none => exact .before (.skip _) fun type => looks_valueCall (fun _ => rfl) type loc

theorem looks_memberCall (object : Expr) (h : p → T.infers type) (member : String) (args : List Ty)
    (loc : Location) : T.Looks p k T.infers (memberCall object type member args loc) := by
  refine .before (looks_member? object h member loc) fun kind? => ?_
  cases kind? with
  | none => exact .pure _ fun hp => infers_unknownMember hp.2
  | some kind =>
    cases kind with
    | method decl => exact looks_suggestionCall And.right args loc
    | field type => exact .ite (fun _ => .pure _ And.right) fun _ => .fail rfl loc

/-! ## Expressions -/

theorem assignName_eq (name : String) (nameLoc : Location) (value : Ty) (loc : Location) :
    assignName name nameLoc value loc = (do
      match ← resolve? name with
      | none => report (.undefinedVariable name) nameLoc
      | some symbol =>
        if symbol.kind ≠ .variable && symbol.kind ≠ .parameter then report (.cannotAssign name) loc
        else
          match symbol.typeName with
          | some typeName =>
            let target ← typeNamed typeName
            reportIf (!target.compatible value) (.assignMismatch value name target) loc
          | none => giveType name value.name) := by
  refine StateT.ext fun c => ?_
  simp only [assignName, resolve?, StateT.run_bind, StateT.run_get, StateT.run_pure, pure_bind]
  cases hfound : c.scopes.resolve? name with
  | none => rfl
  | some symbol =>
    simp only
    split
    · rfl
    · cases htype : symbol.typeName with
      | some typeName => rfl
      | none =>
        simp only [giveType, StateT.run_modify, hfound, any_some, htype, isNone_none, if_true]

theorem looks_assignName (name : String) (nameLoc : Location) {value : Ty} (h : p → T.infers value)
    (loc : Location) : T.Goes p k (assignName name nameLoc value loc) := by
  rw [assignName_eq]
  refine .before (looks_resolve? name) fun symbol? => ?_
  cases symbol? with
  | none => exact .tell rfl nameLoc
  | some symbol =>
    refine .ite (fun _ => .tell rfl loc) fun _ => ?_
    cases symbol.typeName with
    | some typeName => exact .before (looks_typeNamed typeName) fun _ => .reportIf _ rfl loc
    | none => exact .giveType name fun hp => T.named (h hp.1)

theorem looks_givenField (typeName : String) (record : RecordInfo) (seen : List String)
    (field : String)
    (actual : Ty) (loc : Location) :
    T.Goes p k (givenField typeName record seen field actual loc) := by
  unfold givenField
  refine .ite (fun _ => .tell rfl loc) fun _ => ?_
  cases record.find? field with
  | some expected => exact .reportIf _ rfl loc
  | none => exact .tell rfl loc

theorem every_builds (h : T.Tolerates) (e : Expr) : e.Every T.Builds := by
  induction e using Expr.induction_children with
  | h e ih =>
    refine .intro ?_ ih
    cases e with
    | record => exact .inr h
    | _ => exact trivial

/-- What is true of the type of an expression, and of all record literals inside. -/
def Infers (T : Terms) (e : Expr) (type : Ty) : Prop := T.infers type ∧ e.Every T.Builds

mutual

/-- **Types are inferred in plain steps.** -/
theorem plain_infer : ∀ (e : Expr) {p : Prop}, T.Plain p k (T.Infers e) (infer e) (calls e)
  | .number .., _ | .text .., _ | .boolean .., _ =>
    .infer (.pure _ fun _ => ⟨T.basic rfl, .intro trivial nofun⟩)
  | .name name loc, _ =>
    .infer ((looks_nameType name loc).mono fun _ _ h => ⟨h, .intro trivial nofun⟩)
  | .array items _, _ =>
    .infer (.before (plain_inferAll items) fun _ => .pure _ fun h =>
      ⟨T.basic rfl, .intro trivial h.2⟩)
  | .binary op left right loc, _ =>
    .infer (.andThen (plain_infer left) fun _ => .before (plain_infer right) fun _ =>
      (looks_binaryType (·.1.2.1) (·.2.1) op loc).mono fun _ hp h =>
        ⟨h, .intro trivial (forall_mem_cons.2 ⟨hp.1.2.2, forall_mem_singleton.2 hp.2.2⟩)⟩)
  | .unary op operand loc, _ =>
    .infer (.before (plain_infer operand) fun _ =>
      (looks_unaryType op (·.2.1) loc).mono fun _ hp h =>
      ⟨h, .intro trivial (forall_mem_singleton.2 hp.2.2)⟩)
  | .call (.name name _) args loc, _ =>
    .infer (.before (plain_inferAll args) fun _ => (looks_namedCall name _ loc).mono fun _ hp h =>
      ⟨h, .intro trivial (forall_mem_cons.2 ⟨.intro trivial nofun, hp.2⟩)⟩)
  | .call (.field object member _) args loc, _ =>
    .infer (.andThen (plain_inferAll args) fun _ => .before (plain_infer object) fun _ =>
      (looks_memberCall object (·.2.1) member _ loc).mono fun _ hp h =>
        ⟨h, .intro trivial (forall_mem_cons.2
        ⟨.intro trivial (forall_mem_singleton.2 hp.2.2), hp.1.2⟩)⟩)
  | .call (.number ..) args loc, _ | .call (.text ..) args loc, _ | .call (.boolean ..) args loc, _
  | .call (.array ..) args loc, _ | .call (.binary ..) args loc, _ | .call (.unary ..) args loc, _
  | .call (.call ..) args loc, _ | .call (.index ..) args loc, _ | .call (.assign ..) args loc, _
  | .call (.record ..) args loc, _ =>
    .infer (.andThen (plain_inferAll args) fun _ => .before (plain_infer _) fun _ =>
      (looks_valueCall (fun _ => rfl) _ loc).mono fun _ hp h =>
        ⟨h, .intro trivial (forall_mem_cons.2 ⟨hp.2.2, hp.1.2⟩)⟩)
  | .field object member loc, _ =>
    .infer (.before (plain_infer object) fun _ =>
      (looks_memberType object (·.2.1) member loc).mono fun _ hp h =>
      ⟨h, .intro trivial (forall_mem_singleton.2 hp.2.2)⟩)
  | .index object index loc, _ =>
    .infer (.andThen (plain_infer object) fun _ => .before (plain_infer index) fun _ =>
      (looks_indexType (·.1.2.1) _ loc).mono fun _ hp h =>
        ⟨h, .intro trivial (forall_mem_cons.2 ⟨hp.1.2.2, forall_mem_singleton.2 hp.2.2⟩)⟩)
  | .assign target value loc, p => by
    have hall {type : Ty} (h : T.Infers value type) (htarget : target.Every T.Builds) :
        T.Infers (.assign target value loc) type :=
      ⟨h.1, .intro trivial (forall_mem_cons.2 ⟨htarget, forall_mem_singleton.2 h.2⟩)⟩
    have htarget {p : Prop} := plain_infer target (p := p)
    cases target with
    | name name at' =>
      have hrest (type : Ty) :
          T.Looks (p ∧ T.Infers value type) k (T.Infers (.assign (.name name at') value loc))
            (do assignName name at' type loc; return type) :=
        .before (looks_assignName name at' (·.2.1) loc) fun _ => .pure _ fun hp =>
          hall hp.1.2 (.intro trivial nofun)
      exact .infer (.bind (plain_infer value) hrest)
    | field | index =>
      exact .infer (.andThen (plain_infer value) fun _ => .before htarget fun _ => .before
        (.reportIf _ rfl loc) fun _ =>
        .pure _ fun hp => hall hp.1.1.2 hp.1.2.2)
    | _ =>
      have hrest (type : Ty) : T.Looks (p ∧ T.Infers value type) k (T.Infers (.assign _ value loc))
          (do report .invalidTarget loc; return type) :=
        .before (Q := fun _ => T.Tolerates) (.report rfl loc fun _ hallows => ⟨_, rfl, hallows⟩)
          fun _ => .pure _ fun hp => hall hp.1.2 (every_builds hp.2 _)
      exact .infer (.bind (plain_infer value) hrest)
  | .record typeName fields loc, p => by
    have hfields (c : Checker) : T.Plain (p ∧ T.Sound c) k (T.Infers (.record typeName fields loc))
        (match c.records.find? typeName with
        | some record => do
          inferFields (some (typeName, record)) [] fields
          return .record typeName
        | none => do
          inferFields none [] fields
          report (.unknownTranceify typeName) loc
          return .unknown)
            (callsFields ((c.records.find? typeName).map (typeName, ·)) [] fields) := by
      cases hfound : c.records.find? typeName with
      | some record =>
        refine .before (plain_inferFields _ _ fields) fun _ => .pure _ fun hp => ?_
        have htype := (hp.1.2.records _ (Table.mem_of_find? hfound)).1
        exact ⟨T.known htype, .intro (.inl htype) hp.2⟩
      | none =>
        refine .before (plain_inferFields _ _ fields) fun _ => .before
          (Q := fun _ => T.Infers (.record typeName fields loc) .unknown)
            (.report rfl loc ?_) fun _ => .pure _ And.right
        rintro hp ⟨_, _, hclean⟩
        exact ⟨T.unknown hclean, .intro (.inr ⟨_, rfl, _, _, hclean⟩) hp.2⟩
    exact .infer (.look (fun h => by simp only [h.record?]) hfields)

theorem plain_inferAll : ∀ (exprs : List Expr) {p : Prop},
    T.Plain p k (fun _ => ∀ e ∈ exprs, e.Every T.Builds) (inferAll exprs) (callsAll exprs)
  | [], _ => .pure _ fun _ => nofun
  | e :: rest, _ =>
    .andThen (plain_infer e) fun _ => .before (plain_inferAll rest) fun _ =>
      .pure _ fun hp => forall_mem_cons.2 ⟨hp.1.2.2, hp.2⟩

theorem plain_inferFields (record? : Option (String × RecordInfo)) :
    ∀ (seen : List String) (fields : List (String × Expr)) {p : Prop},
    T.Plain p k (fun _ => ∀ e ∈ fields.map Prod.snd, e.Every T.Builds)
      (inferFields record? seen fields) (callsFields record? seen fields)
  | _, [], _ => .pure _ fun _ => nofun
  | seen, (field, value) :: rest, _ => by
    have hrest {p : Prop} := plain_inferFields record? (field :: seen) rest (p := p)
    cases record? with
    | some record =>
      exact .andThen (plain_infer value) fun _ => .after (looks_givenField ..) fun _ =>
        hrest.mono fun _ hp hrest => forall_mem_cons.2 ⟨hp.1.2.2, hrest⟩
    | none =>
      exact .andThen (plain_infer value) fun _ => .after (.skip ()) fun _ =>
        hrest.mono fun _ hp hrest => forall_mem_cons.2 ⟨hp.1.2.2, hrest⟩

end

end Terms

end Trance
