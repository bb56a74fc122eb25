import Trance.Proofs.Jumps.Checked

/-!
# Checks with clean states

Where a check ends in a clean state, its states have been clean all the time. So on some terms each
of its steps keeps the state sound, and what is asked of results is true of them. -/

namespace Trance

open Check List

namespace Terms

variable {T : Terms} {c : Checker}

/-! ## Sound states -/

theorem Stands.withScopes (hc : T.Stands c) {s : Scopes} (hs : s.All T.Fits) :
    T.Stands { c with scopes := s } :=
  ⟨hs, hc.sessions, hc.records⟩

theorem Sound.withScopes (hc : T.Sound c) {s : Scopes} (hs : s.All T.Fits) :
    T.Sound { c with scopes := s } :=
  ⟨hc.toStands.withScopes hs, hc.written⟩

theorem Sound.congr (hc : T.Sound c) {c' : Checker} (hscopes : c'.scopes = c.scopes)
    (hsessions : c'.sessions = c.sessions)
    (hrecords : c'.records = c.records) : T.Sound c' := by
  obtain ⟨scopes, sessions, records, _, _, _, _⟩ := c
  obtain ⟨_, _, _, _, _, _, _⟩ := c'
  simp only at hscopes hsessions hrecords
  subst hscopes hsessions hrecords
  exact ⟨⟨hc.scopes, hc.sessions, hc.records⟩, hc.written⟩

theorem Fits.retype {symbol : Symbol} (h : T.Fits symbol) {typeName : String}
    (hname : T.writes typeName) : T.Fits { symbol with typeName := some typeName } :=
  ⟨by rintro _ ⟨⟩; exact hname, h.session, h.record, h.value⟩

variable {type : Ty} {name : String}

theorem Fits.symbol (hname : T.writes type.name) (htype : T.types type) : T.Fits type.symbol := by
  refine ⟨by rintro _ ⟨⟩; exact hname, fun hkind => ?_, fun hkind => ?_, nofun⟩
  · cases type with
    | session name => exact htype
    | _ => cases hkind
  · cases type with
    | record name => exact htype
    | _ => cases hkind

theorem lookup?_know (name : String) (info : SessionInfo) (other : String) :
    { c with sessions := c.sessions.insert name info }.lookup? other = c.lookup? other ∨
    { c with sessions := c.sessions.insert name info }.lookup? other = some (.session name) := by
  unfold Checker.lookup?
  cases Ty.builtin? other with
  | some type => exact .inl rfl
  | none =>
    by_cases hname : name = other
    · exact .inr (by simp [Table.has_insert, hname])
    · exact .inl (by simp [Table.has_insert, hname])

theorem lookup?_knowRecord (name : String) (info : RecordInfo) (other : String) :
    { c with records := c.records.insert name info }.lookup? other = c.lookup? other ∨
    { c with records := c.records.insert name info }.lookup? other = some (.record name) := by
  unfold Checker.lookup?
  cases Ty.builtin? other with
  | some type => exact .inl rfl
  | none =>
    by_cases hsession : c.sessions.has other = true
    · exact .inl (by simp [hsession])
    · by_cases hname : name = other
      · exact .inr (by simp [Table.has_insert, hname, hsession])
      · exact .inl (by simp [Table.has_insert, hname])

theorem Stands.know (hc : T.Stands c) {info : SessionInfo} (htype : T.types (.session name))
    (hinfo : ∀ member ∈ info.members, T.Holds member.2.kind) :
    T.Stands { c with sessions := c.sessions.insert name info } := by
  refine ⟨hc.scopes, fun entry hentry => ?_, hc.records⟩
  obtain rfl | hold := Table.mem_insert hentry
  · exact ⟨htype, hinfo⟩
  · exact hc.sessions entry hold

theorem Sound.know (hc : T.Sound c) {info : SessionInfo} (htype : T.types (.session name))
    (hinfo : ∀ member ∈ info.members, T.Holds member.2.kind) :
    T.Sound { c with sessions := c.sessions.insert name info } := by
  refine ⟨hc.toStands.know htype hinfo, fun other hother => ?_⟩
  obtain hsame | hnew := lookup?_know (c := c) name info other
  · exact hsame ▸ hc.written other hother
  · exact hnew ▸ T.known htype

theorem Stands.knowRecord (hc : T.Stands c) {info : RecordInfo} (htype : T.types (.record name))
    (hinfo : ∀ field ∈ info, T.infers field.2) :
    T.Stands { c with records := c.records.insert name info } := by
  refine ⟨hc.scopes, hc.sessions, fun entry hentry => ?_⟩
  obtain rfl | hold := Table.mem_insert hentry
  · exact ⟨htype, hinfo⟩
  · exact hc.records entry hold

theorem Sound.knowRecord (hc : T.Sound c) {info : RecordInfo} (htype : T.types (.record name))
    (hinfo : ∀ field ∈ info, T.infers field.2) :
    T.Sound { c with records := c.records.insert name info } := by
  refine ⟨hc.toStands.knowRecord htype hinfo, fun other hother => ?_⟩
  obtain hsame | hnew := lookup?_knowRecord (c := c) name info other
  · exact hsame ▸ hc.written other hother
  · exact hnew ▸ T.known htype

theorem has_learn (type : Ty) (c : Checker) : (c.learn type).has type = true := by
  cases type with
  | session name | record name => exact (Table.has_insert ..).trans (by simp)
  | _ => rfl

theorem Stands.learn (hc : T.Stands c) (htype : T.types type) : T.Stands (c.learn type) := by
  cases type with
  | session name => exact hc.know htype nofun
  | record name => exact hc.knowRecord htype nofun
  | _ => exact hc

theorem Sound.learn (hc : T.Sound c) (htype : T.types type) : T.Sound (c.learn type) := by
  cases type with
  | session name => exact hc.know htype nofun
  | record name => exact hc.knowRecord htype nofun
  | _ => exact hc

/-! ## Steps -/

theorem after_introduce (c : Checker) (type : Ty) (loc : Location) :
    (c.scopes.define? type.symbol = none ∧
    c.after (introduce type loc) =
      { c with report := c.report.add (type.redeclared.diagnose loc) }) ∨
    ∃ s, c.scopes.define? type.symbol = some s ∧
      c.after (introduce type loc) = Checker.learn type { c with scopes := s } := by
  have hrun : c.after (introduce type loc) =
      (((if ((define type.symbol).run c).1 then modify (Checker.learn type)
      else report type.redeclared loc) : Check Unit).run ((define type.symbol).run c).2).2 := rfl
  rw [hrun]
  cases hdefine : c.scopes.define? type.symbol with
  | none => exact .inl ⟨rfl, by rw [run_define_none hdefine]; rfl⟩
  | some s => exact .inr ⟨s, rfl, by rw [run_define_some hdefine]; rfl⟩

variable {α : Type} {p : Prop} {k : Nat} {Q : α → Prop} {x y : Check α}
  {jumps : Context → List (Code × Location)} {calls : Checker → List Call}

theorem Made.between (h : T.Made p k Q x y jumps calls) (hlinks : ¬T.links) (c : Checker) :
    ∀ call ∈ calls c, c.Before call.checker ∧ call.after.Before (c.after x) := by
  induction h generalizing c with
  | @bind p k α β Q R x y f g jumps jumps' calls calls' hx hf ihx ihf =>
    have hfirst := ((hx.growing fun h => absurd h hlinks).grows c).toBefore
    have hsecond := (((hf (x.run c).1).growing fun h => absurd h hlinks).grows (c.after x)).toBefore
    refine forall_mem_append.2 ⟨fun call hcall => ?_, fun call hcall => ?_⟩
    · obtain ⟨hstart, hend⟩ := ihx c call hcall
      exact ⟨hstart, hend.trans hsecond⟩
    · obtain ⟨hstart, hend⟩ := ihf (x.run c).1 (c.after x) call hcall
      exact ⟨hfirst.trans hstart, hend⟩
  | look _ _ ih => exact ih c c
  | inFrame kind _ ih =>
    intro call hcall
    obtain ⟨hstart, hend⟩ := ih { c with scopes := c.scopes.enter kind } call hcall
    exact ⟨⟨hstart.errors, hstart.warnings, hstart.known⟩, ⟨hend.errors, hend.warnings, hend.known⟩⟩
  | @inContext _ _ _ _ _ _ _ _ enter _ _ _ ih =>
    intro call hcall
    obtain ⟨hstart, hend⟩ := ih { c with context := enter c.context } call hcall
    exact ⟨⟨hstart.errors, hstart.warnings, hstart.known⟩, ⟨hend.errors, hend.warnings, hend.known⟩⟩
  | infer _ ih | induce _ ih => exact forall_mem_cons.2 ⟨⟨.refl c, .refl _⟩, ih c⟩
  | _ => exact nofun

/-- **A check keeps to its terms as long as its states are clean.** -/
theorem Made.settles (h : T.Made p k Q x y jumps calls) (hlinks : ¬T.links) (hp : p)
    (hc : T.Sound c) : (T.clean (c.after x) → T.Sound (c.after x) ∧ Q (x.run c).1) ∧
    ∀ call ∈ calls c, T.clean call.checker → T.Sound call.checker := by
  induction h generalizing c with
  | pure a h => exact ⟨fun _ => ⟨hc, h hp⟩, nofun⟩
  | @bind p k α β Q R x y f g jumps jumps' calls calls' hx hf ihx ihf =>
    -- what is known stays known, so an earlier state was clean too
    have hgrows := ((hf (x.run c).1).growing fun h => absurd h hlinks).grows (c.after x)
    obtain ⟨hfirst, hcalls⟩ := ihx hp hc
    refine ⟨fun hclean => ?_, forall_mem_append.2 ⟨hcalls, fun call hcall hclean => ?_⟩⟩
    · obtain ⟨hsound, hQ⟩ := hfirst (T.earlier hclean hgrows.toBefore)
      exact (ihf (x.run c).1 ⟨hp, hQ⟩ hsound).1 hclean
    · obtain ⟨hsound, hQ⟩ :=
        hfirst (T.earlier hclean ((hf (x.run c).1).between hlinks (c.after x) call hcall).1)
      exact (ihf (x.run c).1 ⟨hp, hQ⟩ hsound).2 call hcall hclean
  | look _ _ ih => exact ih c ⟨hp, hc⟩ hc
  | report _ loc hQ => exact ⟨fun hclean => ⟨hc.congr rfl rfl rfl, hQ hp ⟨_, _, hclean⟩⟩, nofun⟩
  | @jump p k cond finding _ loc =>
    refine ⟨fun _ => ⟨?_, trivial⟩, nofun⟩
    show T.Sound ((Check.reportIf (cond c.context) finding loc).run c).2
    cases cond c.context with
    | false => exact hc
    | true => exact hc.congr rfl rfl rfl
  | @define p k symbol _ hfits =>
    refine ⟨fun _ => ⟨?_, trivial⟩, nofun⟩
    unfold Checker.after
    cases hdefine : c.scopes.define? symbol with
    | none => exact run_define_none hdefine ▸ hc
    | some s => exact run_define_some hdefine ▸ hc.withScopes (hc.scopes.define? (hfits hp) hdefine)
  | @introduce p k type _ h loc =>
    refine ⟨fun hclean => ⟨?_, trivial⟩, nofun⟩
    obtain ⟨-, hafter⟩ | ⟨s, hdefine, hafter⟩ := after_introduce c type loc
    · exact hafter ▸ hc.congr rfl rfl rfl
    · have hknown := h.1 _ (hafter ▸ hclean) (has_learn type _)
      exact hafter ▸ (hc.withScopes (hc.scopes.define? (.symbol h.2 hknown) hdefine)).learn hknown
  | @giveType p k name typeName h =>
    refine ⟨fun _ => ⟨?_, trivial⟩, nofun⟩
    show T.Sound (if _ then _ else c)
    split
    · refine hc.withScopes ?_
      cases hupdate : c.scopes.update? name fun symbol =>
        { symbol with typeName := some typeName } with
      | none => exact hc.scopes
      | some s => exact hc.scopes.update? (fun _ _ hsymbol => hsymbol.retype (h hp)) hupdate
    · exact hc
  | know htype hinfo =>
    refine ⟨fun hclean => ⟨hc.know (htype _ hclean ?_) (hinfo hp), trivial⟩, nofun⟩
    exact (Table.has_insert ..).trans (by simp)
  | knowRecord htype hinfo =>
    refine ⟨fun hclean => ⟨hc.knowRecord (htype _ hclean ?_) (hinfo hp), trivial⟩, nofun⟩
    exact (Table.has_insert ..).trans (by simp)
  | @inFrame p k α Q x y jumps calls kind hx ih =>
    obtain ⟨hinside, hcalls⟩ := ih hp (hc.withScopes (hc.scopes.enter kind))
    refine ⟨fun hclean => ?_, hcalls⟩
    obtain ⟨hsound, hQ⟩ := hinside (T.earlier hclean ⟨prefix_rfl, prefix_rfl, fun _ h => h⟩)
    exact ⟨hsound.withScopes hsound.scopes.exit, hQ⟩
  | @inContext p k α Q x y jumps calls enter leave back hx ih =>
    have hstart : T.Sound { c with context := enter c.context } := hc.congr rfl rfl rfl
    obtain ⟨hinside, hcalls⟩ := ih hp hstart
    refine ⟨fun hclean => ?_, hcalls⟩
    obtain ⟨hsound, hQ⟩ := hinside (T.earlier hclean ⟨prefix_rfl, prefix_rfl, fun _ h => h⟩)
    exact ⟨hsound.congr rfl rfl rfl, hQ⟩
  | link h => exact absurd h hlinks
  | infer _ ih | induce _ ih =>
    obtain ⟨hafter, hcalls⟩ := ih hp hc
    exact ⟨hafter, forall_mem_cons.2 ⟨fun _ => hc, hcalls⟩⟩

end Terms

/-! ## What is known about types -/

/-- What is known about the members of a type. -/
def Checker.about? (c : Checker) : Ty → Option (SessionInfo ⊕ RecordInfo)
  | .session name => (c.sessions.find? name).map .inl
  | .record name => (c.records.find? name).map .inr
  | _ => none

namespace Checker

variable {c c' : Checker} {type other : Ty}

theorem about?_congr (hsessions : c'.sessions = c.sessions) (hrecords : c'.records = c.records)
    (type : Ty) : c'.about? type = c.about? type := by
  cases type with
  | session name => rw [about?, hsessions, about?]
  | record name => rw [about?, hrecords, about?]
  | _ => rfl

theorem has_of_about? (h : c'.about? type = c.about? type) : c'.has type = c.has type := by
  cases type with
  | session name | record name => simpa [about?, has, Table.has] using congrArg Option.isSome h
  | _ => rfl

theorem about?_know (name : String) (info : SessionInfo) (h : .session name ≠ type) :
    { c with sessions := c.sessions.insert name info }.about? type = c.about? type := by
  cases type with
  | session other =>
    have hname : name ≠ other := fun hname => h (congrArg Ty.session hname)
    rw [about?, Table.find?_insert, if_neg hname, about?]
  | _ => rfl

theorem about?_knowRecord (name : String) (info : RecordInfo) (h : .record name ≠ type) :
    { c with records := c.records.insert name info }.about? type = c.about? type := by
  cases type with
  | record other =>
    have hname : name ≠ other := fun hname => h (congrArg Ty.record hname)
    rw [about?, Table.find?_insert, if_neg hname, about?]
  | _ => rfl

theorem about?_learn (h : other ≠ type) : (c.learn other).about? type = c.about? type := by
  cases other with
  | session name => exact about?_know name _ h
  | record name => exact about?_knowRecord name _ h
  | _ => rfl

end Checker

namespace Terms

variable {α : Type} {T : Terms} {p : Prop} {k : Nat} {Q : α → Prop} {x y : Check α}
  {jumps : Context → List (Code × Location)} {calls : Checker → List Call} {c : Checker} {type : Ty}

/-- **What is known about a type stays as it is if the terms keep the type from becoming known.** -/
theorem Made.about?_eq (h : T.Made p k Q x y jumps calls) (hlinks : ¬T.links)
    (htype : ¬T.Learns type) :
    (c.after x).about? type = c.about? type ∧
    ∀ call ∈ calls c, call.checker.about? type = c.about? type := by
  induction h generalizing c with
  | @bind p k α β Q R x y f g jumps jumps' calls calls' hx hf ihx ihf =>
    obtain ⟨hfirst, hcalls⟩ := ihx (c := c)
    obtain ⟨hrest, hcalls'⟩ := ihf (x.run c).1 (c := c.after x)
    exact ⟨hrest.trans hfirst, forall_mem_append.2
      ⟨hcalls, fun call hcall => (hcalls' call hcall).trans hfirst⟩⟩
  | look _ _ ih => exact ih c
  | @jump p k cond finding _ loc =>
    refine ⟨?_, forall_mem_nil _⟩
    show ((Check.reportIf (cond c.context) finding loc).run c).2.about? type = _
    cases cond c.context with
    | false => rfl
    | true => exact Checker.about?_congr rfl rfl type
  | @define p k symbol _ hfits =>
    refine ⟨?_, forall_mem_nil _⟩
    unfold Checker.after
    cases hdefine : c.scopes.define? symbol with
    | none => rw [run_define_none hdefine]
    | some s => rw [run_define_some hdefine]; exact Checker.about?_congr rfl rfl type
  | @introduce p k other _ h loc =>
    refine ⟨?_, forall_mem_nil _⟩
    have hother : other ≠ type := fun heq => htype (heq ▸ h.1)
    obtain ⟨-, hafter⟩ | ⟨s, -, hafter⟩ := after_introduce c other loc
    · exact hafter ▸ Checker.about?_congr rfl rfl type
    · exact hafter ▸ (Checker.about?_learn hother).trans (Checker.about?_congr rfl rfl type)
  | @know p k name info hlearns =>
    exact ⟨Checker.about?_know name info fun heq => htype (heq ▸ hlearns), forall_mem_nil _⟩
  | @knowRecord p k name info hlearns =>
    exact ⟨Checker.about?_knowRecord name info fun heq => htype (heq ▸ hlearns), forall_mem_nil _⟩
  | giveType name =>
    refine ⟨?_, forall_mem_nil _⟩
    show (if _ then _ else c : Checker).about? type = _
    split
    · exact Checker.about?_congr rfl rfl type
    · rfl
  | inFrame kind _ ih =>
    obtain ⟨hafter, hcalls⟩ := ih (c := { c with scopes := c.scopes.enter kind })
    have hsame : { c with scopes := c.scopes.enter kind }.about? type = c.about? type :=
      Checker.about?_congr rfl rfl type
    exact ⟨(Checker.about?_congr rfl rfl type).trans (hafter.trans hsame),
      fun call hcall => (hcalls call hcall).trans hsame⟩
  | @inContext _ _ _ _ _ _ _ _ enter _ _ _ ih =>
    obtain ⟨hafter, hcalls⟩ := ih (c := { c with context := enter c.context })
    have hsame : { c with context := enter c.context }.about? type = c.about? type :=
      Checker.about?_congr rfl rfl type
    exact ⟨(Checker.about?_congr rfl rfl type).trans (hafter.trans hsame),
      fun call hcall => (hcalls call hcall).trans hsame⟩
  | link h => exact absurd h hlinks
  | infer _ ih | induce _ ih =>
    obtain ⟨hafter, hcalls⟩ := ih (c := c)
    exact ⟨hafter, forall_mem_cons.2 ⟨rfl, hcalls⟩⟩
  | _ => exact ⟨Checker.about?_congr rfl rfl type, forall_mem_nil _⟩

def sparing (type : Ty) (link : Follower) : Terms :=
  { unlinked (fun _ => True) link link with
    types := (· ≠ type)
    known := fun _ => trivial }

variable {link : Follower}

theorem not_learns_sparing : ¬(sparing type link).Learns type :=
  fun hlearns => hlearns ((Checker.new "").learn type) trivial (has_learn type _) rfl

end Terms

/-- **The inference of a type changes nothing that is known about types.** -/
theorem Check.about?_infer (e : Expr) (c : Checker) (type : Ty) :
    (c.after (infer e)).about? type = c.about? type :=
  ((Terms.plain_infer (T := .sparing type fun _ _ => pure ()) (k := 1) (p := False) e).about?_eq id
    Terms.not_learns_sparing).1

end Trance
