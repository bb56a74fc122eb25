import Trance.Proofs.Checking.Redeclaring

/-!
# Types that are not known are reported

Where the type of an expression is unknown nothing more is reported about it. This hides nothing: if
a check ends without any report, then no inference in it has had an unknown type.

The types of variables, members and parameters are kept as names, and looked up where they are
needed without a report. But each name has been looked up with a report elsewhere: that of a
variable or a member where it is declared, that of a parameter or a result where the body of the
suggestion is checked, which may be much later. So the check is gone through twice. At first only
the types with which suggestions are declared are followed to where they are reported. Then they are
known from the start to stand for something, and no inference can be the first to have an unknown
type. -/

namespace Trance

open Check List Option

/-! ## Names of types in programs -/

/-- The types with which a suggestion is declared. -/
def SuggestionOf.annotations (decl : Suggestion) : List String :=
  decl.params.flatMap (·.typeName.toList) ++ decl.returnType.toList

/-- The types with which a member of a session is declared. -/
def MemberOf.annotations (member : Member) : List String :=
  match member.decl with
  | .field field => field.typeName.toList
  | .method decl => decl.annotations

/-- The types with which a statement declares its names. -/
def Stmt.annotations : Stmt → List String
  | .induce decl => decl.typeName.toList
  | .suggestion decl => decl.annotations
  | .session decl => decl.members.flatMap MemberOf.annotations
  | .tranceify decl => decl.members.flatMap (·.typeName.toList)
  | _ => []

theorem Ty.isSome_builtin?_name {type : Ty} (h : type.isBuiltIn = true) :
    type.name ≠ "unknown" ∧ (Ty.builtin? type.name).isSome = true := by
  cases type with
  | unknown | session _ | record _ => cases h
  | _ => exact ⟨by decide, rfl⟩

theorem Report.add_nonempty (r : Report) (d : Diagnostic) :
    ¬((r.add d).errors = [] ∧ (r.add d).warnings = []) := by
  unfold Report.add
  cases d.severity <;> simp

namespace Program

/-- The types that a program declares at its top level, under names other than that of the unknown
type. -/
def Offers (p : Program) (type : Ty) : Prop := type.name ≠ "unknown" ∧
    ∃ s ∈ p.statements, s.type? = some type

/-- A name stands for a built-in type or one that a program offers. -/
def Writes (p : Program) (name : String) : Prop :=
  name ≠ "unknown" ∧ ((Ty.builtin? name).isSome = true ∨ p.Offers (.session name) ∨
    p.Offers (.record name))

theorem writes_name {p : Program} {type : Ty} (h : type.isBuiltIn = true ∨ p.Offers type) :
    p.Writes type.name := by
  obtain hbuiltin | hoffers := h
  · obtain ⟨hname, hsome⟩ := Ty.isSome_builtin?_name hbuiltin
    exact ⟨hname, .inl hsome⟩
  · refine ⟨hoffers.1, .inr ?_⟩
    obtain ⟨-, s, -, hs⟩ := id hoffers
    cases s with
    | session decl => cases hs; exact .inl hoffers
    | tranceify decl => cases hs; exact .inr hoffers
    | _ => cases hs

/-- Terms on which built-in types and those that a program offers are inferred, and nothing is
reported. -/
def certain (p : Program) (link : Follower) : Terms :=
  { Check.unlinked (fun _ => True) link link with
    types := p.Offers
    infers := fun type => type.isBuiltIn = true ∨ p.Offers type
    writes := p.Writes
    clean := fun c => c.report.errors = [] ∧ c.report.warnings = []
    basic := .inl
    known := .inr
    unknown := fun hclean => absurd hclean (Report.add_nonempty _ _)
    named := writes_name
    earlier := fun hclean hbefore =>
      ⟨prefix_nil.1 (hclean.1 ▸ hbefore.errors), prefix_nil.1 (hclean.2 ▸ hbefore.warnings)⟩ }

/-- A program without links that declares types at its top level only and mentions the unknown type
nowhere. -/
structure Plain (p : Program) : Prop where
  links : ∀ s ∈ p.parts, s.isLink = false
  types : ∀ s ∈ p.statements, ∀ part ∈ s.inner, part.type? = none
  names : ∀ s ∈ p.statements, ∀ type ∈ s.type?, type.name ≠ "unknown"
  annotations : ∀ s ∈ p.parts, "unknown" ∉ s.annotations

section

variable {p : Program} (h : p.Plain) {link : Follower}

include h

theorem Plain.offers {s : Stmt} (hs : s ∈ p.parts) {type : Ty} (htype : s.type? = some type) :
    p.Offers type := by
  obtain ⟨top, htop, rfl | hinner⟩ := mem_listParts.1 hs
  · exact ⟨h.names _ htop _ htype, _, htop, htype⟩
  · rw [h.types top htop s hinner] at htype
    cases htype

/-! ## Suggestions -/

theorem Plain.writes {name : String} (hname : name ≠ "unknown")
    (hresolves : (p.declaring link).Resolves name) : p.Writes name := by
  refine ⟨hname, ?_⟩
  obtain hbuiltin | ⟨s, hs, htype⟩ | ⟨s, hs, htype⟩ | htolerates := hresolves
  · exact .inl hbuiltin
  · exact .inr (.inl (h.offers hs htype))
  · exact .inr (.inr (h.offers hs htype))
  · exact absurd htolerates tolerates_declaring

theorem Plain.declares {decl : Suggestion} (hsigns : (p.declaring link).Signs decl)
    (hannotations : "unknown" ∉ decl.annotations) : (p.certain link).Declares decl := by
  have hnot (name : String) (hname : name ∈ decl.annotations) : name ≠ "unknown" :=
    fun heq => hannotations (heq ▸ hname)
  constructor
  · intro param hparam name hname
    refine h.writes (hnot name ?_) (hsigns.params param hparam name hname)
    exact mem_append_left _ (mem_flatMap.2 ⟨param, hparam, mem_toList.2 hname⟩)
  · intro name hname
    exact h.writes (hnot name (mem_append_right _ (mem_toList.2 hname)))
      (hsigns.returnType name hname)

theorem Plain.admits (hchecked : ∀ s ∈ p.parts, (p.declaring link).Checked s) :
    ∀ s ∈ p.parts, (p.certain link).Admits s := by
  intro s hs
  have hvariable (decl : Variable) (hnot : "unknown" ∉ decl.typeName.toList) :
      (p.certain link).AdmitsVariable decl := by
    intro name hname type hbuiltin
    refine .inl ((Ty.isBuiltIn_of_builtin? hbuiltin).resolve_right fun heq => hnot ?_)
    exact heq.1 ▸ mem_toList.2 hname
  have htype (type : Ty) (htype : s.type? = some type) : (p.certain link).AdmitsType type :=
    ⟨fun _ _ _ => h.offers hs htype, writes_name (.inr (h.offers hs htype))⟩
  have hsuggestions := (hchecked s hs).suggestions
  have hannotations := h.annotations s hs
  cases s with
  | induce decl => exact hvariable decl hannotations
  | suggestion decl => exact h.declares (hsuggestions decl mem_cons_self) hannotations
  | session decl =>
    refine ⟨htype _ rfl, fun member hmember => ?_⟩
    have hown : "unknown" ∉ member.annotations :=
      fun hmem => hannotations (mem_flatMap.2 ⟨member, hmember, hmem⟩)
    unfold MemberOf.annotations at hown
    unfold Terms.AdmitsMember
    cases hdecl : member.decl with
    | field field =>
      rw [hdecl] at hown
      exact hvariable field hown
    | method decl =>
      rw [hdecl] at hown
      refine h.declares (hsuggestions decl (mem_flatMap.2 ⟨member, hmember, ?_⟩)) hown
      simp [MemberOf.suggestions, hdecl]
  | tranceify decl =>
    refine ⟨htype _ rfl, fun field hfield => hvariable field fun hmem => ?_⟩
    exact hannotations (mem_flatMap.2 ⟨field, hfield, hmem⟩)
  | _ => exact trivial

/-! ## Names -/

theorem Plain.stands_types {body : List Stmt} (hbody : ∀ s ∈ body, s ∈ p.parts) {c : Checker}
    (hc : (p.certain link).Stands c)
    (hclean : (p.certain link).clean (c.after (body.forM declareTypeName))) :
    (p.certain link).Stands (c.after (body.forM declareTypeName)) ∧
      ∀ s ∈ body, ∀ type ∈ s.type?, (c.after (body.forM declareTypeName)).has type = true := by
  induction body generalizing c with
  | nil => exact ⟨hc, forall_mem_nil _⟩
  | cons s rest ih =>
    obtain ⟨hs, hrest⟩ := forall_mem_cons.1 hbody
    have hgrows : (c.after (declareTypeName s)).Grows (c.after ((s :: rest).forM declareTypeName)) :=
      grows (rest.forM declareTypeName) (c.after (declareTypeName s))
    have hfirst : (p.certain link).clean (c.after (declareTypeName s)) :=
      (p.certain link).earlier hclean hgrows.toBefore
    obtain ⟨hstands, hknown⟩ : (p.certain link).Stands (c.after (declareTypeName s)) ∧
        ∀ type ∈ s.type?, (c.after (declareTypeName s)).has type = true := by
      cases htype : s.type? with
      | none =>
        rw [declareTypeName_of_none htype]
        exact ⟨hc, fun _ hnone => by cases hnone⟩
      | some type =>
        have hoffers := h.offers hs htype
        rw [declareTypeName_eq htype] at hfirst ⊢
        obtain ⟨-, hafter⟩ | ⟨scopes, hdefine, hafter⟩ := Terms.after_introduce c type s.location
        · exact absurd (hafter ▸ hfirst) (Report.add_nonempty _ _)
        · rw [hafter]
          refine ⟨(hc.withScopes (hc.scopes.define?
            (.symbol (writes_name (.inr hoffers)) hoffers) hdefine)).learn hoffers, ?_⟩
          rintro _ ⟨⟩
          exact Terms.has_learn type _
    obtain ⟨hend, hall⟩ := ih hrest hstands hclean
    exact ⟨hend, forall_mem_cons.2 ⟨fun type htype => hgrows.known type (hknown type htype), hall⟩⟩

omit h in
theorem sound_of_known {c : Checker} (hc : (p.certain link).Stands c)
    (hknown : ∀ type, p.Offers type → c.has type = true) :
    (p.certain link).Sound c := by
  refine ⟨hc, fun name hwrites => ?_⟩
  obtain ⟨hname, hstands⟩ := hwrites
  cases hbuiltin : Ty.builtin? name with
  | some type =>
    have hlookup : c.lookup? name = some type := by rw [Checker.lookup?, hbuiltin]
    rw [hlookup]
    exact .inl ((Ty.isBuiltIn_of_builtin? hbuiltin).resolve_right fun heq => hname heq.1)
  | none =>
    -- a session stands before a record type of its name
    cases hsession : c.sessions.has name with
    | true =>
      have hlookup : c.lookup? name = some (.session name) := by
        simp [Checker.lookup?, hbuiltin, hsession]
      obtain ⟨info, hfound⟩ := isSome_iff_exists.1 hsession
      rw [hlookup]
      exact .inr (hc.sessions _ (Table.mem_of_find? hfound)).1
    | false =>
      obtain hsome | hoffers | hoffers := hstands
      · rw [hbuiltin] at hsome
        cases hsome
      · rw [show c.sessions.has name = true from hknown _ hoffers] at hsession
        cases hsession
      · have hlookup : c.lookup? name = some (.record name) := by
          simp [Checker.lookup?, hbuiltin, hsession, show c.records.has name =
            true from hknown _ hoffers]
        rw [hlookup]
        exact .inr hoffers

end

end Program

/-- **Nothing is unknown that has not been reported.** Let a program without links declare types at
its top level only, and mention the unknown type neither as the type of anything nor as the name of
a type. If its check reports nothing at all, then no inference has had an unknown type. -/
theorem Linker.infer_ne_unknown_of_check {linker : Linker} {p : Program} {dir : String}
    (h : p.Plain) (herrors : (linker.check p (Checker.new dir)).report.errors = [])
    (hwarnings : (linker.check p (Checker.new dir)).report.warnings = []) {e : Expr} {c : Checker}
    (hcall : .infer e c ∈ programCalls (linker.link linker.bound) p (Checker.new dir)) :
    ((infer e).run c).1 ≠ .unknown := by
  let T := p.certain (linker.link linker.bound)
  have hadmits : ∀ s ∈ p.parts, T.Admits s := h.admits (Program.checked_of_check h.links herrors)
  have htop (s : Stmt) (hs : s ∈ p.statements) : s ∈ p.parts := mem_listParts.2 ⟨s, hs, .inl rfl⟩
  -- the states between have reported nothing either
  have hend : T.clean (((Checker.new dir).after (names p)).after
      (bodies (linker.link linker.bound) p)) := by
    rw [← after_linkFree h.links _ _ rfl]
    exact ⟨herrors, hwarnings⟩
  have hnamed : T.clean ((Checker.new dir).after (names p)) :=
    T.earlier hend (grows (bodies _ p) _).toBefore
  have htyped : T.clean ((Checker.new dir).after (p.statements.forM declareTypeName)) :=
    T.earlier hnamed (grows (p.statements.forM declareSuggestionName) _).toBefore
  have hsound : T.Sound ((Checker.new dir).after (names p)) := by
    obtain ⟨hstands, hknown⟩ := h.stands_types htop .new htyped
    have hsuggestions : T.Looks True 0 (fun _ => ∀ s ∈ p.statements, True)
      (p.statements.forM declareSuggestionName) := by
      refine .forM fun s hs _ => ?_
      cases s with
      | suggestion decl =>
        exact Terms.looks_declareSuggestion (fun _ => trivial) (hadmits _ (htop _ hs))
      | _ => exact .skip ()
    refine ((hsuggestions.settles id trivial (Program.sound_of_known hstands ?_)).1 hnamed).1
    rintro type ⟨-, s, hs, htype⟩
    exact hknown s hs type htype
  rw [programCalls, after_followLinks h.links] at hcall
  have hmade : T.Made True 0 _ _ _ _ _ := Terms.made_bodies (fun _ _ => trivial)
    (.of_linkFree (Program.linkFree_of_parts h.links)) (Program.every_of_parts hadmits)
  have hafter : T.clean (c.after (infer e)) := T.earlier hend (hmade.between id _ _ hcall).2
  have hhere : T.Sound c :=
    (Terms.settles_bodies id (fun _ => trivial) h.links hadmits hsound).2 _ hcall
    (T.earlier hafter (grows (infer e) c).toBefore)
  obtain ⟨-, hinfers, -⟩ :=
    ((Terms.plain_infer (T := T) (k := 0) (p := True) e).settles id trivial hhere).1 hafter
  intro hunknown
  rw [hunknown] at hinfers
  obtain hbuiltin | ⟨-, s, -, htype⟩ := hinfers
  · cases hbuiltin
  · cases s <;> cases htype

/-- A suggestion whose parameter is a record and whose result is text. -/
def Program.reading : Program :=
  ⟨[.tranceify ⟨"P", [⟨"a", some "string", .unset, ⟨1, 21⟩⟩], ⟨1, 7⟩⟩,
    .suggestion ⟨"f", [⟨"p", some "P"⟩], some "string",
      [.awaken (some (.field (.name "p" ⟨1, 70⟩) "a" ⟨1, 71⟩)) ⟨1, 63⟩], false, false, ⟨1, 34⟩,
        .main⟩,
    .induce ⟨"x", none, .value (.call (.name "f" ⟨1, 88⟩)
      [.record "P" [("a", .text "1" ⟨1, 97⟩)] ⟨1, 90⟩] ⟨1, 89⟩), ⟨1, 77⟩⟩,
    .observe (.name "x" ⟨1, 113⟩) ⟨1, 105⟩]⟩

/-- The check of the program reports nothing, and infers no unknown type. -/
theorem Program.reading_knows_all :
    ((Linker.ofFiles .empty).check reading (Checker.new "")).report.errors = [] ∧
    ∀ e c, .infer e c ∈ programCalls
      ((Linker.ofFiles .empty).link (Linker.ofFiles .empty).bound) reading
      (Checker.new "") → ((infer e).run c).1 ≠ .unknown := by
  have herrors : ((Linker.ofFiles .empty).check reading (Checker.new "")).report.errors = [] := by
    rfl
  exact ⟨herrors, fun _ _ =>
    Linker.infer_ne_unknown_of_check ⟨by decide, by decide, by decide, by decide⟩ herrors (by rfl)⟩

end Trance
