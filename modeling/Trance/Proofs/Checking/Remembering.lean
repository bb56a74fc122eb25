import Trance.Proofs.Checking.TypeNames

/-!
# Variables and the names of their types

A variable is bound to the name of its type, and where the variable is used the name is looked up
again. So a variable keeps the type of the value that it starts with exactly if the name of the type
stands for this type alone: a session may have the name of a built-in type, and a record type may
have that of a built-in type or of a session in another block. Then the variable has the other type
wherever it is used. -/

namespace Trance

open Check List Checker

variable {name : String} {type : Ty} {c : Checker} {s t : Scopes}

theorem Ty.isBuiltIn_of_builtin? (h : Ty.builtin? name = some type) :
    type.isBuiltIn = true ∨ (name = "unknown" ∧ type = .unknown) := by
  unfold Ty.builtin? at h
  split at h <;> first
    | (cases h; exact .inl rfl)
    | (cases h; exact .inr ⟨rfl, rfl⟩)
    | cases h

theorem Checker.has_of_isBuiltIn (c : Checker) (h : type.isBuiltIn = true) : c.has type = true := by
  cases type with
  | session | record => cases h
  | _ => rfl

theorem Checker.has_of_builtin? (c : Checker) (h : Ty.builtin? name = some type) :
    c.has type = true := by
  obtain hbuiltin | ⟨-, rfl⟩ := Ty.isBuiltIn_of_builtin? h
  · exact c.has_of_isBuiltIn hbuiltin
  · rfl

/-- No other type stands before this one where its name is looked up. -/
def Ty.Distinct (c : Checker) : Ty → Prop
  | .session name => Ty.builtin? name = none
  | .record name => Ty.builtin? name = none ∧ c.sessions.has name = false
  | _ => True

theorem Checker.lookup?_name_iff (h : c.has type = true) :
    (c.lookup? type.name).getD .unknown = type ↔ type.Distinct c := by
  have hother {name : String} {found : Ty} (hfound : Ty.builtin? name = some found) :
      found ≠ .session name ∧ found ≠ .record name := by
    obtain hbuiltin | ⟨-, rfl⟩ := Ty.isBuiltIn_of_builtin? hfound
    · constructor <;> rintro rfl <;> cases hbuiltin
    · exact ⟨nofun, nofun⟩
  cases type with
  | session name =>
    simp only [Ty.name, Ty.Distinct, lookup?]
    cases hbuiltin : Ty.builtin? name with
    | some found => simpa using (hother hbuiltin).1
    | none => simp [show c.sessions.has name = true from h]
  | record name =>
    simp only [Ty.name, Ty.Distinct, lookup?]
    cases hbuiltin : Ty.builtin? name with
    | some found => simpa using (hother hbuiltin).2
    | none =>
      by_cases hsession : c.sessions.has name = true <;>
        simp [hsession, show c.records.has name = true from h]
  | _ => exact iff_of_true rfl trivial

/-! ## Types that are inferred are known -/

namespace Program

variable {p : Program} {link : Follower}

/-- Terms on which only types become known that are known in a certain state. -/
def knowing (d : Checker) (link : Follower) : Terms :=
  { Check.unlinked (fun _ => True) link link with
    types := fun type => d.has type = true
    infers := fun type => d.has type = true
    clean := fun c => ∀ type, c.has type = true → d.has type = true
    basic := d.has_of_isBuiltIn
    known := id
    unknown := fun _ => rfl
    named := fun _ => trivial
    earlier := fun hclean hbefore type htype => hclean type (hbefore.known type htype) }

/-- **A type that is inferred is known.** -/
theorem has_of_infer [∀ path loc, Blind (link path loc)] (hlinks : ∀ s ∈ p.parts, s.isLink = false)
    {dir : String} {call : Call}
    (hcall : call ∈ programCalls link p (Checker.new dir)) (e : Expr) :
    call.checker.has ((infer e).run call.checker).1 = true := by
  let T := knowing call.checker link
  have : ∀ path loc, Blind (T.link path loc) :=
    fun path loc => inferInstanceAs (Blind (link path loc))
  have hmentions (name : String) : T.Mentions name := fun _ h => call.checker.has_of_builtin? h
  have hnew : T.Sound (Checker.new dir) := .new fun name _ => by
    show call.checker.has _ = true
    cases hbuiltin : Ty.builtin? name with
    | some type => exact hmentions name type hbuiltin
    | none => rfl
  have hadmits : ∀ s ∈ p.parts, T.Admits s := fun s _ =>
    Terms.admits_of_type hmentions (fun _ => trivial) fun type _ _ hclean => hclean type
  have hsound := (Terms.settles_program (T := T) id
    (fun _ => trivial) hlinks hadmits hnew rfl).2 call hcall fun _ => id
  refine (((Terms.plain_infer (T := T) (k := 0)
    (p := True) e).settles id trivial hsound).1 fun type htype => ?_).2.1
  exact (has_of_about? (about?_infer e call.checker type)).symm.trans htype

end Program

/-! ## Declarations of variables -/

theorem Scopes.Extends.innermost (h : s.Extends t) {symbol : Symbol}
    (hfound : s.innermost.find? name = some symbol) :
    ∃ later, t.innermost.find? name = some later ∧ symbol.Becomes later := by
  obtain ⟨frames, globals⟩ := s
  obtain ⟨frames', globals'⟩ := t
  obtain ⟨hframes, hglobals⟩ := h
  cases hframes with
  | nil => exact hglobals name symbol hfound
  | cons hframe _ => exact hframe.2 name symbol hfound

theorem Scopes.Extends.resolve?_of_innermost (h : s.Extends t) {typeName : String} {symbol : Symbol}
    (hfound : s.innermost.find? name = some symbol) (htype : symbol.typeName = some typeName) :
    t.resolve? name = some symbol := by
  obtain ⟨⟨_, _, _, _⟩, hlater, hbecomes⟩ := h.innermost hfound
  have hname := hbecomes.typeName typeName htype
  obtain ⟨_, _, _, _⟩ := symbol
  cases hbecomes.name
  cases hbecomes.kind
  cases hbecomes.value
  cases htype
  cases hname
  obtain ⟨frames, globals⟩ := t
  cases frames with
  | nil => exact hlater
  | cons frame below =>
    rw [Scopes.resolve?, Scopes.resolveIn, show frame.bindings.find? name = some _ from hlater]

/-- The symbol of a variable that has a type. -/
def Variable.symbol (decl : Variable) (type : Ty) : Symbol :=
  { name := decl.name, kind := .variable, typeName := some type.name }

theorem Check.infer_name {decl : Variable}
    (h : c.scopes.resolve? decl.name = some (decl.symbol type)) (loc : Location) :
    (infer (.name decl.name loc)).run c = ((c.lookup? type.name).getD .unknown, c) := by
  have hfound : (resolve? decl.name).run c = (some (decl.symbol type), c) := congrArg (·, c) h
  show (nameType decl.name loc).run c = _
  rw [nameType, StateT.run_bind, hfound]
  show (typeNamed type.name).run c = _
  rw [typeNamed, Terms.lookupType_eq]
  rfl

instance (decl : Variable) : Growing (induce decl) :=
    inferInstanceAs (Growing (stmt (fun _ _ => pure ()) (.induce decl)))

theorem Check.after_defineOr (c : Checker) (symbol : Symbol) (finding : Finding) (loc : Location) :
    (c.scopes.define? symbol = none ∧
      c.after (defineOr symbol finding loc) =
        { c with report := c.report.add (finding.diagnose loc) }) ∨
    ∃ s, c.scopes.define? symbol = some s ∧
      c.after (defineOr symbol finding loc) = { c with scopes := s } := by
  have hrun : c.after (defineOr symbol finding loc) =
      ((if ((define symbol).run c).1 then pure () else report finding loc : Check Unit).run
        ((define symbol).run c).2).2 :=
    rfl
  rw [hrun]
  cases hdefine : c.scopes.define? symbol with
  | none => exact .inl ⟨rfl, by rw [run_define_none hdefine]; rfl⟩
  | some s => exact .inr ⟨s, rfl, by rw [run_define_some hdefine]; rfl⟩

theorem Scopes.find?_innermost_of_define? {symbol : Symbol} (h : s.define? symbol = some t) :
    t.innermost.find? symbol.name = some symbol := by
  obtain ⟨frames, globals⟩ := s
  cases frames with
  | nil =>
    obtain ⟨globals', hadd, rfl⟩ := Option.map_eq_some_iff.1 h
    exact (Bindings.find?_add? hadd _).trans (if_pos rfl)
  | cons frame below =>
    obtain ⟨bindings', hadd, rfl⟩ := Option.map_eq_some_iff.1 h
    exact (Bindings.find?_add? hadd _).trans (if_pos rfl)

theorem Check.bound_of_induce {decl : Variable} {e : Expr} (huntyped : decl.typeName = none)
    (hstart : decl.start = .value e)
    (hquiet : (c.after (induce decl)).report.errors = c.report.errors) :
    (c.after (induce decl)).scopes.innermost.find? decl.name =
      some (decl.symbol ((infer e).run c).1) := by
  generalize htype : ((infer e).run c).1 = type
  have hrun : c.after (induce decl) = after (after (c.after (infer e))
      (inferredType decl.name type decl.location))
      (defineOr (decl.symbol ((inferredType decl.name type decl.location).run (c.after (infer e))).1)
        (.redeclaredVariable decl.name) decl.location) := by
    rw [← htype, induce_eq, inducedType, huntyped]
    simp only [variableType, hstart]
    rfl
  -- a report would make the list of errors longer
  have hlonger (d : Diagnostic) (h : (c.after (infer e)).report.errors ++ [d] <+: c.report.errors) :
      False := by
    have hlength := h.length_le
    have hlength' : c.report.errors.length ≤ (c.after (infer e)).report.errors.length :=
      (grows (infer e) c).errors.length_le
    rw [length_append, length_singleton] at hlength
    omega
  rw [hrun] at hquiet ⊢
  by_cases hbad : (decide (type = .unknown) || decide (type = .void)) = true
  · rw [inferredType, if_pos hbad] at hquiet
    refine (hlonger ((Finding.cannotInfer decl.name).diagnose decl.location) ?_).elim
    rw [← hquiet]
    exact (grows (defineOr (decl.symbol .unknown) (.redeclaredVariable decl.name) decl.location)
      (after (c.after (infer e)) (report (.cannotInfer decl.name) decl.location))).errors
  · rw [inferredType, if_neg hbad] at hquiet ⊢
    obtain ⟨-, hafter⟩ | ⟨s, hdefine, hafter⟩ := after_defineOr (c.after (infer e))
      (decl.symbol type) (.redeclaredVariable decl.name) decl.location
    · refine (hlonger ((Finding.redeclaredVariable decl.name).diagnose decl.location) ?_).elim
      rw [← hquiet]
      exact (congrArg (fun c : Checker => c.report.errors) hafter).symm ▸ prefix_rfl
    · exact (congrArg (fun c : Checker => c.scopes.innermost.find? decl.name) hafter).trans
        (Scopes.find?_innermost_of_define? hdefine)

/-- **A variable keeps the type of its first value exactly if the name of the type is its own.** Let
a declaration without a type report no error. From then on its name is bound to the name of the
type, in its frame and wherever the declaration is in reach, and each use of it has the type that
stands under this name. If the type of the first value is known where the declaration stands, as it
always is in a program without links, this is the type of the first value if and only if no other
type stands before it under its name. -/
theorem Linker.variable_keeps_type_iff {linker : Linker} {p : Program} {dir : String}
    {decl : Variable} {e : Expr} {c : Checker}
    (hcall : .induce decl c ∈ programCalls (linker.link linker.bound) p (Checker.new dir))
    (huntyped : decl.typeName = none) (hstart : decl.start = .value e)
    (hquiet : (c.after (induce decl)).report.errors = c.report.errors) :
    (∀ d, (c.after (induce decl)).Grows d →
      d.scopes.resolve? decl.name = some (decl.symbol ((infer e).run c).1)) ∧
    ((∀ s ∈ p.parts, s.isLink = false) → c.has ((infer e).run c).1 = true) ∧
    ∀ d loc, (c.after (induce decl)).Before d →
    d.scopes.resolve? decl.name = some (decl.symbol ((infer e).run c).1) →
      (infer (.name decl.name loc)).run d = ((d.lookup? ((infer e).run c).1.name).getD .unknown, d) ∧
      (c.has ((infer e).run c).1 = true →
        (((infer (.name decl.name loc)).run d).1 = ((infer e).run c).1 ↔
          ((infer e).run c).1.Distinct d)) := by
  have hbound := bound_of_induce huntyped hstart hquiet
  refine ⟨fun d hgrows => hgrows.scopes.resolve?_of_innermost hbound rfl,
    fun hlinks => Program.has_of_infer hlinks hcall e, fun d loc hbefore hfound => ?_⟩
  have huse := infer_name hfound loc
  refine ⟨huse, fun hknown => ?_⟩
  have hstill : d.has ((infer e).run c).1 = true :=
    hbefore.known _ ((grows (induce decl) c).known _ hknown)
  rw [huse]
  exact Checker.lookup?_name_iff hstill

namespace Program

/-- A session with the name of a built-in type, a variable that starts with it, and a member that is
shown. -/
def ownNumber (object : Expr) : Program :=
  ⟨[.session ⟨"number", [⟨.field ⟨"v", none, .value (.text "a" ⟨1, 42⟩), ⟨1, 31⟩⟩, true, false⟩],
    ⟨1, 7⟩⟩,
    .induce ⟨"x", none, .value (.call (.name "number" ⟨1, 60⟩) [] ⟨1, 66⟩), ⟨1, 49⟩⟩,
    .observe (.field object "v" ⟨1, 79⟩) ⟨1, 70⟩]⟩

/-- **A variable may lose the type of its value.** The session has the member, but the variable that
holds it counts as a number. -/
theorem ownNumber_loses_type :
    Program.ofText .main
      ("Focus session number \x7b expose induce v = \"a\"; \x7d induce x = number(); " ++
        "observe x.v; Relax") = .ok (ownNumber (.name "x" ⟨1, 78⟩)) ∧
    ((Linker.ofFiles .empty).check (ownNumber (.name "x" ⟨1, 78⟩)) (Checker.new "")).report.errors =
      [⟨.unknownMember, "Type number has no member 'v'", ⟨1, 79⟩⟩] ∧
    ((Linker.ofFiles .empty).check (ownNumber (.call (.name "number" ⟨1, 78⟩) [] ⟨1, 78⟩))
      (Checker.new "")).report.errors = [] := by
  exact ⟨by with_unfolding_all rfl, rfl, by rfl⟩

/-- The session is inferred, and its name is all that the variable keeps of it. -/
theorem ownNumber_keeps_name :
    ∃ decl e c, .induce decl c ∈ programCalls
      ((Linker.ofFiles .empty).link (Linker.ofFiles .empty).bound)
        (ownNumber (.name "x" ⟨1, 78⟩)) (Checker.new "") ∧
      decl.name = "x" ∧ decl.start = .value e ∧ ((infer e).run c).1 = .session "number" ∧
      ∀ loc, ((infer (.name "x" loc)).run (c.after (induce decl))).1 ≠ .session "number" := by
  let decl : Variable := ⟨"x", none, .value (.call (.name "number" ⟨1, 60⟩) [] ⟨1, 66⟩), ⟨1, 49⟩⟩
  obtain ⟨c, hcall, hquiet, htype⟩ :
      ∃ c, .induce decl c ∈ programCalls ((Linker.ofFiles .empty).link (Linker.ofFiles .empty).bound)
          (ownNumber (.name "x" ⟨1, 78⟩)) (Checker.new "") ∧
        (c.after (induce decl)).report.errors = c.report.errors ∧
        ((infer (.call (.name "number" ⟨1, 60⟩) [] ⟨1, 66⟩)).run c).1 = .session "number" :=
    ⟨_, mem_append_right _ (mem_append_left _ (mem_append_right _ (mem_append_left _ (.head _)))),
      by decide +kernel, by decide +kernel⟩
  obtain ⟨hbound, hknown, huses⟩ := Linker.variable_keeps_type_iff hcall rfl rfl hquiet
  refine ⟨decl, _, c, hcall, rfl, rfl, htype, fun loc hsame => ?_⟩
  have hdistinct := ((huses _ loc (.refl _) (hbound _ (.refl _))).2 (hknown (by decide))).1
    (hsame.trans htype.symm)
  rw [htype] at hdistinct
  cases hdistinct

end Program

end Trance
