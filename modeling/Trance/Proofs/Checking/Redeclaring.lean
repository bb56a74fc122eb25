import Trance.Proofs.Checking.Remembering

/-!
# Types that are declared again

A second declaration of a session or a record type under one name is reported, and the name stays
bound to the first one. What is known about the type, however, is what has been collected last, and
members are collected from each declaration, reported or not. So wherever the type is used the
members, the parameters of the constructor and the fields are those of the last declaration. -/

namespace Trance

open Check List Terms

/-! ## Declarations -/

/-- What a declaration says about its type, where the state of the check tells the types of fields.
-/
def Stmt.about? (s : Stmt) (c : Checker) : Option (SessionInfo ⊕ RecordInfo) :=
  match s with
  | .session decl => some (.inl ((decl.members.foldlM (collectMember decl.name) ⟨[], 0⟩).run c).1)
  | .tranceify decl => some (.inr ((decl.members.foldlM (collectField decl.name) []).run c).1)
  | _ => none

namespace Terms

variable {type : Ty} {link : Follower}

theorem admits_sparing {s : Stmt} (h : s.type? ≠ some type) : (sparing type link).Admits s :=
  admits_of_type (fun _ _ _ => trivial) (fun _ => trivial) fun _ htype _ _ _ heq => h (heq ▸ htype)

end Terms

/-- Neither a link nor a declaration of a type stands inside of a statement. -/
def Stmt.Spares (s : Stmt) (type : Ty) : Prop :=
  ∀ part ∈ s.inner, part.isLink = false ∧ part.type? ≠ some type

namespace Terms

variable {link : Follower} {type : Ty} {s : Stmt} {p : Prop} {k : Nat}

theorem sparing_stmt (hlink : s.isLink = false) (htype : s.type? ≠ some type) (h : s.Spares type) :
    (sparing type link).Made p k (fun _ => True) (stmt link s) (stmt link s)
      (fun context => Site.findings (s.sites context.reach)) (stmtCalls link s) := by
  have hsites : LinkFree (s.sites .fresh) :=
    Stmt.sites_every s ⟨hlink, fun part hpart => (h part hpart).1⟩
  exact (made_stmt (T := sparing type link) s (.of_linkFree hsites)
    ⟨admits_sparing htype, fun part hpart => admits_sparing (h part hpart).2⟩ fun _ _ _ =>
      trivial).goes

theorem sparing_entrance (h : s.Spares type) :
    (sparing type link).Made p k (fun _ => True) (entrance link s) (entrance link s)
      (fun context => Site.findings (entranceSites context.reach s)) (entranceCalls link s) := by
  cases s with
  | entrance body loc =>
    exact sparing_stmt (s := .entrance body loc) rfl (fun htype => by cases htype) h
  | _ => exact .pure () fun _ => trivial

theorem sparing_mainEffect (h : s.Spares type) :
    (sparing type link).Made p k (fun _ => True) (mainEffect link s) (mainEffect link s)
      (fun context => Site.findings (mainSites context.reach s)) (mainCalls link s) := by
  cases s with
  | entrance | mindLink | suggestion | session | tranceify => exact .pure () fun _ => trivial
  | _ => exact sparing_stmt rfl (fun htype => by cases htype) h

theorem sparing_declarationBody (h : s.Spares type) :
    (sparing type link).Made p k (fun _ => True) (declarationBody link s) (declarationBody link s)
      (fun _ => Site.findings (bodySites s)) (bodyCalls link s) := by
  cases s with
  | suggestion decl =>
    have hsites : LinkFree (suggestionSites decl) :=
      suggestionSites_every decl fun part hpart => (h part hpart).1
    exact (made_suggestion (T := sparing type link) none decl (.of_linkFree hsites)
      ⟨fun _ _ _ _ => trivial, fun _ _ => trivial⟩ (fun _ howner => by cases howner)
      fun part hpart => admits_sparing (h part hpart).2).goes
  | session decl =>
    obtain ⟨name, all, loc⟩ := decl
    have hsites : LinkFree (membersSites all) :=
      membersSites_every all fun part hpart => (h part hpart).1
    have hmember (member : Member) : (sparing type link).AdmitsMember member := by
      unfold AdmitsMember
      cases member.decl with
      | field field => exact fun _ _ _ _ => trivial
      | method decl => exact ⟨fun _ _ _ _ => trivial, fun _ _ => trivial⟩
    exact (made_members (T := sparing type link) name all (.of_linkFree hsites) trivial
      (fun member _ => hmember member)
      fun part hpart => admits_sparing (h part hpart).2).goes
  | tranceify decl => exact (plain_fieldStarts decl).goes
  | _ => exact .pure () fun _ => trivial

end Terms

namespace Check

variable {link : Follower} {type other : Ty} {s t : Stmt} {before after : List Stmt}

theorem about?_bodiesCalls {p : Program} (h : ∀ s ∈ p.statements, s.Spares type) (c : Checker) :
    ∀ call ∈ bodiesCalls link p c,
      call.checker.about? type = (c.after (p.statements.forM collectType)).about? type := by
  let T := sparing type link
  have hentrances {q : Prop} : T.Made q 0 _ (p.statements.forM (entrance link))
      (p.statements.forM (entrance link)) _ _ := .forAll fun s hs _ => sparing_entrance (h s hs)
  have hmain {q : Prop} : T.Made q 0 _ (p.statements.forM (mainEffect link))
    (p.statements.forM (mainEffect link)) _ _ :=
    .forAll fun s hs _ => sparing_mainEffect (h s hs)
  have hbodies {q : Prop} : T.Made q 0 _ (p.statements.forM (declarationBody link))
      (p.statements.forM (declarationBody link)) _ _ :=
    .forAll fun s hs _ => sparing_declarationBody (h s hs)
  have hlabelled {q : Prop} : T.Made q 0 _ (withLabels (labelsOf p.statements) _)
      (withLabels (labelsOf p.statements) _) _ _ := .inContext (fun _ => rfl) hmain
  have hmade := Made.bind (hentrances (q := True)) fun _ => .bind hlabelled fun _ => hbodies
  exact (hmade.about?_eq id not_learns_sparing).2

theorem about?_collectType (hs : s.type? = some type) (c : Checker) :
    (c.after (collectType s)).about? type = s.about? c := by
  cases s with
  | session decl =>
    cases hs
    refine (congrArg (Option.map Sum.inl) (Table.find?_insert ..)).trans ?_
    rw [if_pos rfl]
    rfl
  | tranceify decl =>
    cases hs
    refine (congrArg (Option.map Sum.inr) (Table.find?_insert ..)).trans ?_
    rw [if_pos rfl]
    rfl
  | _ => cases hs

theorem about?_collectTypes (hs : s.type? = some type) (hlast : ∀ t ∈ after, t.type? ≠ some type)
    (c : Checker) : (c.after ((before ++ s :: after).forM collectType)).about? type =
      s.about? (c.after (before.forM collectType)) := by
  rw [after_forM_append, ← about?_collectType hs]
  have hrest : (sparing type fun _ _ => pure ()).Looks True 0 (fun _ => ∀ t ∈ after, True)
    (after.forM collectType) :=
    .forM fun t ht _ => looks_collectType (admits_sparing (hlast t ht))
  exact (hrest.about?_eq id not_learns_sparing).1

/-! ## Reports -/

theorem declareTypeName_eq (hs : s.type? = some type) :
    declareTypeName s = introduce type s.location := by
  cases s with
  | session decl | tranceify decl => cases hs; rfl
  | _ => cases hs

theorem declareTypeName_of_none (hs : s.type? = none) : declareTypeName s = pure () := by
  cases s with
  | session decl | tranceify decl => cases hs
  | _ => rfl

instance (s : Stmt) : Growing (declareTypeName s) := by
  cases htype : s.type? with
  | some type => exact declareTypeName_eq htype ▸ inferInstance
  | none => exact declareTypeName_of_none htype ▸ inferInstance

instance (s : Stmt) : Growing (declareSuggestionName s) := by
  cases s with
  | suggestion decl => exact inferInstanceAs (Growing (defineOr _ _ _))
  | _ => exact inferInstanceAs (Growing (pure ()))

theorem define?_eq_none_iff {scopes : Scopes} {symbol : Symbol} :
    scopes.define? symbol = none ↔ scopes.innermost.has symbol.name = true := by
  obtain ⟨frames, globals⟩ := scopes
  cases frames <;> simp [Scopes.define?, Scopes.innermost, Bindings.add?]

theorem has_innermost_of_introduce (c : Checker) (type : Ty) (loc : Location) :
    (c.after (introduce type loc)).scopes.innermost.has type.name = true := by
  obtain ⟨hnone, hafter⟩ | ⟨s, hdefine, hafter⟩ := after_introduce c type loc
  · rw [hafter]
    exact define?_eq_none_iff.1 hnone
  · have hscopes : (c.after (introduce type loc)).scopes = s := by
      rw [hafter]
      cases type <;> rfl
    rw [hscopes]
    exact congrArg Option.isSome (Scopes.find?_innermost_of_define? hdefine)

theorem mem_errors_of_introduce {c : Checker} (h : c.scopes.innermost.has type.name = true)
    (loc : Location) :
    type.redeclared.diagnose loc ∈ (c.after (introduce type loc)).report.errors := by
  obtain ⟨-, hafter⟩ | ⟨s, hdefine, -⟩ := after_introduce c type loc
  · rw [hafter]
    cases type <;> exact mem_append_right _ mem_cons_self
  · rw [define?_eq_none_iff.2 h] at hdefine
    cases hdefine

theorem mem_errors_of_redeclared [∀ path loc, Growing (link path loc)] (hs : s.type? = some type)
    (ht : t ∈ before)
    (hother : t.type? = some other) (hname : other.name = type.name) (c : Checker) :
    type.redeclared.diagnose s.location ∈
      (c.after (program link ⟨before ++ s :: after⟩)).report.errors := by
  have hbound : (c.after (before.forM declareTypeName)).scopes.innermost.has type.name = true := by
    obtain ⟨front, back, rfl⟩ := append_of_mem ht
    rw [after_forM_append]
    have hintroduced :=
      has_innermost_of_introduce (c.after (front.forM declareTypeName)) other t.location
    rw [hname, ← declareTypeName_eq hother, Bindings.has] at hintroduced
    obtain ⟨symbol, hfound⟩ := Option.isSome_iff_exists.1 hintroduced
    obtain ⟨later, hlater, -⟩ := (grows (back.forM declareTypeName) _).scopes.innermost hfound
    exact congrArg Option.isSome hlater
  have hreported := mem_errors_of_introduce hbound s.location
  rw [← declareTypeName_eq hs] at hreported
  have hnames := (grows (after.forM declareTypeName)
    ((c.after (before.forM declareTypeName)).after (declareTypeName s))).trans
    (grows ((before ++ s :: after).forM declareSuggestionName) _)
  have htypes := after_forM_append c declareTypeName before (s :: after)
  have hafter : c.after (names ⟨before ++ s :: after⟩) =
      (c.after ((before ++ s :: after).forM declareTypeName)).after
        ((before ++ s :: after).forM declareSuggestionName) := rfl
  refine (grows_program link ⟨before ++ s :: after⟩ c).errors.subset ?_
  rw [hafter, htypes]
  exact hnames.errors.subset hreported

end Check

/-- **The last declaration counts.** Let a session or a record type be declared by a statement at
the top level, not again behind it, and nowhere inside of other statements. If the name is taken by
a type that is declared before, then this is reported. Still, at each inference of the check what is
known about the type is what the last declaration says. Likewise, a declaration in any other place
is reported if the name is taken in its frame, and replaces what is known about the type. -/
theorem Linker.last_declaration_counts {linker : Linker} {before after : List Stmt} {s : Stmt}
    {type : Ty} (hs : s.type? = some type) (hlast : ∀ t ∈ after, t.type? ≠ some type)
    (hinner : ∀ t ∈ before ++ s :: after, t.Spares type) (c : Checker) :
    (∀ t ∈ before, ∀ other ∈ t.type?, other.name = type.name →
      type.redeclared.diagnose s.location ∈ (linker.check ⟨before ++ s :: after⟩ c).report.errors) ∧
    (∃ d, c.Grows d ∧ ∀ call ∈ programCalls (linker.link linker.bound) ⟨before ++ s :: after⟩ c,
      call.checker.about? type = s.about? d) ∧
    (c.scopes.innermost.has type.name = true →
      type.redeclared.diagnose s.location ∈
        (c.after (stmt (linker.link linker.bound) s)).report.errors) ∧
    (c.after (stmt (linker.link linker.bound) s)).about? type = s.about?
    (c.after (introduce type s.location)) := by
  have hstmt : c.after (stmt (linker.link linker.bound) s) =
      ((c.after (introduce type s.location)).after
      (collectType s)).after (declarationBody (linker.link linker.bound) s) := by
    cases s with
    | session decl | tranceify decl => cases hs; rfl
    | _ => cases hs
  refine ⟨fun t ht other hother hname => mem_errors_of_redeclared hs ht hother hname c, ?_,
    fun hbound => ?_, ?_⟩
  · let p : Program := ⟨before ++ s :: after⟩
    let d := (c.after (names p)).after (p.statements.forM (followLink (linker.link linker.bound)))
    refine ⟨d.after (before.forM collectType), ?_, fun call hcall => ?_⟩
    · exact ((grows (names p) c).trans
        (grows (p.statements.forM (followLink (linker.link linker.bound))) _)).trans
        (grows (before.forM collectType) d)
    · exact (about?_bodiesCalls hinner d call hcall).trans (about?_collectTypes hs hlast d)
  · have hreported := mem_errors_of_introduce hbound s.location
    rw [hstmt]
    exact ((grows (collectType s) _).trans
      (grows (declarationBody (linker.link linker.bound) s) _)).errors.subset hreported
  · rw [hstmt, ← about?_collectType hs]
    have hmade : (Terms.sparing type (linker.link linker.bound)).Made True 0 _ _ _ _ _ :=
      Terms.sparing_declarationBody (hinner s (mem_append_right _ mem_cons_self))
    exact (hmade.about?_eq id Terms.not_learns_sparing).1

namespace Program

/-- A session with one member. -/
def single (member : String) (text : String) (start : Nat) : Session :=
  ⟨"S", [⟨.field ⟨member, none, .value (.text text ⟨1, start + 30⟩), ⟨1, start + 19⟩⟩, true,
    false⟩], ⟨1, start⟩⟩

/-- A member of a new session is shown. -/
def shown (member : String) : Stmt :=
  .observe (.field (.call (.name "S" ⟨1, 89⟩) [] ⟨1, 90⟩) member ⟨1, 92⟩) ⟨1, 81⟩

/-- Two sessions of one name, and a member that is shown. -/
def twice (member : String) : Program :=
  ⟨[.session (single "a" "1" 7)] ++ .session (single "b" "2" 44) :: [shown member]⟩

/-- **The first declaration does not count.** Its member is unknown, while that of the declaration
which is reported is not. -/
theorem twice_counts_last :
    Program.ofText .main ("Focus session S \x7b expose induce a = \"1\"; \x7d " ++
        "session S \x7b expose induce b = \"2\"; \x7d observe S().a; Relax") = .ok (twice "a") ∧
    ((Linker.ofFiles .empty).check (twice "a") (Checker.new "")).report.errors =
      [⟨.redeclaration, "Session 'S' is already declared", ⟨1, 44⟩⟩,
        ⟨.unknownMember, "Session 'S' has no member 'a'", ⟨1, 92⟩⟩] ∧
    ((Linker.ofFiles .empty).check (twice "b") (Checker.new "")).report.errors =
      [⟨.redeclaration, "Session 'S' is already declared", ⟨1, 44⟩⟩] := by
  exact ⟨by set_option maxRecDepth 1000 in with_unfolding_all rfl, rfl, rfl⟩

/-- The second declaration is reported, and each inference goes by it. -/
theorem twice_goes_by_last : (Finding.redeclaredSession "S").diagnose ⟨1, 44⟩ ∈
      ((Linker.ofFiles .empty).check (twice "a") (Checker.new "")).report.errors ∧
    ∃ d, ∀ call ∈ programCalls ((Linker.ofFiles .empty).link (Linker.ofFiles .empty).bound)
    (twice "a") (Checker.new ""),
      call.checker.about? (.session "S") = (Stmt.session (single "b" "2" 44)).about? d := by
  obtain ⟨hreported, ⟨d, -, hcalls⟩, -⟩ := @Linker.last_declaration_counts (.ofFiles .empty)
    [.session (single "a" "1" 7)] [shown "a"] (.session (single "b" "2" 44)) (.session "S") rfl
    (forall_mem_singleton.2 fun h => by cases h)
    (forall_mem_cons.2 ⟨forall_mem_nil _, forall_mem_cons.2 ⟨forall_mem_nil _,
      forall_mem_singleton.2 (forall_mem_nil _)⟩⟩) (Checker.new "")
  exact ⟨hreported _ mem_cons_self _ rfl rfl, d, hcalls⟩

end Program

end Trance
