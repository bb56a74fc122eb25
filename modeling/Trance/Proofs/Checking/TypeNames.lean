import Trance.Proofs.Checking.Settling
import Trance.Proofs.Jumps.Linked

/-!
# Type names that a check accepts

A check knows only types that the program declares, and it reports each record literal and each
suggestion with a type that it does not know. So if it reports no error, these types are declared
somewhere in the program. -/

namespace Trance

open List

/-! ## Sites -/

mutual

theorem Stmt.sites_every {ok : Stmt → Prop} : ∀ (s : Stmt) {reach : Reach}, s.Every ok →
    ∀ site ∈ s.sites reach, ok site.stmt
  | .branch _ yes none _, _, h =>
    forall_mem_append.2 ⟨listSites_every yes (forall_mem_append.1 h.2).1, nofun⟩
  | .branch _ yes (some no) _, _, h => forall_mem_append.2
    ⟨listSites_every yes (forall_mem_append.1 h.2).1, listSites_every no (forall_mem_append.1 h.2).2⟩
  | .whileLoop _ body _, _, h | .loop none _ _ body _, _, h | .entrance body _, _, h =>
    listSites_every body h.2
  | .loop (some init) _ _ body _, _, h =>
    have ⟨hinit, hbody⟩ := forall_mem_append.1 h.2
    forall_mem_append.2 ⟨Stmt.sites_every init (forall_mem_cons.1 hinit), listSites_every body hbody⟩
  | .suggestion decl, _, h => suggestionSites_every decl h.2
  | .session decl, _, h => sessionSites_every decl h.2
  | .snap _, _, h | .sink _, _, h | .sinkTo .., _, h | .mindLink .., _, h =>
    forall_mem_singleton.2 h.1
  | .induce _, _, _ | .tranceify _, _, _ | .observe .., _, _ | .awaken .., _, _ | .label .., _,
    _ | .assert .., _, _
  | .expr .., _, _ => nofun

theorem listSites_every {ok : Stmt → Prop} : ∀ (body : List Stmt) {reach : Reach},
    (∀ part ∈ listParts body, ok part) → ∀ site ∈ listSites reach body, ok site.stmt
  | [], _, _ => nofun
  | first :: rest, _, h =>
    have ⟨hfirst, hrest⟩ :=
      forall_mem_append.1 (show ∀ part ∈ (first :: first.inner) ++ listParts rest, _ from h)
    forall_mem_append.2 ⟨Stmt.sites_every first (forall_mem_cons.1 hfirst),
      listSites_every rest hrest⟩

theorem suggestionSites_every {ok : Stmt → Prop} : ∀ (decl : Suggestion),
    (∀ part ∈ suggestionParts decl, ok part) → ∀ site ∈ suggestionSites decl, ok site.stmt
  | ⟨_, _, _, body, _, _, _, _⟩, h => listSites_every body h

theorem sessionSites_every {ok : Stmt → Prop} : ∀ (decl : Session),
    (∀ part ∈ sessionParts decl, ok part) → ∀ site ∈ sessionSites decl, ok site.stmt
  | ⟨_, all, _⟩, h => membersSites_every all h

theorem membersSites_every {ok : Stmt → Prop} : ∀ (all : List Member),
    (∀ part ∈ membersParts all, ok part) → ∀ site ∈ membersSites all, ok site.stmt
  | [], _ => nofun
  | first :: rest, h =>
    have ⟨hfirst, hrest⟩ := forall_mem_append.1 h
    forall_mem_append.2 ⟨memberSites_every first hfirst, membersSites_every rest hrest⟩

theorem memberSites_every {ok : Stmt → Prop} : ∀ (entry : Member),
    (∀ part ∈ memberParts entry, ok part) → ∀ site ∈ memberSites entry, ok site.stmt
  | ⟨decl, _, _⟩, h => memberDeclSites_every decl h

theorem memberDeclSites_every {ok : Stmt → Prop} : ∀ (decl : MemberDecl),
    (∀ part ∈ memberDeclParts decl, ok part) → ∀ site ∈ memberDeclSites decl, ok site.stmt
  | .field _, _ => nofun
  | .method decl, h => suggestionSites_every decl h

end

namespace Program

variable {p : Program}

theorem linkFree_of_parts (h : ∀ s ∈ p.parts, s.isLink = false) : LinkFree p.sites := by
  intro site hsite
  obtain ⟨s, hs, hsite⟩ := mem_flatMap.1 hsite
  have hevery := every_of_parts h s hs
  cases s with
  | entrance body loc => exact listSites_every body hevery.2 site hsite
  | mindLink => cases hsite
  | _ =>
    exact Stmt.sites_every _ hevery site
      (show site ∈ Stmt.sites (Reach.fresh.within p.statements) _ from hsite)

end Program

/-! ## Programs without links -/

section

open Check

variable {p : Program} (hlinks : ∀ s ∈ p.parts, s.isLink = false) (link : Follower) (c : Checker)

include hlinks

theorem Check.after_followLinks : c.after (p.statements.forM (followLink link)) = c := by
  rw [Checker.after, run_followLinks link fun s hs => (Program.every_of_parts hlinks s hs).1]

theorem Check.after_linkFree [∀ path loc, Blind (link path loc)] (hc : c.deferred = []) :
    c.after (program link p) = (c.after (names p)).after (bodies link p) := by
  rw [after_program_of_nil link p hc, after_followLinks hlinks link]

end

namespace Terms

open Check

variable {T : Terms} {p : Program} (hT : ¬T.links) (hopens : ∀ kind, T.opens kind)
  (hlinks : ∀ s ∈ p.parts, s.isLink = false) (hadmits : ∀ s ∈ p.parts, T.Admits s)

theorem Stands.new {dir : String} : T.Stands (Checker.new dir) := ⟨⟨nofun, nofun⟩, nofun, nofun⟩

theorem Sound.new {dir : String} (h : ∀ name, T.writes name →
      T.infers ((Ty.builtin? name).getD .unknown)) :
    T.Sound (Checker.new dir) := by
  refine ⟨.new, fun name hname => ?_⟩
  have hlookup : (Checker.new dir).lookup? name = Ty.builtin? name := by
    unfold Checker.lookup?
    cases Ty.builtin? name <;> rfl
  exact hlookup ▸ h name hname

include hT hopens hlinks hadmits

theorem settles_bodies {c : Checker} (hc : T.Sound c) : (T.clean (c.after (bodies T.link p)) →
      T.Sound (c.after (bodies T.link p)) ∧ ∀ s ∈ p.parts, T.Checked s) ∧
    ∀ call ∈ bodiesCalls T.link p c, T.clean call.checker → T.Sound call.checker := by
  have hmade := made_bodies (k := 0) (q := True) (fun _ => hopens)
    (.of_linkFree (Program.linkFree_of_parts hlinks)) (Program.every_of_parts hadmits)
  obtain ⟨hend, hcalls⟩ := hmade.settles hT trivial hc
  exact ⟨fun hclean => ⟨(hend hclean).1, forall_mem_listParts.2 (hend hclean).2⟩, hcalls⟩

/-- **The check of a program without links keeps to its terms as long as its states are clean.** -/
theorem settles_program [∀ path loc, Blind (T.link path loc)] {c : Checker} (hc : T.Sound c)
    (hnone : c.deferred = []) : (T.clean (c.after (program T.link p)) →
      T.Sound (c.after (program T.link p)) ∧ ∀ s ∈ p.parts, T.Checked s) ∧
    ∀ call ∈ programCalls T.link p c, T.clean call.checker → T.Sound call.checker := by
  have htop := Program.every_of_parts hadmits
  have hnames :=
    ((looks_names (k := 0) (fun _ => hopens) fun s hs => (htop s hs).1).settles hT trivial hc).1
  have hmade := made_bodies (k := 0) (q := True) (fun _ => hopens)
    (.of_linkFree (Program.linkFree_of_parts hlinks)) htop
  have hgrows := (hmade.growing fun h => absurd h hT).grows (c.after (names p))
  rw [after_linkFree hlinks T.link c hnone, programCalls, after_followLinks hlinks]
  refine ⟨fun hclean => ?_, fun call hcall hclean => ?_⟩
  · have hnamed := (hnames (T.earlier hclean hgrows.toBefore)).1
    exact (settles_bodies hT hopens hlinks hadmits hnamed).1 hclean
  · have hnamed := (hnames (T.earlier hclean (hmade.between hT (c.after (names p)) call hcall).1)).1
    exact (settles_bodies hT hopens hlinks hadmits hnamed).2 call hcall hclean

end Terms

/-! ## Types -/

namespace Program

variable {p : Program}

def Declares (p : Program) (type : Ty) : Prop := ∃ s ∈ p.parts, s.type? = some type

/-- Terms on which only types that a program declares become known, and there are no errors. -/
def declaring (p : Program) (link : Follower) : Terms :=
  { Check.unlinked (fun _ => True) link link with
    types := p.Declares
    clean := fun c => c.report.errors = []
    known := fun _ => trivial
    unknown := fun _ => trivial
    earlier := fun hclean hbefore => prefix_nil.1 (hclean ▸ hbefore.errors) }

variable {link : Follower}

theorem admits_declaring : ∀ s ∈ p.parts, (p.declaring link).Admits s := fun s hs =>
  Terms.admits_of_type (fun _ _ _ => trivial) (fun _ => trivial) fun _ htype _ _ _ => ⟨s, hs, htype⟩

theorem tolerates_declaring : ¬(p.declaring link).Tolerates := by
  rintro ⟨finding, herror, c, loc, hclean⟩
  have herrors : (c.report.add (finding.diagnose loc)).errors = [] := hclean
  simp [Report.add, Diagnostic.severity, Finding.diagnose, herror] at herrors

/-- **If the check of a program without links reports no error, then the types in it are declared.**
-/
theorem checked_of_check {linker : Linker} {dir : String} (hlinks : ∀ s ∈ p.parts, s.isLink = false)
    (hclean : (linker.check p (Checker.new dir)).report.errors = []) :
    ∀ s ∈ p.parts, (p.declaring (linker.link linker.bound)).Checked s :=
  have : ∀ path loc, Check.Blind ((p.declaring (linker.link linker.bound)).link path loc) :=
    Check.blind_link linker _
  ((Terms.settles_program (T := p.declaring (linker.link linker.bound)) id
    (fun _ => trivial) hlinks admits_declaring
    (.new fun _ _ => trivial) rfl).1 hclean).2

end Program

/-- **The record literals of a program without links and without errors have declared types.** -/
theorem Linker.declared_of_check {linker : Linker} {p : Program} {dir : String}
    (hlinks : ∀ s ∈ p.parts, s.isLink = false)
    (hclean : (linker.check p (Checker.new dir)).report.errors = []) {name : String}
    {given : List (String × Expr)} {loc : Location} (h : .record name given loc ∈ p.exprs) :
    ∃ decl, .tranceify decl ∈ p.parts ∧ decl.name = name := by
  obtain ⟨top, htop, hpart⟩ := mem_exprParts.1 h
  obtain ⟨s, hs, hexpr⟩ := mem_flatMap.1 htop
  have hevery := (Program.checked_of_check hlinks hclean s hs).exprs top hexpr
  have hbuilds : (p.declaring (linker.link linker.bound)).Builds (.record name given loc) := by
    obtain rfl | hinner := hpart
    · exact hevery.here
    · exact hevery.inner hinner
  obtain ⟨part, hmem, htype⟩ := hbuilds.resolve_right Program.tolerates_declaring
  cases part with
  | tranceify decl => exact ⟨decl, hmem, by cases htype; rfl⟩
  | _ => cases htype

end Trance
