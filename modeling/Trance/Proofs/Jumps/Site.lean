import Trance.Checking.Statement
import Trance.Proofs.Running.Statement

/-!
# Jumps and what they can reach

A `snap` or `sink` is taken up by a loop around it, and a `sinkTo` by a list around it that has the
label; both end at the body of a suggestion. Which loops and lists are around a jump can be read off
the tree. A jump that nothing takes up is stray.
-/

namespace Trance

/-! ## Jumps -/

/-- The jump that a statement makes. -/
def Stmt.flow? : Stmt → Option Flow
  | snap loc => some (.snap loc)
  | sink loc => some (.sink loc)
  | sinkTo name loc => some (.jump name loc)
  | _ => none

def Stmt.isLink : Stmt → Bool
  | mindLink .. => true
  | _ => false

/-- What is reported before a run about an error that ends it: a code and a position. Only jumps
that nothing takes up are reported in this way. -/
def RuntimeError.finding? : RuntimeError → Option (Code × Location)
  | raised (.jumpOutsideLoop _) loc => some (.jumpOutsideLoop, loc)
  | raised (.unresolvedLabel _) loc => some (.unknownLabel, loc)
  | _ => none

theorem RuntimeError.finding?_eq_none {e : RuntimeError} (h : e.isJump = false) :
    e.finding? = none := by
  cases e with
  | output | panicked => rfl
  | raised cause loc =>
    cases cause with
    | jumpOutsideLoop | unresolvedLabel => exact nomatch h
    | _ => rfl

/-! ## Reach -/

/-- What is around a place: the number of loops, and the labels of each list, the innermost first.
-/
structure Reach where
  loops : Nat
  labels : List (List String)
deriving DecidableEq, Repr, Inhabited

namespace Reach

def fresh : Reach := ⟨0, []⟩

def within (reach : Reach) (body : List Stmt) : Reach :=
  { reach with labels := Check.labelsOf body :: reach.labels }

def inLoop (reach : Reach) : Reach := { reach with loops := reach.loops + 1 }

/-- Whether something around a place takes up a way to end there. What is no jump needs nothing. -/
def takes (reach : Reach) : Flow → Bool
  | .snap _ | .sink _ => reach.loops ≠ 0
  | .jump label _ => reach.labels.any (·.contains label)
  | .normal | .awaken _ => true

end Reach

theorem afterLabel?_eq_none_iff {label : String} {body : List Stmt} :
    Stmt.afterLabel? label body = none ↔ (Check.labelsOf body).contains label = false := by
  induction body with
  | nil => simp [Stmt.afterLabel?, Check.labelsOf]
  | cons first rest ih =>
    rw [Stmt.afterLabel?_cons]
    cases first with
    | label name loc =>
      by_cases hname : name = label
      · simp [Stmt.labelName?, Check.labelsOf, hname]
      · have hlabels : Check.labelsOf (.label name loc :: rest) = name :: Check.labelsOf rest := rfl
        simp only [hlabels, List.contains_cons, beq_eq_false_iff_ne.2 (Ne.symm hname),
          Bool.false_or, Stmt.labelName?, Option.some.injEq, hname, if_false, ih]
    | _ => simpa [Stmt.labelName?, Check.labelsOf] using ih

namespace Reach

variable {reach : Reach} {flow : Flow}

theorem takes_within {body : List Stmt} (h : flow.leavesList body) :
    (reach.within body).takes flow = reach.takes flow := by
  cases flow with
  | jump label loc =>
    have hlabel := afterLabel?_eq_none_iff.1 h
    simp only [takes, within, List.any_cons, hlabel, Bool.false_or]
  | _ => rfl

theorem leavesList_of_not_takes {body : List Stmt} (h : (reach.within body).takes flow = false) :
    flow.leavesList body := by
  cases flow with
  | normal | awaken => exact nomatch h
  | snap | sink => exact trivial
  | jump label loc =>
    simp only [takes, within, List.any_cons, Bool.or_eq_false_iff] at h
    exact afterLabel?_eq_none_iff.2 h.1

theorem takes_inLoop (h : flow.leavesLoop) : reach.inLoop.takes flow = reach.takes flow := by
  cases flow with
  | normal | snap | sink => exact h.elim
  | jump | awaken => rfl

theorem leavesLoop_of_not_takes (h : reach.inLoop.takes flow = false) : flow.leavesLoop := by
  cases flow with
  | normal | awaken => exact nomatch h
  | snap | sink => simp [takes, inLoop] at h
  | jump => exact trivial

end Reach

/-! ## Sites -/

/-- A jump or a link, and what is around it. -/
structure Site where
  reach : Reach
  stmt : Stmt

/-- What there is to report about a site: a jump that nothing takes up. -/
def Site.finding? (site : Site) : Option (Code × Location) :=
  match site.stmt.flow? with
  | some flow => if site.reach.takes flow then none else flow.error?.bind RuntimeError.finding?
  | none => none

mutual

def Stmt.sites (reach : Reach) : Stmt → List Site
  | .branch _ yes no _ =>
    listSites (reach.within yes) yes ++
      match no with
      | some no => listSites (reach.within no) no
      | none => []
  | .whileLoop _ body _ => listSites (reach.inLoop.within body) body
  | .loop init _ _ body _ =>
    (match init with
      | some init => Stmt.sites reach init
      | none => []) ++ listSites (reach.inLoop.within body) body
  | .suggestion decl => suggestionSites decl
  | .session decl => sessionSites decl
  | .entrance body _ => listSites (reach.within body) body
  | .snap loc => [⟨reach, .snap loc⟩]
  | .sink loc => [⟨reach, .sink loc⟩]
  | .sinkTo label loc => [⟨reach, .sinkTo label loc⟩]
  | .mindLink path loc => [⟨reach, .mindLink path loc⟩]
  | .induce _ | .tranceify _ | .observe .. | .awaken .. | .label .. | .assert .. | .expr .. => []

def listSites (reach : Reach) : List Stmt → List Site
  | [] => []
  | first :: rest => Stmt.sites reach first ++ listSites reach rest

/-- The sites of a suggestion. Nothing around its body takes up a jump. -/
def suggestionSites : Suggestion → List Site
  | ⟨_, _, _, body, _, _, _, _⟩ => listSites (Reach.fresh.within body) body

def sessionSites : Session → List Site
  | ⟨_, all, _⟩ => membersSites all

def membersSites : List Member → List Site
  | [] => []
  | first :: rest => memberSites first ++ membersSites rest

def memberSites : Member → List Site
  | ⟨decl, _, _⟩ => memberDeclSites decl

def memberDeclSites : MemberDecl → List Site
  | .field _ => []
  | .method decl => suggestionSites decl

end

theorem Stmt.sites_branch (reach : Reach) (cond : Expr) (yes : List Stmt) (no : Option (List Stmt))
    (loc : Location) : Stmt.sites reach (.branch cond yes no loc) =
      listSites (reach.within yes) yes ++ no.elim [] fun no => listSites (reach.within no) no := by
  cases no <;> rfl

theorem Stmt.sites_loop (reach : Reach) (init : Option Stmt) (cond step : Option Expr)
    (body : List Stmt) (loc : Location) :
    Stmt.sites reach (.loop init cond step body loc) =
      init.elim [] (Stmt.sites reach) ++ listSites (reach.inLoop.within body) body := by
  cases init <;> rfl

def LinkFree (sites : List Site) : Prop := ∀ site ∈ sites, site.stmt.isLink = false

theorem LinkFree.append {sites sites' : List Site} (h : LinkFree (sites ++ sites')) :
    LinkFree sites ∧ LinkFree sites' :=
  List.forall_mem_append.1 h

/-- The sites of a statement at the top level. A link there is no site, and an entrance block is not
within the list. -/
def Stmt.topSites (reach : Reach) : Stmt → List Site
  | .entrance body _ => listSites (Reach.fresh.within body) body
  | .mindLink .. => []
  | stmt => stmt.sites reach

def Program.sites (p : Program) : List Site :=
  p.statements.flatMap (Stmt.topSites (Reach.fresh.within p.statements))

end Trance
