import Trance.Proofs.Linking.Flatten
import Trance.Proofs.Linking.Walk

/-!
# What linked files declare

A run takes over the statements of a linked file in their order, and those of the files that it
links where the links stand. A check takes over what a file declares itself before what the files
declare that it links. Both keep the first declaration of a name. The two orders give the same first
declaration if no file declares the name behind one of its links, or if no other file declares it.
-/

namespace Trance

open List Option

/-! ## Meanings -/

/-- What a name is declared to be: a suggestion, or something else. -/
inductive Meaning where
  | suggestion (decl : Suggestion)
  | other

theorem findSome?_cons_eq_or {σ τ : Type} (f : σ → Option τ) (s : σ) (rest : List σ) :
    (s :: rest).findSome? f = (f s).or (rest.findSome? f) := by
  rw [findSome?_cons]
  cases f s <;> rfl

namespace Stmt

def declared : Stmt → Meaning
  | suggestion decl => .suggestion decl
  | _ => .other

def meaning? (name : String) (s : Stmt) : Option Meaning :=
  if s.declaredName? = some name then some s.declared else none

/-- What the first declaration of a name in a list declares it to be. -/
def first (name : String) (body : List Stmt) : Option Meaning := body.findSome? (meaning? name)

variable {name : String} {body body' : List Stmt}

@[simp] theorem first_cons (s : Stmt) :
    first name (s :: body) = (s.meaning? name).or (first name body) :=
  findSome?_cons_eq_or _ s body

@[simp] theorem first_append : first name (body ++ body') =
      (first name body).or (first name body') :=
  findSome?_append

theorem first_eq_none_iff : first name body = none ↔ ∀ s ∈ body, s.declaredName? ≠ some name := by
  simp [first, findSome?_eq_none_iff, meaning?]

@[simp] theorem meaning?_mindLink (path : String) (loc : Location) :
    (mindLink path loc).meaning? name = none := rfl

/-- Whether a name is declared behind the first link of a list. -/
def declaresBehindLink (name : String) : List Stmt → Bool
  | [] => false
  | .mindLink .. :: rest => (first name rest).isSome
  | _ :: rest => declaresBehindLink name rest

theorem declaresBehindLink_eq_false (h : first name body = none) :
    declaresBehindLink name body = false := by
  induction body with
  | nil => rfl
  | cons s rest ih =>
    rw [first_cons, or_eq_none_iff] at h
    cases s with
    | mindLink => rw [declaresBehindLink, h.2, isSome_none]
    | _ => exact ih h.2

def linksLast (body : List Stmt) : List Stmt := body.filter (!·.isLink) ++ body.filter (·.isLink)

theorem first_filter_others : first name (body.filter (!·.isLink)) = first name body := by
  induction body with
  | nil => rfl
  | cons s rest ih =>
    cases s with
    | mindLink =>
      rw [filter_cons_of_neg (by simp [isLink]), ih, first_cons, meaning?_mindLink, none_or]
    | _ => rw [filter_cons_of_pos rfl, first_cons, first_cons, ih]

theorem first_filter_links : first name (body.filter (·.isLink)) = none := by
  rw [first_eq_none_iff]
  intro s hs
  have hlink := (mem_filter.1 hs).2
  cases s with
  | mindLink => nofun
  | _ => exact nomatch hlink

end Stmt

/-! ## Statements that are taken over -/

namespace Linker

/-- Statements with what is gathered in the places of their links. `visit` says which files have
been linked after a link. -/
def expand (visit : List FileKey → String → List FileKey)
    (gather : List FileKey → String → List Stmt)
    (dir : String) : List FileKey → List Stmt → List Stmt
  | _, [] => []
  | linked, .mindLink path _ :: rest =>
    gather linked (Path.join dir path) ++ expand visit gather dir
      (visit linked (Path.join dir path)) rest
  | linked, s :: rest => s :: expand visit gather dir linked rest

/-- The statements that are taken over for a link, if the statements of each file are taken in a
certain order. -/
def gather (linker : Linker) (order : List Stmt → List Stmt) :
    Nat → List FileKey → String → List Stmt
  | 0, _, _ => []
  | bound + 1, linked, target =>
    if linker.files.key target ∈ linked then []
    else
      match linker.load? target with
      | none => []
      | some p =>
        expand (linker.visit bound) (gather linker order bound) (Path.parent target)
          (linker.files.key target :: linked) (order p.statements)

section

variable {visit : List FileKey → String → List FileKey}
  {gather gather' : List FileKey → String → List Stmt} {dir name : String}

theorem expand_cons_of_not_isLink {s : Stmt} (h : s.isLink = false) (linked : List FileKey)
    (rest : List Stmt) :
    expand visit gather dir linked (s :: rest) = s :: expand visit gather dir linked rest := by
  cases s with
  | mindLink => exact nomatch h
  | _ => rfl

theorem expand_append_of_not_isLink {others : List Stmt} (h : ∀ s ∈ others, s.isLink = false)
    (linked : List FileKey) (rest : List Stmt) :
    expand visit gather dir linked (others ++ rest) = others ++
      expand visit gather dir linked rest := by
  induction others with
  | nil => rfl
  | cons s others ih =>
    obtain ⟨hs, hothers⟩ := forall_mem_cons.1 h
    rw [cons_append, expand_cons_of_not_isLink hs, ih hothers, cons_append]

theorem expand_cons (linked : List FileKey) (s : Stmt) (rest : List Stmt) :
    expand visit gather dir linked (s :: rest) = expand visit gather dir linked [s] ++
      expand visit gather dir ((Program.targets ⟨[s]⟩ dir).foldl visit linked) rest := by
  cases s with
  | mindLink path loc => simp [expand, Program.targets, Program.links]
  | _ => rfl

theorem first_expand_congr
    (h : ∀ linked target, Stmt.first name (gather linked target) =
      Stmt.first name (gather' linked target))
    (linked : List FileKey) (body : List Stmt) :
    Stmt.first name (expand visit gather dir linked body) =
      Stmt.first name (expand visit gather' dir linked body) := by
  induction body generalizing linked with
  | nil => rfl
  | cons s rest ih =>
    cases s with
    | mindLink path loc => simp only [expand, Stmt.first_append, h, ih]
    | _ => simp only [expand, Stmt.first_cons, ih]

theorem first_expand_of_before {body : List Stmt} (h : Stmt.declaresBehindLink name body = false)
    (linked : List FileKey) :
    Stmt.first name (expand visit gather dir linked body) = (Stmt.first name body).or
        (Stmt.first name (expand visit gather dir linked (body.filter (·.isLink)))) := by
  induction body generalizing linked with
  | nil => rfl
  | cons s rest ih =>
    cases s with
    | mindLink path loc =>
      have hrest : Stmt.first name rest = none := by simpa [Stmt.declaresBehindLink] using h
      have hlater := ih (Stmt.declaresBehindLink_eq_false hrest) (visit linked (Path.join dir path))
      rw [hrest, none_or] at hlater
      rw [filter_cons_of_pos rfl]
      simp only [expand, Stmt.first_append, Stmt.first_cons, Stmt.meaning?_mindLink, hrest, hlater,
        none_or]
    | _ =>
      rw [expand_cons_of_not_isLink rfl, filter_cons_of_neg (by simp [Stmt.isLink]),
        Stmt.first_cons, Stmt.first_cons, ih h, Option.or_assoc]

theorem first_expand_linksLast (linked : List FileKey) (body : List Stmt) :
    Stmt.first name (expand visit gather dir linked (Stmt.linksLast body)) =
      (Stmt.first name body).or
        (Stmt.first name (expand visit gather dir linked (body.filter (·.isLink)))) := by
  have hothers : ∀ s ∈ body.filter (!·.isLink), s.isLink = false := fun s hs => by
    simpa using (mem_filter.1 hs).2
  rw [Stmt.linksLast, expand_append_of_not_isLink hothers, Stmt.first_append,
    Stmt.first_filter_others]

theorem expand_filter_subset (linked : List FileKey) (body : List Stmt) :
    expand visit gather dir linked (body.filter (·.isLink)) ⊆
      expand visit gather dir linked body := by
  induction body generalizing linked with
  | nil => exact List.Subset.refl _
  | cons s rest ih =>
    cases s with
    | mindLink path loc =>
      exact append_subset.2 ⟨subset_append_left _ _, subset_append_of_subset_right _ (ih _)⟩
    | _ => exact subset_cons_of_subset _ (ih linked)

theorem first_expand_of_silent {owner : FileKey}
    (hvisit : ∀ linked target, owner ∈ linked → owner ∈ visit linked target)
    (hgather : ∀ linked target, owner ∈ linked → Stmt.first name (gather linked target) = none)
    {linked : List FileKey} (howner : owner ∈ linked) (body : List Stmt) :
    Stmt.first name (expand visit gather dir linked body) = Stmt.first name body := by
  induction body generalizing linked with
  | nil => rfl
  | cons s rest ih =>
    cases s with
    | mindLink path loc =>
      simp only [expand, Stmt.first_append, hgather _ _ howner, none_or, ih (hvisit _ _ howner),
        Stmt.first_cons, Stmt.meaning?_mindLink]
    | _ => simp only [expand, Stmt.first_cons, ih howner]

end

/-! ## Names that one file declares -/

theorem subset_visit (linker : Linker) (bound : Nat) (linked : List FileKey) (target : String) :
    linked ⊆ linker.visit bound linked target := by
  induction bound generalizing linked target with
  | zero => exact List.Subset.refl _
  | succ bound ih =>
    have hfold : ∀ (targets : List String) (linked : List FileKey),
        linked ⊆ targets.foldl (linker.visit bound) linked := by
      intro targets
      induction targets with
      | nil => exact fun linked => List.Subset.refl _
      | cons target rest ihrest =>
        exact fun linked => List.Subset.trans (ih linked target) (ihrest _)
    rw [visit]
    split
    · exact List.Subset.refl _
    · exact List.Subset.trans (subset_cons_self _ _) (hfold _ _)

variable {linker : Linker}

theorem first_gather_eq_none {name : String} {owner : FileKey}
    (honly : ∀ target p, linker.load? target = some p → linker.files.key target ≠ owner →
      Stmt.first name p.statements = none)
    (bound : Nat) (linked : List FileKey) (target : String) (howner : owner ∈ linked) :
    Stmt.first name (linker.gather id bound linked target) = none := by
  induction bound generalizing linked target with
  | zero => rfl
  | succ bound ih =>
    rw [gather]
    split
    · rfl
    rename_i hnew
    cases hload : linker.load? target with
    | none => rfl
    | some p =>
      rw [first_expand_of_silent (fun _ _ h => subset_visit linker bound _ _ h) ih
        (mem_cons_of_mem _ howner)]
      exact honly target p hload fun h => hnew (h ▸ howner)

/-- A file that declares a name behind one of its links is the only one that declares it. -/
def Ordered (linker : Linker) (name : String) : Prop :=
  ∀ target p, linker.load? target = some p → Stmt.declaresBehindLink name p.statements = true →
    ∀ target' p', linker.load? target' = some p' → Stmt.first name p'.statements ≠ none →
      linker.files.key target' = linker.files.key target

/-- **Both orders give the same first declaration.** -/
theorem first_gather_linksLast {name : String} (h : linker.Ordered name) (bound : Nat)
    (linked : List FileKey) (target : String) :
    Stmt.first name (linker.gather Stmt.linksLast bound linked target) =
      Stmt.first name (linker.gather id bound linked target) := by
  induction bound generalizing linked target with
  | zero => rfl
  | succ bound ih =>
    rw [gather, gather]
    split
    · rfl
    cases hload : linker.load? target with
    | none => rfl
    | some p =>
      simp only [id]
      rw [first_expand_linksLast, first_expand_congr ih]
      cases hbehind : Stmt.declaresBehindLink name p.statements with
      | false => exact (first_expand_of_before hbehind _).symm
      | true =>
        -- only this file declares the name, and it is linked by now
        have honly : ∀ target' q, linker.load? target' = some q →
            linker.files.key target' ≠ linker.files.key target →
              Stmt.first name q.statements = none :=
          fun target' q hq hne => Classical.not_not.1
            (mt (h target p hload hbehind target' q hq) hne)
        have hsilent := first_gather_eq_none honly bound
        rw [first_expand_of_silent (fun _ _ h => subset_visit linker bound _ _ h) hsilent
          mem_cons_self, first_expand_of_silent
            (fun _ _ h => subset_visit linker bound _ _ h) hsilent
          mem_cons_self, Stmt.first_filter_links, or_none]

/-! ## The list of a run -/

theorem load?_eq_toOption (linker : Linker) (target : String) :
    linker.load? target = (linker.files.load target).toOption := by
  unfold load? Store.load
  cases linker.files.read target with
  | error => rfl
  | ok source =>
    simp only
    cases Program.ofText (linker.files.key target).origin source <;> rfl

/-- What a walk with some bound gathers for statements is their list: the same files have been
linked after both, and the same declarations stand in both. -/
def Lists (linker : Linker) (bound : Nat) (dir : String) (linked : List FileKey)
    (body : List Stmt) : Prop :=
  (Program.targets ⟨body⟩ dir).foldl (linker.visit bound) linked =
    Entry.linkedAfter (linker.files.flatten linked (body.map (dir, ·))) linked ∧
  (expand (linker.visit bound) (linker.gather id bound) dir linked body).filter
    (·.declaredName?.isSome) =
    (linker.files.flatten linked (body.map (dir, ·))).filterMap Entry.declaration?

theorem Lists.link {bound : Nat} {dir path : String} {loc : Location} {linked : List FileKey}
    (hbound : linker.files.unlinked linked < bound + 1)
    (h : ∀ dir linked body, linker.files.unlinked linked < bound →
      linker.Lists bound dir linked body) :
    linker.Lists (bound + 1) dir linked [.mindLink path loc] := by
  generalize htarget : Path.join dir path = target
  have hvisit : (Program.targets ⟨[.mindLink path loc]⟩ dir).foldl
      (linker.visit (bound + 1)) linked = linker.visit (bound + 1) linked target := htarget ▸ rfl
  have hgather : expand (linker.visit (bound + 1)) (linker.gather id (bound + 1)) dir linked
      [.mindLink path loc] = linker.gather id (bound + 1) linked target := by
    rw [← htarget]
    exact append_nil _
  rw [Lists, hvisit, hgather, visit, gather, targets, load?_eq_toOption, map_singleton]
  by_cases hknown : linker.files.key target ∈ linked
  · rw [if_pos hknown, if_pos hknown, Store.flatten_known (htarget ▸ hknown), Store.flatten]
    exact ⟨rfl, rfl⟩
  rw [if_neg hknown, if_neg hknown]
  cases hload : linker.files.load target with
  | error message =>
    rw [Store.flatten_broken htarget hknown hload, Store.flatten]
    exact ⟨rfl, rfl⟩
  | ok p =>
    have hless := Store.unlinked_lt_of_load hload hknown
    obtain ⟨hlinked, hdeclared⟩ :=
      h (Path.parent target) (linker.files.key target :: linked) p.statements (by omega)
    rw [Store.flatten_loaded htarget hknown hload, append_nil, Entry.linkedAfter_file]
    exact ⟨hlinked, hdeclared⟩

theorem Lists.other {s : Stmt} (hlink : s.isLink = false) (bound : Nat) (dir : String)
    (linked : List FileKey) : linker.Lists bound dir linked [s] := by
  have htargets : Program.targets ⟨[s]⟩ dir = [] := by
    cases s with
    | mindLink => cases hlink
    | _ => rfl
  rw [Lists, htargets, expand_cons_of_not_isLink hlink, map_singleton, Store.flatten_other hlink,
    Store.flatten]
  cases hname : s.declaredName?.isSome <;> simp [expand, hname, Entry.declaration?]

theorem Lists.mem_expand {bound : Nat} {dir : String} {linked : List FileKey} {body : List Stmt}
    (h : linker.Lists bound dir linked body) {stmt : Stmt}
    (hstmt : .declaration stmt ∈ linker.files.flatten linked (body.map (dir, ·))) :
    stmt ∈ expand (linker.visit bound) (linker.gather id bound) dir linked body := by
  have hmem : stmt ∈ (linker.files.flatten linked
      (body.map (dir, ·))).filterMap Entry.declaration? :=
    mem_filterMap.2 ⟨_, hstmt, rfl⟩
  rw [← h.2] at hmem
  exact mem_of_mem_filter hmem

/-- **What is gathered in the order of a run is the list that a run takes over**, if the bound
suffices for the files that are left. -/
theorem lists (linker : Linker) (bound : Nat) (dir : String) (linked : List FileKey)
    (body : List Stmt)
    (h : linker.files.unlinked linked < bound) : linker.Lists bound dir linked body := by
  induction bound generalizing dir linked body with
  | zero => exact absurd h (Nat.not_lt_zero _)
  | succ bound ih =>
    induction body generalizing linked with
    | nil =>
      rw [Lists, map_nil, Store.flatten]
      exact ⟨rfl, rfl⟩
    | cons s rest ihrest =>
      have hfirst : linker.Lists (bound + 1) dir linked [s] := by
        cases s with
        | mindLink path loc => exact .link h ih
        | _ => exact .other rfl _ dir linked
      have hsub := Entry.subset_linkedAfter (linker.files.flatten linked [(dir, s)]) linked
      obtain ⟨hlinked, hdeclared⟩ := ihrest _ (Nat.lt_of_le_of_lt (linker.files.unlinked_le hsub) h)
      have htargets : Program.targets ⟨s :: rest⟩ dir = Program.targets ⟨[s]⟩ dir ++
          Program.targets ⟨rest⟩ dir := by
        rw [← singleton_append]
        simp only [Program.targets, Program.links, filterMap_append, map_append]
      rw [Lists, map_cons, Store.flatten_cons, Entry.linkedAfter_append, filterMap_append, htargets,
        foldl_append, expand_cons, filter_append, hfirst.1, hfirst.2]
      exact ⟨hlinked, congrArg (_ ++ ·) hdeclared⟩

end Linker

end Trance
