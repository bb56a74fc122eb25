import Trance.Proofs.Grammar.WellFormed
import Trance.Proofs.Jumps.Linked
import Trance.Proofs.Running.Rewriting

/-!
# Linked files as one list

The files that a program links, directly or through other files, can be laid out as one list of
declarations: a link stands for the statements of its file where the file is linked for the first
time, and for nothing anywhere else.

The list is made by a walk through statements that are still to come, each with the directory of the
file that it is in. The walk ends since there is one file less to link whenever statements are
added. -/

namespace Trance

open List

/-! ## Files -/

theorem Store.unlinked_lt_of_load {files : Store} {linked : List FileKey} {target : String}
    {p : Program} (h : files.load target = .ok p) (hnew : files.key target ∉ linked) :
    files.unlinked (files.key target :: linked) < files.unlinked linked := by
  obtain ⟨source, hread, -⟩ := load_eq_ok h
  exact unlinked_lt hread (by simpa using hnew)

/-! ## The list -/

/-- What stands in the list: that a file is linked, a declaration, or that a link leads to no
program. -/
inductive Entry where
  | file (key : FileKey)
  | declaration (stmt : Stmt)
  | broken (path message : String) (loc : Location)
deriving Inhabited

namespace Entry

def file? : Entry → Option FileKey
  | file key => some key
  | _ => none

def declaration? : Entry → Option Stmt
  | declaration stmt => some stmt
  | _ => none

/-- The files that have been linked after a list, the last one first. -/
def linkedAfter (entries : List Entry) (linked : List FileKey) : List FileKey :=
  (entries.filterMap file?).reverse ++ linked

@[simp] theorem linkedAfter_nil (linked : List FileKey) : linkedAfter [] linked = linked := rfl

@[simp] theorem linkedAfter_file (key : FileKey) (entries : List Entry) (linked : List FileKey) :
    linkedAfter (file key :: entries) linked = linkedAfter entries (key :: linked) := by
  simp [linkedAfter, file?]

@[simp] theorem linkedAfter_declaration (stmt : Stmt) (entries : List Entry)
    (linked : List FileKey) :
    linkedAfter (declaration stmt :: entries) linked = linkedAfter entries linked := rfl

@[simp] theorem linkedAfter_broken (path message : String) (loc : Location) (entries : List Entry)
    (linked : List FileKey) :
    linkedAfter (broken path message loc :: entries) linked = linkedAfter entries linked := rfl

theorem linkedAfter_append (entries entries' : List Entry) (linked : List FileKey) :
    linkedAfter (entries ++ entries') linked = linkedAfter entries'
      (linkedAfter entries linked) := by
  simp [linkedAfter]

theorem subset_linkedAfter (entries : List Entry) (linked : List FileKey) :
    linked ⊆ linkedAfter entries linked :=
  subset_append_right _ _

end Entry

namespace Store

/-- The list for statements that are still to come, each from a directory, where some files have
been linked before. A file that has been linked is passed over; only declarations are kept of
everything else. -/
def flatten (files : Store) : List FileKey → List (String × Stmt) → List Entry
  | _, [] => []
  | linked, (dir, .mindLink path loc) :: rest =>
    let target := Path.join dir path
    if _ : files.key target ∈ linked then
      files.flatten linked rest
    else
      match _ : files.load target with
      | .error message =>
        .file (files.key target) :: .broken path message loc ::
          files.flatten (files.key target :: linked) rest
      | .ok p =>
        .file (files.key target) ::
          files.flatten (files.key target :: linked)
            (p.statements.map (Path.parent target, ·) ++ rest)
  | linked, (_, stmt) :: rest =>
    if stmt.declaredName?.isSome then .declaration stmt :: files.flatten linked rest
    else files.flatten linked rest
termination_by linked pending => (files.unlinked linked, pending.length)
decreasing_by
  · exact .right _ (Nat.lt_succ_self _)
  · obtain hlt | heq := Nat.lt_or_eq_of_le (files.unlinked_le (subset_cons_self _ linked))
    · exact .left _ _ hlt
    · rw [heq]
      exact .right _ (Nat.lt_succ_self _)
  · exact .left _ _ (unlinked_lt_of_load ‹_› ‹_›)
  · exact .right _ (Nat.lt_succ_self _)
  · exact .right _ (Nat.lt_succ_self _)

variable {files : Store}

section

variable {linked : List FileKey} {dir path target : String} {loc : Location}
  {rest : List (String × Stmt)}

theorem flatten_known (h : files.key (Path.join dir path) ∈ linked) :
    files.flatten linked ((dir, .mindLink path loc) :: rest) = files.flatten linked rest := by
  rw [flatten]
  exact dif_pos h

theorem flatten_broken (htarget : Path.join dir path = target) (hnew : files.key target ∉ linked)
    {message : String} (hload : files.load target = .error message) :
    files.flatten linked ((dir, .mindLink path loc) :: rest) = .file (files.key target) ::
      .broken path message loc ::
        files.flatten (files.key target :: linked) rest := by
  subst htarget
  rw [flatten, dif_neg hnew]
  split
  · rename_i hload'
    rw [Except.error.inj (hload'.symm.trans hload)]
  · rename_i hload'
    exact nomatch hload.symm.trans hload'

theorem flatten_loaded (htarget : Path.join dir path = target) (hnew : files.key target ∉ linked)
    {p : Program} (hload : files.load target = .ok p) :
    files.flatten linked ((dir, .mindLink path loc) :: rest) = .file (files.key target) ::
        files.flatten (files.key target :: linked)
          (p.statements.map (Path.parent target, ·) ++ rest) := by
  subst htarget
  rw [flatten, dif_neg hnew]
  split
  · rename_i hload'
    exact nomatch hload.symm.trans hload'
  · rename_i hload'
    rw [Except.ok.inj (hload'.symm.trans hload)]

theorem flatten_other {stmt : Stmt} (h : stmt.isLink = false) :
    files.flatten linked ((dir, stmt) :: rest) =
    if stmt.declaredName?.isSome then .declaration stmt :: files.flatten linked rest
    else files.flatten linked rest := by
  cases stmt with
  | mindLink => cases h
  | _ => rw [flatten]; nofun

end

theorem flatten_append (linked : List FileKey) (xs ys : List (String × Stmt)) :
    files.flatten linked (xs ++ ys) =
    files.flatten linked xs ++ files.flatten
      (Entry.linkedAfter (files.flatten linked xs) linked) ys := by
  fun_induction files.flatten linked xs with
  | case1 => rfl
  | case2 linked dir path loc rest target hknown ih => rw [cons_append, flatten_known hknown, ih]
  | case3 linked dir path loc rest target hnew message hload ih =>
    rw [cons_append, flatten_broken rfl hnew hload, ih]
    simp [target]
  | case4 linked dir path loc rest target hnew p hload ih =>
    rw [cons_append, flatten_loaded rfl hnew hload, ← append_assoc, ih]
    simp [target]
  | case5 linked dir stmt rest hlink hdeclares ih =>
    rw [cons_append, flatten, if_pos hdeclares, ih]
    · simp
    · exact hlink
  | case6 linked dir stmt rest hlink hdeclares ih =>
    rw [cons_append, flatten, if_neg hdeclares, ih]
    exact hlink

theorem flatten_cons (linked : List FileKey) (first : String × Stmt) (rest : List (String × Stmt)) :
    files.flatten linked (first :: rest) = files.flatten linked [first] ++
        files.flatten (Entry.linkedAfter (files.flatten linked [first]) linked) rest :=
  flatten_append linked [first] rest

/-- **No file stands in the list twice**, and none that has been linked before. -/
theorem nodup_flatten (linked : List FileKey) (pending : List (String × Stmt)) :
    ((files.flatten linked pending).filterMap Entry.file?).Nodup ∧
      ∀ key ∈ (files.flatten linked pending).filterMap Entry.file?, key ∉ linked := by
  fun_induction files.flatten linked pending with
  | case1 => simp
  | case2 _ _ _ _ _ _ _ ih => exact ih
  | case3 linked dir path loc rest target hnew message hload ih =>
    simp only [mem_cons, not_or] at ih
    simp only [filterMap_cons, Entry.file?, nodup_cons, forall_mem_cons]
    exact ⟨⟨fun hmem => (ih.2 _ hmem).1 rfl, ih.1⟩, hnew, fun key hkey => (ih.2 key hkey).2⟩
  | case4 linked dir path loc rest target hnew p hload ih =>
    simp only [mem_cons, not_or] at ih
    simp only [filterMap_cons, Entry.file?, nodup_cons, forall_mem_cons]
    exact ⟨⟨fun hmem => (ih.2 _ hmem).1 rfl, ih.1⟩, hnew, fun key hkey => (ih.2 key hkey).2⟩
  | case5 _ _ _ _ _ _ ih => exact ih
  | case6 _ _ _ _ _ _ ih => exact ih

end Store

/-! ## Statements without links inside -/

theorem Stmt.Every.inner {good : Stmt → Prop} {stmt : Stmt}
    (h : stmt.Every fun part => ∀ child ∈ part.children, good child) :
    ∀ part ∈ stmt.inner, good part := by
  induction stmt using Stmt.induction_children with
  | h stmt ih =>
    rw [inner_eq]
    exact forall_mem_listParts.2 fun child hchild =>
      ⟨h.1 child hchild, ih child hchild (h.child child hchild)⟩

theorem Program.every_of_ofText {origin : Origin} {source : String} {p : Program}
    (h : Program.ofText origin source = .ok p) :
    ∀ stmt ∈ p.statements, stmt.isLink = true ∨ stmt.Every (·.isLink = false) := by
  intro stmt hstmt
  obtain ⟨d⟩ := Grammar.sentence_of_ofTokens h
  have hparts := forall_mem_listParts.1 (d.wellFormed (List.Subset.refl _)) stmt hstmt
  have hlink : ∀ child : Stmt, child.isTopLevel = false → child.isLink = false := by
    intro child hchild
    cases child with
    | mindLink => exact hchild
    | _ => rfl
  by_cases hstmt' : stmt.isLink = true
  · exact .inl hstmt'
  · exact .inr ⟨Bool.eq_false_iff.2 hstmt', Stmt.Every.inner
      ⟨fun child hchild => hlink child (hparts.1.nested child hchild),
        fun part hpart child hchild => hlink child ((hparts.2 part hpart).nested child hchild)⟩⟩

end Trance
