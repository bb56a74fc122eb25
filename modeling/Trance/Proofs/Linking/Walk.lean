import Trance.Proofs.Jumps.Linked

/-!
# The files behind a link

Which files a check has linked depends only on where the links lead. It is a walk through the files
in the order of their links, which goes into each file once. -/

namespace Trance

/-- The files that the links of a program lead to. -/
def Program.targets (p : Program) (dir : String) : List String := p.links.map (Path.join dir)

namespace Linker

variable (linker : Linker)

def targets (target : String) : List String :=
  match linker.load? target with
  | some p => p.targets (Path.parent target)
  | none => []

/-- The files that are linked once a link has been followed, from those that were linked before. The
bound is on the nesting of links. -/
def visit : Nat → List FileKey → String → List FileKey
  | 0, linked, _ => linked
  | bound + 1, linked, target =>
    if linker.files.key target ∈ linked then linked
    else (linker.targets target).foldl (visit bound) (linker.files.key target :: linked)

/-- The files that the links of a file lead to, directly or through other files. -/
def behind (target : String) : List FileKey :=
  (linker.targets target).foldl (linker.visit linker.bound) []

variable {linker} {bound : Nat}

theorem followLinks_linked (hlink : ∀ path loc (c : Checker),
      ((linker.link bound path loc).run c).2.linked =
      linker.visit bound c.linked (Path.join c.baseDir path)) (body : List Stmt) (c : Checker) :
    ((body.forM (Check.followLink (linker.link bound))).run c).2.linked =
      (Program.targets ⟨body⟩ c.baseDir).foldl (linker.visit bound) c.linked := by
  induction body generalizing c with
  | nil => rfl
  | cons stmt rest ih =>
    cases stmt with
    | mindLink path loc =>
      have hrest := ih ((linker.link bound path loc).run c).2
      rw [(Check.grows (linker.link bound path loc) c).baseDir, hlink path loc c] at hrest
      exact hrest
    | _ => exact ih c

variable {p : Program}

theorem program_linked
    (hlink : ∀ path loc (c : Checker), ((linker.link bound path loc).run c).2.linked =
      linker.visit bound c.linked (Path.join c.baseDir path))
    (hp : LinkFree p.sites) {c : Checker} (hc : c.context = .top) (hnone : c.deferred = []) :
    ((Check.program (linker.link bound) p).run c).2.linked =
      (p.targets c.baseDir).foldl (linker.visit bound) c.linked := by
  obtain ⟨new, hmoves, -⟩ := Check.moves_program (linker.link bound) hp hc hnone
  have hnames := Check.silent_names p c
  rw [hmoves.stays, followLinks_linked hlink, hnames.baseDir, hnames.stays]

/-- **A check that follows a link has then linked what the walk visits.** -/
theorem link_linked (linker : Linker) (bound : Nat) (path : String) (loc : Location) (c : Checker) :
    ((linker.link bound path loc).run c).2.linked =
      linker.visit bound c.linked (Path.join c.baseDir path) := by
  induction bound generalizing path loc c with
  | zero => rfl
  | succ bound ih =>
    generalize htarget : Path.join c.baseDir path = target
    rw [visit]
    by_cases hnew : linker.files.key target ∈ c.linked
    · rw [if_pos hnew, link_known bound loc htarget hnew]
    rw [if_neg hnew, targets]
    cases hload : linker.load? target with
    | none =>
      rw [(link_failed bound loc htarget hnew hload).2]
      rfl
    | some p =>
      obtain ⟨source, -, hparse⟩ := load?_eq_some hload
      rw [(link_loaded bound loc htarget hnew hload).2.1, nested, program_linked ih
        (Program.linkFree_sites hparse) rfl rfl]
      rfl

theorem load?_of_text {target source : String} {names : List String}
    (hresolve : linker.files.resolve target = .ok names)
    (hnode : linker.files.node? names = some (.file (some source)))
    (hparse : Program.ofText (.file names) source = .ok p) : linker.load? target = some p := by
  have hkey : linker.files.key target = ⟨true, names⟩ := by simp only [Store.key, hresolve]
  simp only [load?, Store.read, hresolve, hnode, hkey, FileKey.origin, hparse, Except.toOption]

theorem mem_nodes_of_load? {target : String} (h : linker.load? target = some p) :
    ∃ names source, (names, Node.file (some source)) ∈ linker.files.nodes ∧
      Program.ofText (.file names) source = .ok p := by
  obtain ⟨source, hread, hparse⟩ := load?_eq_some h
  obtain ⟨names, hmem, hkey⟩ := Store.mem_nodes_of_read hread
  rw [hkey] at hparse
  exact ⟨names, source, hmem, hparse⟩

theorem key_mem_linked (linker : Linker) (bound : Nat) (path : String) (loc : Location)
    (c : Checker) :
    linker.files.key (Path.join c.baseDir path) ∈
      ((linker.link (bound + 1) path loc).run c).2.linked := by
  by_cases hnew : linker.files.key (Path.join c.baseDir path) ∈ c.linked
  · exact (Check.grows (linker.link (bound + 1) path loc) c).linked hnew
  cases hload : linker.load? (Path.join c.baseDir path) with
  | none =>
    rw [(link_failed bound loc rfl hnew hload).2]
    exact List.mem_cons_self
  | some p =>
    have hnested := Check.grows (Check.program (linker.link bound) p)
      { Checker.new (Path.parent (Path.join c.baseDir path)) with
        linked := linker.files.key (Path.join c.baseDir path) :: c.linked }
    rw [(link_loaded bound loc rfl hnew hload).2.1]
    exact hnested.linked List.mem_cons_self

end Linker

/-! ## Two files -/

def Store.pair (first second : String) : Store :=
  ⟨[(["a.hyp"], .file (some first)), (["b.hyp"], .file (some second))], []⟩

namespace Store

variable {first second : String}

theorem resolve_pair {name : String} (h : name = "a.hyp" ∨ name = "b.hyp") :
    (pair first second).resolve name = .ok [name] := by
  obtain rfl | rfl := h
  · rw [resolve, show Path.segments "a.hyp" = ["a.hyp"] by rfl,
      show "a.hyp".startsWith "/" = false by with_unfolding_all rfl]
    rfl
  · rw [resolve, show Path.segments "b.hyp" = ["b.hyp"] by rfl,
      show "b.hyp".startsWith "/" = false by with_unfolding_all rfl]
    rfl

theorem key_pair {name : String} (h : name = "a.hyp" ∨ name = "b.hyp") :
    (pair first second).key name = ⟨true, [name]⟩ := by
  rw [key, resolve_pair h]

theorem key_pair_notMem : (pair first second).key "b.hyp" ∉ [(pair first second).key "a.hyp"] := by
  rw [key_pair (.inl rfl), key_pair (.inr rfl)]
  decide

end Store

theorem Path.join_empty (path : String) : join "" path = path := by simp [join]

theorem Path.join_parent_pair : join (parent "a.hyp") "b.hyp" = "b.hyp" := by with_unfolding_all rfl

namespace Linker

variable {first second : String} {p : Program}

theorem load?_pair_first (h : Program.ofText (.file ["a.hyp"]) first = .ok p) :
    (ofFiles (.pair first second)).load? "a.hyp" = some p :=
  load?_of_text (Store.resolve_pair (.inl rfl)) rfl h

theorem load?_pair_second (h : Program.ofText (.file ["b.hyp"]) second = .ok p) :
    (ofFiles (.pair first second)).load? "b.hyp" = some p :=
  load?_of_text (Store.resolve_pair (.inr rfl)) rfl h

end Linker

end Trance
