import Trance.Proofs.Linking.Flat
import Trance.Proofs.Typing.Points

/-!
# Checks and runs agree on linked names

Before a run comes to its entrance blocks, it has let the declarations of the program take effect
and taken over those of the linked files, in the order of their statements. What a name means by
then is what it is first declared to be in this order. The check of the program uses another order,
so the two can disagree about a name that several files declare; they agree if a file that declares
the name behind one of its links is the only one that declares it, and the check reports no error.
-/

namespace Trance

open List Option Store

/-! ## Machines -/

/-- A machine outside of all frames, and what a name means to it. -/
structure Machine.Declared (name : String) (meaning : Option Meaning) (m : Machine) : Prop where
  frames : m.scopes.frames = []
  meaning : m.scopes.globals.meaning? name = meaning

theorem Symbol.meaning_fixed (symbol : Symbol) : symbol.fixed.meaning = symbol.meaning := by
  unfold fixed
  split
  · rename_i hkind
    have hother : symbol.kind ≠ .suggestion := by
      rintro hsuggestion
      rw [hsuggestion] at hkind
      simp at hkind
    rw [meaning_of_kind hother]
    exact meaning_of_kind hother
  · rfl

theorem Bindings.meaning?_eq_map_fixed (bindings : Bindings) (name : String) :
    bindings.meaning? name = (bindings.fixed name).map Symbol.meaning := by
  rw [fixed, Option.map_map]
  exact congrArg (Option.map · _) (funext fun symbol => (symbol.meaning_fixed).symm)

theorem Stmt.Binds.meaning {s : Stmt} {symbol : Symbol} (h : s.Binds symbol) :
    symbol.meaning = s.declared := by
  cases s with
  | induce decl =>
    rw [← symbol.meaning_fixed, show symbol.fixed = _ from h]
    rfl
  | session decl =>
    obtain ⟨ref, rfl⟩ := h
    rfl
  | suggestion decl | tranceify decl =>
    obtain rfl : symbol = _ := h
    rfl
  | _ => exact h.elim

theorem Stmt.first_eq_map_find? (name : String) (body : List Stmt) :
    first name body = ((body.filter (·.declaredName?.isSome)).find? fun s =>
      s.declaredName? = some name).map
      declared := by
  induction body with
  | nil => rfl
  | cons s rest ih =>
    rw [first_cons, ih, meaning?]
    by_cases hname : s.declaredName? = some name
    · simp [hname]
    · cases hdeclares : s.declaredName?.isSome <;> simp [hname, hdeclares]

namespace Exec

variable {cfg : Settings} {n : Nat} {name : String} {u : Option Meaning} {m m' : Machine}

/-! ## Declarations -/

theorem declared_declare {s : Stmt} (hm : m.Declared name u)
    (h : declare (eval cfg n) s m = .done () m') :
    m'.Declared name (u.or (s.meaningIf Stmt.isDeclaration name)) := by
  have hnames : ∀ own, s.declaredName? = some own → s.isDeclaration = true →
      introduce (eval cfg n) s m = .done () m' →
      m'.Declared name (u.or (s.meaningIf Stmt.isDeclaration name)) := by
    intro own hown hdecl h
    obtain ⟨hframes, hfree, ⟨symbol, hfound, hbinds⟩, hothers⟩ := introduce_names hown hm.frames h
    refine ⟨hframes, ?_⟩
    rw [Stmt.meaningIf, if_pos hdecl, Stmt.meaning?, hown, ← hm.meaning]
    by_cases hname : own = name
    · subst hname
      rw [Bindings.meaning?, hfound, Bindings.meaning?, hfree, if_pos rfl, ← hbinds.meaning]
      rfl
    · rw [if_neg (fun heq => hname (Option.some.inj heq)), or_none, Bindings.meaning?_eq_map_fixed,
        hothers name hname, ← Bindings.meaning?_eq_map_fixed]
  cases s with
  | suggestion | session | tranceify => exact hnames _ rfl rfl h
  | _ =>
    cases h
    exact (or_none (o := u)).symm ▸ hm

theorem declared_declares (body : List Stmt) (hm : m.Declared name u)
    (h : body.forM (declare (eval cfg n)) m = .done () m') :
    m'.Declared name (u.or (body.findSome? (Stmt.meaningIf Stmt.isDeclaration name))) := by
  induction body generalizing u m with
  | nil =>
    cases h
    exact (or_none (o := u)).symm ▸ hm
  | cons s rest ih =>
    obtain ⟨_, m₁, hfirst, hrest⟩ := bind_eq_done h
    rw [findSome?_cons_eq_or, ← Option.or_assoc]
    exact ih (declared_declare hm hfirst) hrest

theorem declared_takeOver {entries : List Entry} (hm : m.Declared name u)
    (h : takeOverAll cfg entries n m = .done () m') :
    m'.Declared name (u.or ((Entry.first? name entries).map Stmt.declared)) := by
  obtain ⟨hframes, hkept, hbound⟩ := forM_takeOver_done hm.frames h name
  refine ⟨hframes, ?_⟩
  rw [← hm.meaning, Bindings.meaning?, Bindings.meaning?]
  cases hfound : m.scopes.globals.find? name with
  | some old =>
    obtain ⟨symbol, hsymbol, hfixed⟩ := hkept old hfound
    rw [hsymbol, map_some, map_some, ← symbol.meaning_fixed, hfixed, old.meaning_fixed]
    rfl
  | none =>
    cases hfirst : Entry.first? name entries with
    | some stmt =>
      obtain ⟨symbol, hsymbol, hbinds⟩ := (hbound hfound).1 stmt hfirst
      rw [hsymbol, map_some, hbinds.meaning]
      rfl
    | none =>
      rw [(hbound hfound).2 hfirst]
      rfl

/-- **What a name means to a run that comes to its entrance blocks**: what the program declares it
to be, or else what the linked files do. -/
theorem declared_declarations {linker : Linker} (hfiles : cfg.files = linker.files)
    {origin : Origin} {source : String} {p : Program}
    (hparse : Program.ofText origin source = .ok p) {bound : Nat}
    (h : declarations cfg p bound m.reset = .done () m') (name : String) :
    m'.Declared name ((p.statements.findSome? (Stmt.meaningIf Stmt.isDeclaration name)).or
      (Stmt.first name (Linker.expand (linker.visit linker.bound)
        (linker.gather id linker.bound) m.baseDir
        [] (p.statements.filter (·.isLink))))) := by
  have hp := Program.every_of_ofText hparse
  obtain ⟨_, m₁, hhoisted, hfollowed⟩ := bind_eq_done h
  obtain ⟨hm₁, hdir, hlinked⟩ := (placeless_declarations cfg bound hp).keeps
    (Machine.confined_reset m) (by rw [hhoisted]; rfl)
  have hwithin : (followLinks cfg p bound m₁).Within _ := followLinks_within hp hm₁ bound
  have htaken := hwithin.eq (by rw [followLinks, hfollowed]; exact Outcome.done_ne_exhausted)
  rw [followLinks, hfollowed, hlinked, hdir] at htaken
  have hdeclared := declared_declares p.statements (⟨rfl, rfl⟩ : m.reset.Declared name none) hhoisted
  have hlist := (linker.lists linker.bound m.baseDir [] (p.statements.filter (·.isLink))
    (Nat.lt_succ_of_le countP_le_length)).2
  rw [Stmt.first_eq_map_find?, hlist, ← hfiles]
  exact declared_takeOver hdeclared htaken.symm

end Exec

theorem Exec.program_eq_declarations (cfg : Settings) (bound : Nat) (p : Program) :
    Exec.program cfg bound p = (do
      Exec.declarations cfg p bound
      match ← Exec.entrances (Exec.exec cfg bound) bound p.statements with
      | .awaken _ => pure ()
      | _ => do
        let flow ← Exec.sequence (Exec.mainStmt
          (Exec.exec cfg bound)) p.statements bound p.statements
        Exec.rejectEscape flow) := by
  funext m
  simp only [program, programStep, declarations, Bind.bind, Exec.bind]
  cases p.statements.forM (declare (eval cfg bound)) m <;> rfl

/-- **A checked suggestion is the one that a run finds.** Let the check of a program report no
error, and let a run of the program come to its entrance blocks. Then a name is a suggestion to the
check just if it is that suggestion, from the same file and position, to the run. This is so for
every name that the program declares itself, and for every name such that a file that declares it
behind one of its links is the only file that declares it. -/
theorem Linker.checked_suggestion_is_run {linker : Linker}
    (harrange : ∀ key symbols, (linker.arrange key symbols).Perm symbols) {cfg : Settings}
    (hfiles : cfg.files = linker.files) {origin : Origin} {source : String} {p : Program}
    (hparse : Program.ofText origin source = .ok p) {bound : Nat} {m m' : Machine}
    (hclean : (linker.check p (Checker.new m.baseDir)).report.errors = [])
    (hrun : Exec.declarations cfg p bound m.reset = .done () m') {name : String}
    (hordered : (∃ s ∈ p.statements, s.isDeclaration = true ∧ s.declaredName? = some name) ∨
      linker.Ordered name) (decl : Suggestion) :
    (linker.check p (Checker.new m.baseDir)).scopes.globals.meaning? name = some
      (.suggestion decl) ↔ m'.scopes.globals.meaning? name = some (.suggestion decl) := by
  rw [check_suggestion_iff harrange (Program.linkFree_sites hparse) hclean,
    (Exec.declared_declarations hfiles hparse hrun name).meaning]
  obtain ⟨s, hs, hdecl, hname⟩ | hordered := hordered
  · have hown : (p.statements.findSome? (Stmt.meaningIf Stmt.isDeclaration name)).isSome :=
      List.findSome?_isSome_iff.2 ⟨s, hs, by simp [Stmt.meaningIf, Stmt.meaning?, hdecl, hname]⟩
    obtain ⟨meaning, hmeaning⟩ := Option.isSome_iff_exists.1 hown
    rw [hmeaning, Option.some_or, Option.some_or]
  · rw [first_expand_congr (first_gather_linksLast hordered linker.bound)]

/-! ## An example of a name that two files declare -/

def Suggestion.answering (answer file : String) (column : Nat) : Suggestion :=
  ⟨"f", [], none, [.awaken (some (.text answer ⟨1, column + 24⟩)) ⟨1, column + 17⟩], false, false,
    ⟨1, column⟩, .file [file]⟩

def Symbol.answering (answer file : String) (column : Nat) : Symbol :=
  ⟨"f", .suggestion, none, some (.suggestion (Suggestion.answering answer file column))⟩

def Program.asking : Program :=
  ⟨[.mindLink "a.hyp" ⟨1, 7⟩, .observe (.call (.name "f" ⟨1, 33⟩) [] ⟨1, 34⟩) ⟨1, 25⟩]⟩

def Program.answering : Program := ⟨[.suggestion (Suggestion.answering "b" "b.hyp" 7)]⟩

def Program.answerFirst : Program :=
  ⟨[.suggestion (Suggestion.answering "a" "a.hyp" 7), .mindLink "b.hyp" ⟨1, 38⟩]⟩

def Program.answerLast : Program :=
  ⟨[.mindLink "b.hyp" ⟨1, 7⟩, .suggestion (Suggestion.answering "a" "a.hyp" 25)]⟩

/-- Two files that declare `f`: `b.hyp`, and `a.hyp`, which links it. -/
def Store.answers (first : String) : Store :=
  .pair first "Focus suggestion f() \x7b awaken \"b\"; \x7d Relax"

def Store.answerFirst : Store :=
  .answers "Focus suggestion f() \x7b awaken \"a\"; \x7d mindLink \"b.hyp\"; Relax"

def Store.answerLast : Store :=
  .answers "Focus mindLink \"b.hyp\"; suggestion f() \x7b awaken \"a\"; \x7d Relax"

namespace Program

theorem ofText_asking : ofText .main "Focus mindLink \"a.hyp\"; observe f(); Relax" =
      .ok asking := by
  with_unfolding_all rfl

theorem ofText_answering :
    ofText (.file ["b.hyp"]) "Focus suggestion f() \x7b awaken \"b\"; \x7d Relax" =
      .ok answering := by
  with_unfolding_all rfl

theorem ofText_answerFirst :
    ofText (.file ["a.hyp"]) "Focus suggestion f() \x7b awaken \"a\"; \x7d mindLink \"b.hyp\"; Relax" =
      .ok answerFirst := by with_unfolding_all rfl

theorem ofText_answerLast :
    ofText (.file ["a.hyp"]) "Focus mindLink \"b.hyp\"; suggestion f() \x7b awaken \"a\"; \x7d Relax" =
      .ok answerLast := by with_unfolding_all rfl

end Program

/-- The machine in a directory, once some names are known and some files are linked. -/
def Machine.knowing (dir : String) (globals : Bindings) (linked : List FileKey) : Machine :=
  { Machine.new dir [] none with scopes := ⟨[], globals⟩, linked }

namespace Exec

theorem link_of_done {linker : Linker} {cfg : Settings} (hfiles : cfg.files = linker.files)
    {n : Nat} (loc : Location) {path target : String} {p : Program} {m m' : Machine}
    (htarget : Path.join m.baseDir path = target) (hnew : linker.files.key target ∉ m.linked)
    (hload : linker.load? target = some p)
    (h : p.statements.forM (mergeStmt (eval cfg n) (link cfg n))
      { m with linked := linker.files.key target :: m.linked, baseDir := Path.parent target } =
        .done () m') :
    link cfg (n + 1) path loc m = .done () { m' with baseDir := m.baseDir } := by
  obtain ⟨source, hread, hparse⟩ := Linker.load?_eq_some hload
  rw [link, hfiles, linkStep_eq _ _ _ path loc m htarget, if_neg hnew, load_of_ofText hread hparse]
  simp only [inDirectory, between, h]

variable {cfg : Settings} {first : String} {globals globals' : Bindings}

theorem link_answering (hfiles : cfg.files = .answers first) (loc : Location)
    (h : mergeStmt (eval cfg 3) (link cfg 3) (.suggestion (Suggestion.answering "b" "b.hyp" 7))
        (.knowing (Path.parent "b.hyp") globals
          [(answers first).key "b.hyp", (answers first).key "a.hyp"]) =
      .done () (.knowing (Path.parent "b.hyp") globals'
        [(answers first).key "b.hyp", (answers first).key "a.hyp"])) :
    link cfg 4 "b.hyp" loc (.knowing (Path.parent "a.hyp") globals [(answers first).key "a.hyp"]) =
      .done () (.knowing (Path.parent "a.hyp") globals'
        [(answers first).key "b.hyp", (answers first).key "a.hyp"]) :=
  link_of_done (m := .knowing _ globals _) hfiles loc Path.join_parent_pair key_pair_notMem
    (Linker.load?_pair_second Program.ofText_answering) (bind_of_done h fun _ => pure ())

theorem declarations_asking {p : Program} (hfiles : cfg.files = .answers first)
    (hparse : Program.ofText (.file ["a.hyp"]) first = .ok p)
    (h : p.statements.forM (mergeStmt (eval cfg 4) (link cfg 4))
        (.knowing (Path.parent "a.hyp") [] [(answers first).key "a.hyp"]) =
      .done () (.knowing (Path.parent "a.hyp") globals
        [(answers first).key "b.hyp", (answers first).key "a.hyp"])) :
    declarations cfg .asking 5 (Machine.new "" [] none).reset = .done () (.knowing "" globals
        [(answers first).key "b.hyp", (answers first).key "a.hyp"]) :=
  bind_of_done (link_of_done (m := Machine.new "" [] none) hfiles ⟨1, 7⟩ (Path.join_empty "a.hyp")
    not_mem_nil (Linker.load?_pair_first hparse) h) fun _ => pure ()

theorem declarations_answerFirst :
    ∃ linked, declarations ⟨.answerFirst, 256⟩ .asking 5 (Machine.new "" [] none).reset =
    .done () (.knowing "" [Symbol.answering "a" "a.hyp" 7] linked) :=
  ⟨_, declarations_asking rfl Program.ofText_answerFirst
    (bind_of_done (link_answering rfl ⟨1, 38⟩ rfl) fun _ => pure ())⟩

theorem declarations_answerLast :
    ∃ linked, declarations ⟨.answerLast, 256⟩ .asking 5 (Machine.new "" [] none).reset =
    .done () (.knowing "" [Symbol.answering "b" "b.hyp" 7] linked) := by
  refine ⟨_, declarations_asking rfl Program.ofText_answerLast ?_⟩
  exact (bind_of_done (link_answering rfl ⟨1, 7⟩ rfl) fun _ =>
    [Stmt.suggestion (Suggestion.answering "a" "a.hyp" 25)].forM
      (mergeStmt (eval ⟨.answerLast, 256⟩ 4) (link ⟨.answerLast, 256⟩ 4))).trans rfl

end Exec

/-- The check in `a.hyp` when it comes to the link: `f` is known. -/
def Checker.answering (store : Store) (column : Nat) : Checker :=
  { Checker.new (Path.parent "a.hyp") with
    scopes := ⟨[], [Symbol.answering "a" "a.hyp" column]⟩
    linked := [store.key "a.hyp"] }

namespace Linker

theorem check_asking {first : String} {p : Program}
    (hparse : Program.ofText (.file ["a.hyp"]) first = .ok p) :
    (ofFiles (.answers first)).check .asking (Checker.new "") =
      ((Check.bodies ((ofFiles (.answers first)).link 3) .asking).run
        ((Check.mergeAll ((ofFiles (.answers first)).nested 2 "a.hyp" [] p)
          ((ofFiles (.answers first)).nested 2 "a.hyp" [] p).scopes.globals "a.hyp" ⟨1, 7⟩).run
          { Checker.new "" with linked := [(answers first).key "a.hyp"] }).2).2 :=
  (check_eq_after .asking rfl).trans
    (congrArg (fun c => ((Check.bodies ((ofFiles (.answers first)).link 3) .asking).run c).2)
      (link_merged (c := Checker.new "") 2 ⟨1, 7⟩ (Path.join_empty "a.hyp") not_mem_nil
        (load?_pair_first hparse)))

theorem link_answering (first : String) (loc : Location) (column : Nat) :
    (((ofFiles (.answers first)).link 2 "b.hyp" loc).run (.answering (.answers first) column)).2 =
      { Checker.answering (.answers first) column with
        linked := [(answers first).key "b.hyp", (answers first).key "a.hyp"]
        report := Report.empty.add ((Finding.linkCollision "f" "b.hyp").diagnose loc) } :=
  link_merged 1 loc Path.join_parent_pair key_pair_notMem
    (load?_pair_second Program.ofText_answering)

theorem check_answerFirst : ((ofFiles .answerFirst).check .asking (Checker.new "")).report.errors =
      [] ∧
    ((ofFiles .answerFirst).check .asking (Checker.new "")).scopes.globals.meaning? "f" =
      some (.suggestion (Suggestion.answering "a" "a.hyp" 7)) := by
  have hnested : (ofFiles .answerFirst).nested 2 "a.hyp" [] .answerFirst =
      ((Check.bodies ((ofFiles .answerFirst).link 2) .answerFirst).run
        (((ofFiles .answerFirst).link 2 "b.hyp" ⟨1, 38⟩).run (.answering .answerFirst 7)).2).2 :=
    Check.after_program_of_nil ((ofFiles .answerFirst).link 2) .answerFirst rfl
  rw [Store.answerFirst] at *
  rw [check_asking Program.ofText_answerFirst, hnested, link_answering]
  exact ⟨rfl, rfl⟩

theorem check_answerLast : ((ofFiles .answerLast).check .asking (Checker.new "")).report.errors =
      [] ∧
    ((ofFiles .answerLast).check .asking (Checker.new "")).scopes.globals.meaning? "f" =
      some (.suggestion (Suggestion.answering "a" "a.hyp" 25)) := by
  have hnested : (ofFiles .answerLast).nested 2 "a.hyp" [] .answerLast =
      ((Check.bodies ((ofFiles .answerLast).link 2) .answerLast).run
        (((ofFiles .answerLast).link 2 "b.hyp" ⟨1, 7⟩).run (.answering .answerLast 25)).2).2 :=
    Check.after_program_of_nil ((ofFiles .answerLast).link 2) .answerLast rfl
  rw [Store.answerLast] at *
  rw [check_asking Program.ofText_answerLast, hnested, link_answering]
  exact ⟨rfl, rfl⟩

theorem ordered_answerFirst : (ofFiles .answerFirst).Ordered "f" := by
  intro target p hload hbehind
  obtain ⟨names, source, hmem, hparse⟩ := mem_nodes_of_load? hload
  obtain hnode | hnode : (names, Node.file (some source)) = _ ∨ _ := by
    simpa only [ofFiles, Store.answerFirst, answers, pair, mem_cons, not_mem_nil,
      or_false] using hmem
  · cases hnode
    cases hparse.symm.trans Program.ofText_answerFirst
    cases hbehind
  · cases hnode
    cases hparse.symm.trans Program.ofText_answering
    cases hbehind

/-- The check and the run both know `f` from `a.hyp`, where it is declared before the link. -/
theorem answerFirst_checked_is_run :
    ∃ m', ((ofFiles .answerFirst).check .asking (Checker.new "")).report.errors = [] ∧
    ((ofFiles .answerFirst).check .asking (Checker.new "")).scopes.globals.meaning? "f" =
      some (.suggestion (Suggestion.answering "a" "a.hyp" 7)) ∧
    Exec.declarations ⟨.answerFirst, 256⟩ .asking 5 (Machine.new "" [] none).reset = .done () m' ∧
    m'.scopes.globals.meaning? "f" = some (.suggestion (Suggestion.answering "a" "a.hyp" 7)) := by
  obtain ⟨linked, hrun⟩ := Exec.declarations_answerFirst
  obtain ⟨hclean, hchecked⟩ := check_answerFirst
  have harrange : ∀ key symbols, ((ofFiles .answerFirst).arrange key symbols).Perm symbols :=
    fun _ _ => .refl _
  have hfound :=
    (checked_suggestion_is_run (m := Machine.new "" [] none) harrange rfl Program.ofText_asking
    hclean hrun (.inr ordered_answerFirst) (Suggestion.answering "a" "a.hyp" 7)).1 hchecked
  exact ⟨_, hclean, hchecked, hrun, hfound⟩

/-- **A name declared behind a link can mean one suggestion to the check and another to the run.**
The check finds no error, and takes `f` for the suggestion of `a.hyp`. The run has taken over the
one of `b.hyp` before it comes to that, and the program shows what it answers. -/
theorem answerLast_checked_is_not_run : ∃ m',
    Program.ofText .main "Focus mindLink \"a.hyp\"; observe f(); Relax" = .ok .asking ∧
    ((ofFiles .answerLast).check .asking (Checker.new "")).report.errors = [] ∧
    ((ofFiles .answerLast).check .asking (Checker.new "")).scopes.globals.meaning? "f" =
      some (.suggestion (Suggestion.answering "a" "a.hyp" 25)) ∧
    Exec.declarations ⟨.answerLast, 256⟩ .asking 5 (Machine.new "" [] none).reset = .done () m' ∧
    m'.scopes.globals.meaning? "f" = some (.suggestion (Suggestion.answering "b" "b.hyp" 7)) ∧
    Program.run ⟨.answerLast, 256⟩ 5 .asking (Machine.new "" [] none) =
      .done () { m' with events := #[.line "b"] } := by
  obtain ⟨linked, hrun⟩ := Exec.declarations_answerLast
  refine ⟨_, Program.ofText_asking, check_answerLast.1, check_answerLast.2, hrun, rfl, ?_⟩
  rw [Program.run, Exec.program_eq_declarations, Exec.bind_of_done hrun]
  rfl

end Linker

end Trance
