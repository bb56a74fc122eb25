import Trance.Proofs.Linking.Declared
import Trance.Proofs.Linking.TakeOver
import Trance.Proofs.Running.Shadowing

/-!
# Following links is taking over one list

The links of a program lead from file to file, perhaps in circles. Following them is taking over one
list of declarations, and each name is bound by the first declaration that the list has of it. -/

namespace Trance

open List Option Entry

/-! ## Names -/

/-- What a declaration binds its name to. The value of a variable may have been assigned since. -/
def Stmt.Binds (stmt : Stmt) (symbol : Symbol) : Prop :=
  match stmt with
  | .induce decl => symbol.fixed = ⟨decl.name, .variable, decl.typeName, none⟩
  | .suggestion decl => symbol = ⟨decl.name, .suggestion, none, some (.suggestion decl)⟩
  | .session decl => ∃ ref, symbol = ⟨decl.name, .session, some decl.name, some (.session ref)⟩
  | .tranceify decl => symbol = ⟨decl.name, .record, some decl.name, none⟩
  | _ => False

theorem Stmt.Binds.of_fixed {stmt : Stmt} {a b : Symbol} (h : stmt.Binds a)
    (hfixed : b.fixed = a.fixed) : stmt.Binds b := by
  cases stmt with
  | induce decl => exact hfixed.trans h
  | suggestion decl | tranceify decl =>
    obtain rfl : a = _ := h
    exact Symbol.eq_of_fixed_eq hfixed nofun nofun
  | session decl =>
    obtain ⟨ref, rfl⟩ := h
    exact ⟨ref, Symbol.eq_of_fixed_eq hfixed nofun nofun⟩
  | _ => exact h.elim

/-- The first declaration of a name in a list. -/
def Entry.first? (name : String) (entries : List Entry) : Option Stmt :=
  (entries.filterMap declaration?).find? fun stmt => stmt.declaredName? = some name

namespace Exec

section

variable {cfg : Settings} {bound : Nat} {m m' : Machine} {name : String}

theorem introduce_done {stmt : Stmt} (hname : stmt.declaredName? = some name)
    (h : introduce (eval cfg bound) stmt m = .done () m') :
    ∃ symbol m₁, m.Evolves (fun _ _ => True) false m₁ ∧ m₁.scopes.define? symbol = some m'.scopes ∧
      symbol.name = name ∧ stmt.Binds symbol := by
  cases stmt with
  | induce decl =>
    cases hname
    rw [introduce, induce_eq] at h
    obtain ⟨value, m₁, hvalue, h⟩ := bind_eq_done h
    obtain ⟨scopes, hdefine, rfl⟩ := define_done h
    have hstart : Develops (fun _ _ => True) false m (startValue (eval cfg bound) decl) := by
      unfold startValue
      cases decl.start with
      | external => exact (Changes.readExternal decl).develops
      | value init => exact develops_eval init
      | unset =>
        exact (Task.develops cfg bound (.default decl.typeName decl.location) m).mono fun _ _ _ =>
          trivial
    exact ⟨_, m₁, hstart.done hvalue, hdefine, rfl, rfl⟩
  | suggestion decl =>
    cases hname
    obtain ⟨scopes, hdefine, rfl⟩ := define_done h
    exact ⟨_, m, .refl, hdefine, rfl, rfl⟩
  | session decl =>
    cases hname
    obtain ⟨object, m₁, hbuilt, h⟩ := bind_eq_done h
    obtain ⟨ref, m₂, hallocated, h⟩ := bind_eq_done h
    obtain ⟨_, m₃, hdefined, h⟩ := bind_eq_done h
    obtain ⟨scopes, hdefine, rfl⟩ := define_done hdefined
    cases h
    have hstatics := (Task.develops cfg bound (.statics (Instance.empty decl.name)
      (decl.members.filter (·.dominant))) m).done hbuilt
    have hevolves := (hstatics.mono fun _ _ _ => trivial).trans
      ((Changes.allocate object).develops.done hallocated)
    exact ⟨_, m₂, hevolves, hdefine, rfl, ref, rfl⟩
  | tranceify decl =>
    cases hname
    obtain ⟨_, m₁, hdefined, h⟩ := bind_eq_done h
    obtain ⟨scopes, hdefine, rfl⟩ := define_done hdefined
    cases h
    exact ⟨_, m, .refl, hdefine, rfl, rfl⟩
  | _ => cases hname

theorem find?_of_define? {s t : Scopes} {symbol : Symbol} (hframes : s.frames = [])
    (h : s.define? symbol = some t) :
    t.frames = [] ∧ s.globals.find? symbol.name = none ∧ ∀ other, t.globals.find? other =
        (s.globals.find? other).or (if symbol.name = other then some symbol else none) := by
  rw [Scopes.define?_of_frames_eq_nil hframes] at h
  obtain ⟨globals, hadd, rfl⟩ := map_eq_some_iff.1 h
  refine ⟨hframes, ?_, fun other => ?_⟩
  · unfold Bindings.add? at hadd
    split at hadd
    · cases hadd
    · rename_i hhas
      simpa [Bindings.has] using hhas
  · rw [Bindings.eq_append_of_add? hadd, Bindings.find?, List.find?_append, List.find?_singleton]
    simp only [beq_iff_eq]
    rfl

theorem introduce_names {stmt : Stmt} (hname : stmt.declaredName? = some name)
    (hframes : m.scopes.frames = []) (h : introduce (eval cfg bound) stmt m = .done () m') :
    m'.scopes.frames = [] ∧ m.scopes.globals.find? name = none ∧
      (∃ symbol, m'.scopes.globals.find? name = some symbol ∧ stmt.Binds symbol) ∧
      ∀ other, name ≠ other → m'.scopes.globals.fixed other = m.scopes.globals.fixed other := by
  obtain ⟨symbol, m₁, hevolves, hdefine, rfl, hbinds⟩ := introduce_done hname h
  have hfixed := hevolves.fixed (.inl rfl)
  simp only [Scopes.outer, Scopes.fixed, hframes, map_nil, Prod.mk.injEq, map_eq_nil_iff] at hfixed
  obtain ⟨hframes', hfree, hfind⟩ := find?_of_define? hfixed.1 hdefine
  have hnone := congrFun hfixed.2 symbol.name
  refine ⟨hframes', ?_, ⟨symbol, ?_, hbinds⟩, fun other hother => ?_⟩
  · simpa [Bindings.fixed, hfree] using hnone.symm
  · rw [hfind, hfree, if_pos rfl, none_or]
  · rw [Bindings.fixed, hfind, if_neg hother, or_none]
    exact congrFun hfixed.2 other

theorem takeOver_done {entry : Entry} (hframes : m.scopes.frames = [])
    (h : takeOver (eval cfg bound) entry m = .done () m') (name : String) :
    m'.scopes.frames = [] ∧
    ((m'.scopes.globals.fixed name = m.scopes.globals.fixed name ∧
        (m.scopes.globals.find? name = none → first? name [entry] = none)) ∨
      (m.scopes.globals.find? name = none ∧ ∃ stmt symbol, first? name [entry] = some stmt ∧
        m'.scopes.globals.find? name = some symbol ∧ stmt.Binds symbol)) := by
  cases entry with
  | file key =>
    cases h
    exact ⟨hframes, .inl ⟨rfl, fun _ => rfl⟩⟩
  | broken => cases h
  | declaration stmt =>
    cases hdeclares : stmt.declaredName? with
    | none =>
      rw [takeOver_of_not_declares hdeclares] at h
      cases h
      exact ⟨hframes, .inl ⟨rfl, fun _ => by simp [first?, declaration?, hdeclares]⟩⟩
    | some own =>
      have hfirst : first? name [.declaration stmt] = if own = name then some stmt else none := by
        simp [first?, declaration?, List.find?_singleton, hdeclares]
      simp only [takeOver, Bind.bind, Exec.bind, machine, Machine.knows, hdeclares, map_some,
        getD_some] at h
      split at h
      · rename_i htaken
        cases h
        refine ⟨hframes, .inl ⟨rfl, fun hfree => ?_⟩⟩
        rw [hfirst, if_neg]
        rintro rfl
        simp [Bindings.has, hfree] at htaken
      · obtain ⟨hframes', hfree, ⟨symbol, hfound, hbinds⟩, hothers⟩ :=
          introduce_names hdeclares hframes h
        refine ⟨hframes', ?_⟩
        by_cases hname : own = name
        · subst hname
          exact .inr ⟨hfree, stmt, symbol, by rw [hfirst, if_pos rfl], hfound, hbinds⟩
        · exact .inl ⟨hothers name hname, fun _ => by rw [hfirst, if_neg hname]⟩

theorem first?_cons (name : String) (entry : Entry) (entries : List Entry) :
    first? name (entry :: entries) = (first? name [entry]).or (first? name entries) := by
  rw [first?, ← singleton_append, filterMap_append, List.find?_append]
  rfl

/-- **A list that has been taken over binds each name once**: to what it stood for before, or else
by its first declaration in the list. -/
theorem forM_takeOver_done {entries : List Entry} (hframes : m.scopes.frames = [])
    (h : entries.forM (takeOver (eval cfg bound)) m = .done () m') (name : String) :
    m'.scopes.frames = [] ∧
    (∀ old, m.scopes.globals.find? name = some old →
      ∃ symbol, m'.scopes.globals.find? name = some symbol ∧ symbol.fixed = old.fixed) ∧
    (m.scopes.globals.find? name = none → (∀ stmt, first? name entries = some stmt →
        ∃ symbol, m'.scopes.globals.find? name = some symbol ∧ stmt.Binds symbol) ∧
      (first? name entries = none → m'.scopes.globals.find? name = none)) := by
  induction entries generalizing m with
  | nil =>
    cases h
    exact ⟨hframes, fun old hold => ⟨old, hold, rfl⟩, fun hfree => ⟨nofun, fun _ => hfree⟩⟩
  | cons entry rest ih =>
    obtain ⟨_, m₁, hentry, hrest⟩ := bind_eq_done h
    obtain ⟨hframes₁, hstep⟩ := takeOver_done hframes hentry name
    obtain ⟨hframes', hkept, hbound⟩ := ih hframes₁ hrest
    refine ⟨hframes', ?_⟩
    rw [first?_cons]
    obtain ⟨hfixed, hpassed⟩ | ⟨hfree, stmt, symbol, hfirst, hsymbol, hbinds⟩ := hstep
    · unfold Bindings.fixed at hfixed
      refine ⟨fun old hold => ?_, fun hfree => ?_⟩
      · rw [hold, map_some] at hfixed
        obtain ⟨symbol, hsymbol, heq⟩ := map_eq_some_iff.1 hfixed
        obtain ⟨symbol', hsymbol', heq'⟩ := hkept symbol hsymbol
        exact ⟨symbol', hsymbol', heq'.trans heq⟩
      · rw [hpassed hfree, none_or]
        rw [hfree, map_none] at hfixed
        exact hbound (map_eq_none_iff.1 hfixed)
    · refine ⟨fun old hold => absurd (hold.symm.trans hfree) nofun, fun _ => ?_⟩
      obtain ⟨symbol', hsymbol', heq⟩ := hkept symbol hsymbol
      rw [hfirst, some_or]
      refine ⟨?_, nofun⟩
      rintro _ ⟨⟩
      exact ⟨symbol', hsymbol', hbinds.of_fixed heq⟩

end

end Exec

open Exec in
/-- **Following the links of a program is taking over one list of declarations.**

Take a program that has been read from a text, and the machine on which the run of the program
begins to follow links, after its own declarations have taken effect. Lay the files that can be
reached from the program through links out as one list: a walk from link to link, each from the
directory of the file that it is in, goes into every file where it comes to it for the first time.
Then:

* The links are followed with the outcome, and leave the machine behind, with which the list is
  taken over from the first entry to the last: a declaration whose name is global is passed over,
  and no value is evaluated for it; every other one takes effect; the first link that leads to no
  program fails.
* This comes to an end if the values do that are evaluated for declarations which are not passed
  over.
* No file stands in the list twice, and if all links could be followed, the files of the list are
  the ones that have been linked.
* If all links could be followed, names that were global before are bound as before, and all other
  names of the list are bound by their first declarations in it. -/
theorem links_taken_over_as_list {origin : Origin} {source : String} {p : Program}
    (hparse : Program.ofText origin source = .ok p) {cfg : Settings} {bound : Nat}
    {start m : Machine}
    (hdeclared : p.statements.forM (declare (eval cfg bound)) start.reset = .done () m)
    {entries : List Entry} (hentries : cfg.files.flatten [] (p.outset start.baseDir) = entries) :
    (∀ o, Ends (followLinks cfg p) m o ↔ Ends (takeOverAll cfg entries) m o) ∧
    ((∀ before stmt after m', entries = before ++ .declaration stmt :: after →
        Ends (takeOverAll cfg before) m (.done () m') → m'.knows stmt = false →
        ∃ o, Ends (fun bound => firstValues (eval cfg bound) stmt) m' o) →
      ∃ o, Ends (followLinks cfg p) m o) ∧
    (entries.filterMap Entry.file?).Nodup ∧
    ∀ m', Ends (followLinks cfg p) m (.done () m') →
    m'.linked = (entries.filterMap Entry.file?).reverse ∧ ∀ name,
        (∀ old, m.scopes.globals.find? name = some old →
          ∃ symbol, m'.scopes.globals.find? name = some symbol ∧ symbol.fixed = old.fixed) ∧
        (m.scopes.globals.find? name = none → (∀ stmt, Entry.first? name entries = some stmt →
            ∃ symbol, m'.scopes.globals.find? name = some symbol ∧ stmt.Binds symbol) ∧
          (Entry.first? name entries = none → m'.scopes.globals.find? name = none)) := by
  have hp := Program.every_of_ofText hparse
  obtain ⟨hm, hdir, hlinked⟩ := (placeless_declarations cfg bound hp).keeps
    (Machine.confined_reset start) (by rw [hdeclared]; rfl)
  have hiff : ∀ {o}, Ends (followLinks cfg p) m o ↔ Ends (takeOverAll cfg entries) m o := by
    intro o
    rw [ends_followLinks_iff hp hm, hlinked, hdir, ← hentries]
    rfl
  refine ⟨fun o => hiff, fun hvalues => ?_, ?_, fun m' hends => ?_⟩
  · obtain ⟨o, hends⟩ | ⟨before, entry, after, m', heq, hbefore, hstuck⟩ :=
      Ends.forM_or (fun bound => takeOver (eval cfg bound)) entries m
    · exact ⟨o, hiff.2 hends⟩
    · refine absurd (ends_takeOver cfg entry m' fun stmt hstmt hknows => ?_) hstuck
      subst hstmt
      exact hvalues before stmt after m' heq hbefore hknows
  · rw [← hentries]
    exact (Store.nodup_flatten _ _).1
  · obtain ⟨bound', htaken⟩ := (hiff.1 hends).exists_eq
    have hframes : m.scopes.frames = [] := by
      have hkinds := (Task.develops cfg bound (.hoist p.statements) start.reset).done hdeclared
      exact map_eq_nil_iff.1 hkinds.inPlace.kinds
    have hevery : ∀ stmt, .declaration stmt ∈ cfg.files.flatten [] (p.outset start.baseDir) →
        stmt.Every NoLink := every_of_mem_outset hp [] start.baseDir
    rw [hentries] at hevery
    refine ⟨?_, fun name => (forM_takeOver_done hframes htaken name).2⟩
    obtain ⟨-, -, htakes⟩ := forM_takeOver_keeps cfg bound' hevery hm
      (congrArg Outcome.machine? htaken)
    rw [htakes htaken, hlinked]
    exact append_nil _

/-! ## A cycle -/

def Program.oneLink (path : String) : Program := ⟨[.mindLink path ⟨1, 7⟩]⟩

def Variable.starting (text : String) : Variable :=
  ⟨"x", none, .value (.text text ⟨1, 36⟩), ⟨1, 25⟩⟩

def Program.linkFirst (path text : String) : Program :=
  ⟨[.mindLink path ⟨1, 7⟩, .induce (.starting text)]⟩

def Store.cycle : Store :=
  .pair "Focus mindLink \"b.hyp\"; induce x = \"a\"; Relax"
    "Focus mindLink \"a.hyp\"; induce x = \"b\"; Relax"

namespace Store

theorem load_cycle_first : cycle.load "a.hyp" = .ok (.linkFirst "b.hyp" "a") := by
  refine load_of_ofText (by rw [read, cycle, resolve_pair (.inl rfl)]; rfl) ?_
  rw [cycle, key_pair (.inl rfl)]
  with_unfolding_all rfl

theorem load_cycle_second : cycle.load "b.hyp" = .ok (.linkFirst "a.hyp" "b") := by
  refine load_of_ofText (by rw [read, cycle, resolve_pair (.inr rfl)]; rfl) ?_
  rw [cycle, key_pair (.inr rfl)]
  with_unfolding_all rfl

theorem key_cycle {name : String} (h : name = "a.hyp" ∨ name = "b.hyp") :
    cycle.key name = ⟨true, [name]⟩ :=
  key_pair h

theorem flatten_cycle : cycle.flatten [] ((Program.oneLink "a.hyp").outset "") =
    [.file ⟨true, ["a.hyp"]⟩, .file ⟨true, ["b.hyp"]⟩, .declaration (.induce (.starting "b")),
      .declaration (.induce (.starting "a"))] := by
  have hback : Path.join (Path.parent "b.hyp") "a.hyp" = "a.hyp" := by with_unfolding_all rfl
  have hnew : cycle.key "b.hyp" ∉ [cycle.key "a.hyp"] := key_pair_notMem
  have hknown : cycle.key (Path.join (Path.parent "b.hyp") "a.hyp") ∈
      [cycle.key "b.hyp", cycle.key "a.hyp"] := by
    rw [hback]
    exact mem_cons_of_mem _ mem_cons_self
  have hlinks : ∀ path text (dir : String) rest,
      (Program.linkFirst path text).statements.map (dir, ·) ++ rest =
        (dir, .mindLink path ⟨1, 7⟩) :: (dir, .induce (.starting text)) :: rest := fun _ _ _ _ => rfl
  rw [show (Program.oneLink "a.hyp").outset "" = [("", .mindLink "a.hyp" ⟨1, 7⟩)] from rfl,
    flatten_loaded (Path.join_empty "a.hyp") not_mem_nil load_cycle_first, hlinks,
    flatten_loaded Path.join_parent_pair hnew load_cycle_second, hlinks, flatten_known hknown,
    flatten_other rfl, flatten_other rfl, flatten, key_cycle (.inl rfl), key_cycle (.inr rfl)]
  rfl

end Store

open Exec in
/-- Both files are linked once, and `x` is bound by the one that links back. -/
theorem links_taken_over_as_list_cycle :
    ∃ m m', (Program.oneLink "a.hyp").statements.forM (declare (eval ⟨.cycle, 256⟩ 1))
        (Machine.new "" [] none).reset = .done () m ∧
      Ends (followLinks ⟨.cycle, 256⟩ (.oneLink "a.hyp")) m (.done () m') ∧
      m'.linked = [⟨true, ["b.hyp"]⟩, ⟨true, ["a.hyp"]⟩] ∧
      m'.scopes.globals.find? "x" = some ⟨"x", .variable, none, some (.text "b")⟩ ∧
      ∃ symbol, m'.scopes.globals.find? "x" = some symbol ∧
      (Stmt.induce (.starting "b")).Binds symbol := by
  have hparse : Program.ofText .main "Focus mindLink \"a.hyp\"; Relax" = .ok (.oneLink "a.hyp") := by
    with_unfolding_all rfl
  have hdeclared : (Program.oneLink "a.hyp").statements.forM (declare (eval ⟨.cycle, 256⟩ 1))
      (Machine.new "" [] none).reset = .done () (.new "" [] none) := rfl
  obtain ⟨hiff, -, -, hnames⟩ := links_taken_over_as_list hparse hdeclared Store.flatten_cycle
  have htaken : Ends (takeOverAll ⟨.cycle, 256⟩ [.file ⟨true, ["a.hyp"]⟩, .file ⟨true, ["b.hyp"]⟩,
      .declaration (.induce (.starting "b")),
        .declaration (.induce (.starting "a"))]) (.new "" [] none)
      (.done () { Machine.new "" [] none with
        scopes := ⟨[], [⟨"x", .variable, none, some (.text "b")⟩]⟩
        linked := [⟨true, ["b.hyp"]⟩, ⟨true, ["a.hyp"]⟩] }) := by
    refine ⟨Outcome.done_ne_exhausted, 1, fun bound hbound => ?_⟩
    obtain ⟨less, rfl⟩ := Nat.exists_eq_add_of_le' hbound
    rfl
  have hfollowed := (hiff _).2 htaken
  obtain ⟨hlinked, hbound⟩ := hnames _ hfollowed
  exact ⟨_, _, hdeclared, hfollowed, hlinked, rfl, ((hbound "x").2 rfl).1 _ rfl⟩

end Trance
