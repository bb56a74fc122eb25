import Trance.Proofs.Linking.Swapping

/-!
# Linking a file and running it

A file that consists of declarations can be linked, or it can be run as a program. A run lets the
suggestions, sessions and record types take effect first, and then the variables. A link takes the
declarations over in the order of the file. The outcome is the same, if no variable needs a
suggestion that stands behind it, and if no session and no record type behind a variable has to do
with it. -/

namespace Trance

open List

namespace Exec

/-! ## Running declarations -/

def induceOnly (eval : Expr → Exec Value) : Stmt → Exec Unit
  | .induce decl => induce eval decl
  | _ => pure ()

section

variable {cfg : Settings} {bound : Nat} {m m' : Machine} {stmts : List Stmt}
  (hdeclares : ∀ stmt ∈ stmts, stmt.declaredName?.isSome = true)
include hdeclares

theorem forM_followLink_of_declares (link : String → Location → Exec Unit) :
    stmts.forM (followLink link) = pure () := by
  induction stmts with
  | nil => rfl
  | cons stmt rest ih =>
    obtain ⟨hstmt, hrest⟩ := forall_mem_cons.1 hdeclares
    show (followLink link stmt >>= fun _ => rest.forM (followLink link)) = _
    rw [ih hrest]
    cases stmt with
    | mindLink => cases hstmt
    | _ => rfl

theorem entrances_of_declares (exec : Stmt → Exec Flow) (bound : Nat) :
    entrances exec bound stmts = pure .normal := by
  induction stmts with
  | nil => rfl
  | cons stmt rest ih =>
    obtain ⟨hstmt, hrest⟩ := forall_mem_cons.1 hdeclares
    cases stmt with
    | entrance => cases hstmt
    | _ => exact ih hrest

theorem sequence_of_declares {all : List Stmt} {left : Nat} {flow : Flow}
    (h : sequence (mainStmt (exec cfg bound)) all left stmts m = .done flow m') :
    flow = .normal ∧ stmts.forM (induceOnly (eval cfg bound)) m = .done () m' := by
  induction stmts generalizing left m with
  | nil =>
    cases left with
    | zero => cases h
    | succ left =>
      cases h
      exact ⟨rfl, rfl⟩
  | cons stmt rest ih =>
    obtain ⟨hstmt, hrest⟩ := forall_mem_cons.1 hdeclares
    cases left with
    | zero => cases h
    | succ left =>
      obtain ⟨first, m₁, hfirst, hnext⟩ := bind_eq_done h
      have hdone : first = .normal ∧ induceOnly (eval cfg bound) stmt m = .done () m₁ := by
        cases stmt with
        | induce decl =>
          cases bound with
          | zero => cases hfirst
          | succ bound =>
            obtain ⟨_, m₂, hinduce, hnormal⟩ := bind_eq_done hfirst
            cases hnormal
            have hwithin := introduce_within cfg (.induce decl) m (Nat.le_succ bound)
            refine ⟨rfl, (hwithin.eq fun hexhausted => ?_).symm.trans hinduce⟩
            exact nomatch (show induce _ decl m = _ from hexhausted).symm.trans hinduce
        | suggestion | session | tranceify =>
          cases hfirst
          exact ⟨rfl, rfl⟩
        | _ => cases hstmt
      obtain ⟨rfl, hinduce⟩ := hdone
      obtain ⟨hflow, hlater⟩ := ih hrest hnext
      exact ⟨hflow, (bind_of_done hinduce _).trans hlater⟩

end

variable {p : Program}

/-- **A run of declarations lets them take effect, and then the variables.** -/
theorem run_declarations {cfg : Settings} {bound : Nat} {m n : Machine}
    (hdeclares : ∀ stmt ∈ p.statements, stmt.declaredName?.isSome = true)
    (h : p.run cfg bound m = .done () n) :
    ∃ m₁, p.statements.forM (declare (eval cfg bound)) m.reset = .done () m₁ ∧
      p.statements.forM (induceOnly (eval cfg bound)) m₁ = .done () n := by
  obtain ⟨_, m₁, hdeclared, h⟩ := bind_eq_done h
  obtain ⟨_, m₂, hlinked, h⟩ := bind_eq_done h
  rw [forM_followLink_of_declares hdeclares] at hlinked
  cases hlinked
  obtain ⟨_, m₃, hentered, h⟩ := bind_eq_done h
  rw [entrances_of_declares hdeclares] at hentered
  cases hentered
  obtain ⟨flow, m₄, hmain, h⟩ := bind_eq_done h
  obtain ⟨rfl, hinduced⟩ := sequence_of_declares hdeclares hmain
  cases h
  exact ⟨m₁, hdeclared, hinduced⟩

/-! ## Taking declarations over -/

section

variable {cfg : Settings} {bound : Nat} {types : List String} {m m' n : Machine} {stmts : List Stmt}

theorem placeless_induceOnly (cfg : Settings) (bound : Nat) (stmts : List Stmt) :
    (stmts.forM (induceOnly (eval cfg bound))).Placeless (Stmt.Knows types) := by
  refine .forM fun stmt _ => ?_
  cases stmt with
  | induce decl => exact .induce Stmt.not_knows cfg bound decl
  | _ => exact fun _ _ => .pure rfl

variable {stmt : Stmt} {name : String}

theorem takeOver_of_free {eval : Expr → Exec Value} (hname : stmt.declaredName? = some name)
    (hfree : m.scopes.globals.find? name = none) :
    takeOver eval (.declaration stmt) m = introduce eval stmt m := by
  simp only [takeOver, Bind.bind, Exec.bind, machine, Machine.knows, hname, Option.map_some,
    Option.getD_some, Bindings.has, hfree]
  rfl

theorem free_of_hoist (hframes : m.scopes.frames = [])
    (h : stmts.forM (declare (eval cfg bound)) m = .done () m')
    (hfree : m'.scopes.globals.find? name = none) : m.scopes.globals.find? name = none := by
  induction stmts generalizing m with
  | nil =>
    cases h
    exact hfree
  | cons stmt rest ih =>
    obtain ⟨_, m₁, hfirst, hrest⟩ := bind_eq_done h
    have hstep : m₁.scopes.frames = [] ∧
        (m₁.scopes.globals.find? name = none → m.scopes.globals.find? name = none) := by
      have hother : ∀ own, stmt.declaredName? = some own →
          introduce (eval cfg bound) stmt m = .done () m₁ → m₁.scopes.frames = [] ∧
          (m₁.scopes.globals.find? name = none → m.scopes.globals.find? name = none) := by
        intro own hown hintroduced
        obtain ⟨hframes', hfree', -, hkept⟩ := introduce_names hown hframes hintroduced
        refine ⟨hframes', fun hnone => ?_⟩
        by_cases heq : own = name
        · exact heq ▸ hfree'
        · have hkept := hkept name heq
          rw [Bindings.fixed, hnone] at hkept
          exact Option.map_eq_none_iff.1 hkept.symm
      cases stmt with
      | suggestion | session | tranceify => exact hother _ rfl hfirst
      | _ =>
        cases hfirst
        exact ⟨hframes, id⟩
    exact hstep.2 (ih hstep.1 hrest)

theorem takeOver_reordered (hname : stmt.declaredName? = some name)
    (hstmt : stmt.Every (Stmt.Knows types)) (hm : m.Ready types) (hmn : m.Reordered n)
    (h : introduce (eval cfg bound) stmt m = .done () m') :
    ∃ n', takeOver (eval cfg bound) (.declaration stmt) n = .done () n' ∧ m'.Reordered n' := by
  have hplaceless : (introduce (eval cfg bound) stmt).Placeless (Stmt.Knows types) := by
    cases stmt with
    | induce decl => exact .induce Stmt.not_knows cfg bound decl
    | _ => exact .declare Stmt.not_knows cfg bound hstmt
  obtain ⟨-, hfree, -⟩ := introduce_names hname hm.confined.frames_eq_nil h
  rw [takeOver_of_free hname ((hmn.find? name).trans hfree)]
  have hout := hplaceless.reordered Stmt.not_knows hm.confined hmn
  rw [h] at hout
  generalize introduce (eval cfg bound) stmt n = o at hout ⊢
  cases hout with
  | done machines => exact ⟨_, rfl, machines⟩

/-- `TakenOver cfg bound stmts n m'`: statements that are taken over on the machine `n` leave the
machine `m'` behind, but for the order of names and its place, or a variable among them needs a
suggestion behind it. -/
def TakenOver (cfg : Settings) (bound : Nat) (stmts : List Stmt) (n m' : Machine) : Prop :=
  (∃ n', takeOverAll cfg (stmts.map .declaration) bound n = .done () n' ∧ m'.Reordered n') ∨
  ∃ e n' var decl, takeOverAll cfg (stmts.map .declaration) bound n = .failed e n' ∧
    [.induce var, .suggestion decl].Sublist stmts ∧ e.undefined? = some decl.name

theorem TakenOver.cons {n₁ m₁ : Machine}
    (hfirst : takeOver (eval cfg bound) (.declaration stmt) n = .done () n₁)
    (h : TakenOver cfg bound stmts n₁ m₁) (hm : m'.Reordered m₁) :
    TakenOver cfg bound (stmt :: stmts) n m' := by
  obtain ⟨n', hdone, hreordered⟩ | ⟨e, n', var, decl, hfailed, hsub, hname⟩ := h
  · exact .inl ⟨n', (bind_of_done hfirst _).trans hdone, hm.trans hreordered⟩
  · exact .inr ⟨e, n', var, decl, (bind_of_done hfirst _).trans hfailed, hsub.cons _, hname⟩

/-- **Declarations that are taken over have the effect that they have if all but the variables take
effect first**, or else a variable needs a suggestion behind it. -/
theorem takeOver_declarations (hdeclares : ∀ stmt ∈ stmts, stmt.declaredName?.isSome = true)
    (hapart : stmts.Pairwise (Stmt.Apart types))
    (hstmts : ∀ stmt ∈ stmts, stmt.Every (Stmt.Knows types))
    {m₁ : Machine} (hm : m.Ready types) (hmn : m.Reordered n)
    (hdeclared : stmts.forM (declare (eval cfg bound)) m = .done () m₁)
    (hinduced : stmts.forM (induceOnly (eval cfg bound)) m₁ = .done () m') :
    TakenOver cfg bound stmts n m' := by
  induction stmts generalizing m m₁ m' n with
  | nil =>
    cases hdeclared
    cases hinduced
    exact .inl ⟨n, rfl, hmn⟩
  | cons stmt rest ih =>
    obtain ⟨hname, hnames⟩ := forall_mem_cons.1 hdeclares
    obtain ⟨hfirst, hlaters⟩ := pairwise_cons.1 hapart
    obtain ⟨hstmt, hrest⟩ := forall_mem_cons.1 hstmts
    obtain ⟨_, m₂, hdeclare, hdeclaredRest⟩ := bind_eq_done hdeclared
    obtain ⟨_, k₁, hinduce, hinducedRest⟩ := bind_eq_done hinduced
    -- what is no variable takes effect at its place in both cases
    have hother : ∀ own, stmt.declaredName? = some own →
        introduce (eval cfg bound) stmt m = .done () m₂ → m₂.Ready types → m₁ = k₁ →
        TakenOver cfg bound (stmt :: rest) n m' := by
      rintro own hown hintroduced hm₂ rfl
      obtain ⟨n₁, htaken, hmn₁⟩ := takeOver_reordered hown hstmt hm hmn hintroduced
      exact .cons htaken (ih hnames hlaters hrest hm₂ hmn₁ hdeclaredRest hinducedRest) (.refl m')
    cases stmt with
    | suggestion | session | tranceify =>
      cases hinduce
      exact hother _ rfl hdeclare (hm.declare hstmt hdeclare) rfl
    | induce var =>
      cases hdeclare
      have hm₁ := hm.hoist hrest hdeclaredRest
      obtain ⟨k, k₂, hmoved, hlater, hreordered⟩ | ⟨e, k, decl, hfailed, hdecl, hmissing⟩ :=
        swap_all hfirst hrest hm hdeclaredRest hinduce
      · obtain ⟨n₁, htaken, hkn⟩ := takeOver_reordered rfl hstmt hm hmn hmoved
        have hout := (placeless_induceOnly cfg bound rest).reordered Stmt.not_knows
          (hm₁.induce hinduce).confined hreordered
        rw [hinducedRest] at hout
        generalize hlast : rest.forM (induceOnly (eval cfg bound)) k₂ = o at hout
        cases hout with
        | done machines =>
          exact .cons htaken (ih hnames hlaters hrest (hm.induce hmoved) hkn hlater hlast) machines
      · have hvar : Stmt.declaredName? (.induce var) = some var.name := rfl
        obtain ⟨-, hfree, -⟩ := introduce_names hvar hm₁.confined.frames_eq_nil hinduce
        have hfree := free_of_hoist hm.confined.frames_eq_nil hdeclaredRest hfree
        have hplaceless : (induce (eval cfg bound) var).Placeless (Stmt.Knows types) :=
          .induce Stmt.not_knows cfg bound var
        have hout := hplaceless.reordered Stmt.not_knows hm.confined hmn
        rw [hfailed] at hout
        generalize hrun : induce (eval cfg bound) var n = o at hout
        cases hout with
        | @failed _ _ n₁ machines =>
          have htaken : takeOver (eval cfg bound) (.declaration (.induce var)) n = .failed e n₁ :=
            (takeOver_of_free rfl ((hmn.find? var.name).trans hfree)).trans hrun
          refine .inr ⟨e, n₁, var, decl, ?_, .cons_cons _ (singleton_sublist.2 hdecl), hmissing⟩
          show (takeOver (eval cfg bound) (.declaration (.induce var)) >>= _) n = _
          simp only [Bind.bind, Exec.bind, htaken]
    | _ => cases hname

end

/-! ## Programs of one link -/

theorem run_link (cfg : Settings) (bound : Nat) (path : String) (loc : Location) (m : Machine) :
    (⟨[.mindLink path loc]⟩ : Program).run cfg (bound + 2) m =
      followLinks cfg ⟨[.mindLink path loc]⟩ (bound + 2) m.reset := by
  have hrun : (⟨[.mindLink path loc]⟩ : Program).run cfg (bound + 2) m =
      (followLinks cfg ⟨[.mindLink path loc]⟩ (bound + 2) >>= fun _ => pure ()) m.reset := rfl
  rw [hrun, bind_pure_unit]

theorem flatten_link {files : Store} {dir path target : String}
    (htarget : Path.join dir path = target) (hload : files.load target = .ok p)
    (hdeclares : ∀ stmt ∈ p.statements, stmt.declaredName?.isSome = true) (loc : Location) :
    files.flatten [] ((⟨[.mindLink path loc]⟩ : Program).outset dir) =
      .file (files.key target) :: p.statements.map .declaration := by
  have hlist : ∀ linked (stmts : List Stmt), (∀ stmt ∈ stmts, stmt.declaredName?.isSome = true) →
      files.flatten linked (stmts.map (Path.parent target, ·)) = stmts.map .declaration := by
    intro linked stmts hstmts
    induction stmts with
    | nil =>
      rw [map_nil, Store.flatten]
      rfl
    | cons stmt rest ih =>
      obtain ⟨hstmt, hrest⟩ := forall_mem_cons.1 hstmts
      have hlink : stmt.isLink = false := by
        cases stmt with
        | mindLink => cases hstmt
        | _ => rfl
      rw [map_cons, Store.flatten_other hlink, if_pos hstmt, ih hrest, map_cons]
  rw [show (⟨[.mindLink path loc]⟩ : Program).outset dir = [(dir, .mindLink path loc)] from rfl,
    Store.flatten_loaded htarget not_mem_nil hload, append_nil, hlist _ _ hdeclares]

theorem ends_link {cfg : Settings} {m : Machine} {path target : String}
    (htarget : Path.join m.baseDir path = target) (hload : cfg.files.load target = .ok p)
    (hdeclares : ∀ stmt ∈ p.statements, stmt.declaredName?.isSome = true) (loc : Location)
    {bound : Nat} {o : Outcome Unit}
    (h : takeOverAll cfg (p.statements.map .declaration) bound
      (m.reset.placed m.baseDir [cfg.files.key target]) = o)
    (hends : o ≠ .exhausted) :
    Ends (fun bound => (⟨[.mindLink path loc]⟩ : Program).run cfg bound) m o := by
  have hlink : ∀ stmt ∈ (⟨[.mindLink path loc]⟩ : Program).statements,
      stmt.isLink = true ∨ stmt.Every NoLink := forall_mem_singleton.2 (.inl rfl)
  have hflat : cfg.files.flatten m.reset.linked
      ((⟨[.mindLink path loc]⟩ : Program).outset m.reset.baseDir) =
        .file (cfg.files.key target) :: p.statements.map .declaration :=
    flatten_link htarget hload hdeclares loc
  refine ⟨hends, bound + cfg.files.unlinked [] + 3, fun bound' hbound' => ?_⟩
  obtain ⟨less, rfl⟩ := Nat.exists_eq_add_of_le' (show 2 ≤ bound' by omega)
  have hwithin := takeOverAll_within hlink m.confined_reset
    (show bound + cfg.files.unlinked m.reset.linked + 1 ≤ less + 2 by
      rw [show m.reset.linked = [] from rfl]; omega)
  rw [hflat] at hwithin
  subst h
  exact (run_link cfg less path loc m).trans (hwithin.eq hends).symm

end Exec

/-- The names of the record types in a program, wherever they are declared. -/
def Program.recordTypes (p : Program) : List String :=
  p.parts.filterMap fun
    | .tranceify decl => some decl.name
    | _ => none

theorem Program.every_knows {origin : Origin} {source : String} {p : Program}
    (hparse : Program.ofText origin source = .ok p)
    (hdeclares : ∀ stmt ∈ p.statements, stmt.declaredName?.isSome = true) :
    ∀ stmt ∈ p.statements, stmt.Every (Stmt.Knows p.recordTypes) := by
  have hknown : ∀ stmt ∈ p.statements, stmt.Every fun s => ∀ decl, s = .tranceify decl →
      decl.name ∈ p.recordTypes := by
    refine Program.every_of_parts fun part hpart decl heq => ?_
    exact mem_filterMap.2 ⟨part, hpart, by rw [heq]⟩
  intro stmt hstmt
  obtain hlink | ⟨hfree, hinside⟩ := Program.every_of_ofText hparse stmt hstmt
  · have hname := hdeclares stmt hstmt
    cases stmt with
    | mindLink => cases hname
    | _ => cases hlink
  · obtain ⟨hnamed, hnamedInside⟩ := hknown stmt hstmt
    exact ⟨⟨hfree, hnamed⟩, fun part hpart => ⟨hinside part hpart, hnamedInside part hpart⟩⟩

open Exec in
/-- **A file of declarations is linked as it is run.** A link to a file whose run ends well leaves
the same machine behind, but for the order of the global names, and the file is linked there. If it
fails instead, it fails for want of a suggestion that stands behind a variable of the file. -/
theorem linked_as_run {cfg : Settings} {m n : Machine} {path target : String}
    (htarget : Path.join m.baseDir path = target) {p : Program}
    (hload : cfg.files.load target = .ok p)
    (hdeclares : ∀ stmt ∈ p.statements, stmt.declaredName?.isSome = true)
    (hapart : p.statements.Pairwise (Stmt.Apart p.recordTypes))
    (hrun : Ends (fun bound => p.run cfg bound) m (.done () n)) (loc : Location) :
    (∃ globals, (∀ name, Bindings.find? globals name = n.scopes.globals.find? name) ∧
      Ends (fun bound => (⟨[.mindLink path loc]⟩ : Program).run cfg bound) m
        (.done () { n with scopes := ⟨[], globals⟩, linked := [cfg.files.key target] })) ∨
    ∃ var decl e n', [.induce var, .suggestion decl].Sublist p.statements ∧
      e.undefined? = some decl.name ∧
      Ends (fun bound => (⟨[.mindLink path loc]⟩ : Program).run cfg bound) m (.failed e n') := by
  obtain ⟨source, -, hparse⟩ := Store.load_eq_ok hload
  have hknows := Program.every_knows hparse hdeclares
  obtain ⟨bound, hbound⟩ := hrun.exists_eq
  obtain ⟨m₁, hdeclared, hinduced⟩ := run_declarations hdeclares hbound
  have hready : m₁.Ready p.recordTypes := (Machine.Ready.reset m).hoist hknows hdeclared
  have hplaceless : (p.statements.forM (declare (eval cfg bound))).Placeless
      (Stmt.Knows p.recordTypes) :=
    .forM fun stmt hstmt => .declare Stmt.not_knows cfg bound (hknows stmt hstmt)
  obtain ⟨-, hdir₁, -⟩ := hplaceless.keeps m.confined_reset (by rw [hdeclared]; rfl)
  obtain ⟨hconfined, hdir, -⟩ := (placeless_induceOnly cfg bound p.statements).keeps hready.confined
    (by rw [hinduced]; rfl)
  have htakes : (takeOverAll cfg (p.statements.map .declaration) bound).Placeless NoLink :=
    .forM (forall_mem_map.2 fun stmt hstmt => placeless_takeOver cfg bound
      ⟨(hknows stmt hstmt).1.1, fun part hpart => ((hknows stmt hstmt).2 part hpart).1⟩)
  obtain ⟨n', hdone, hreordered⟩ | ⟨e, n', var, decl, hfailed, hsub, hname⟩ :=
    takeOver_declarations hdeclares hapart hknows (.reset m)
      (.placed m.reset m.baseDir [cfg.files.key target]) hdeclared hinduced
  · refine .inl ⟨n'.scopes.globals, hreordered.find?, ?_⟩
    obtain ⟨-, hdir', hlinked⟩ := htakes.keeps
      (m.confined_reset.placed m.baseDir [cfg.files.key target]) (by rw [hdone]; rfl)
    have hdir' : n'.baseDir = n.baseDir := hdir'.trans (hdir.trans hdir₁).symm
    have heq :
        n' = { n with scopes := ⟨[], n'.scopes.globals⟩, linked := [cfg.files.key target] } := by
      conv_lhs => rw [hreordered.eq, hconfined.frames_eq_nil, hlinked, hdir']
      rfl
    exact heq ▸ ends_link htarget hload hdeclares loc hdone nofun
  · exact .inr ⟨var, decl, e, n', hsub, hname, ends_link htarget hload hdeclares loc hfailed nofun⟩

/-! ## Two orders -/

/-- The declaration of a suggestion `f` that gives a text, at a column of the first line. -/
def SuggestionOf.giving (column : Nat) (origin : Origin) : Suggestion :=
  ⟨"f", [], none, [.awaken (some (.text "a" ⟨1, column + 24⟩)) ⟨1, column + 17⟩], false, false,
    ⟨1, column⟩, origin⟩

/-- The declaration of a variable that starts with what `f` gives. -/
def Variable.given (name : String) (column : Nat) : Variable :=
  ⟨name, none, .value (.call (.name "f" ⟨1, column + 11⟩) [] ⟨1, column + 12⟩), ⟨1, column⟩⟩

def Program.patient : Program :=
  ⟨[.suggestion (.giving 7 (.file ["a.hyp"])),
    .induce ⟨"x", none, .value (.text "b" ⟨1, 49⟩), ⟨1, 38⟩⟩,
    .session ⟨"S", [⟨.field ⟨"v", none, .value (.text "c" ⟨1, 86⟩), ⟨1, 75⟩⟩, true, true⟩], ⟨1, 54⟩⟩,
    .induce (.given "y" 93)]⟩

def Program.hasty : Program := ⟨[.induce (.given "x" 7), .suggestion (.giving 23 (.file ["b.hyp"]))]⟩

def Store.orders : Store :=
  .pair ("Focus suggestion f() \x7b awaken \"a\"; \x7d induce x = \"b\"; " ++
      "session S \x7b dominant induce v = \"c\"; \x7d induce y = f(); Relax")
    "Focus induce x = f(); suggestion f() \x7b awaken \"a\"; \x7d Relax"

theorem Store.load_orders_first : orders.load "a.hyp" = .ok .patient := by
  refine load_of_ofText (by rw [read, orders, resolve_pair (.inl rfl)]; rfl) ?_
  rw [orders, key_pair (.inl rfl)]
  set_option maxRecDepth 1000 in with_unfolding_all rfl

theorem Store.load_orders_second : orders.load "b.hyp" = .ok .hasty := by
  refine load_of_ofText (by rw [read, orders, resolve_pair (.inr rfl)]; rfl) ?_
  rw [orders, key_pair (.inr rfl)]
  with_unfolding_all rfl

open Exec in
/-- The session is bound before the variable `x` where the file is run, and behind it where it is
linked. -/
theorem linked_as_run_patient :
    ∃ n globals, Ends (fun bound => Program.patient.run ⟨.orders, 256⟩ bound) (.new "" [] none)
      (.done () n) ∧ (∀ name, Bindings.find? globals name = n.scopes.globals.find? name) ∧
      Bindings.find? globals "y" = some ⟨"y", .variable, none, some (.text "a")⟩ ∧
      Ends (fun bound => (⟨[.mindLink "a.hyp" ⟨1, 7⟩]⟩ : Program).run ⟨.orders, 256⟩ bound)
        (.new "" [] none)
        (.done () { n with scopes := ⟨[], globals⟩, linked := [⟨true, ["a.hyp"]⟩] }) := by
  obtain ⟨n, hy, hrun⟩ : ∃ n : Machine, n.scopes.globals.find? "y" =
      some ⟨"y", .variable, none, some (.text "a")⟩ ∧
        Program.patient.run ⟨.orders, 256⟩ 20 (.new "" [] none) = .done () n := ⟨_, rfl, rfl⟩
  have hruns := Program.ends_of_run hrun Outcome.done_ne_exhausted
  have htext : ∀ good text loc, Expr.Simple good (.text text loc) :=
    fun _ _ _ => .intro trivial (forall_mem_nil _)
  have hapart : Program.patient.statements.Pairwise (Stmt.Apart Program.patient.recordTypes) := by
    refine .cons (fun _ _ => trivial) (.cons (forall_mem_cons.2 ⟨⟨htext _ _ _, ?_⟩, ?_⟩)
      (.cons (fun _ _ => trivial) (.cons (forall_mem_nil _) .nil)))
    · intro member hmember field init hfield hstart
      obtain rfl := mem_singleton.1 hmember
      cases hfield
      cases hstart
      exact htext _ _ _
    · exact forall_mem_singleton.2 trivial
  obtain ⟨globals, hfind, hlinked⟩ | ⟨var, decl, e, n', hsub, -⟩ :=
    linked_as_run (Path.join_empty "a.hyp") Store.load_orders_first (by decide) hapart hruns ⟨1, 7⟩
  · rw [show Store.orders.key "a.hyp" = ⟨true, ["a.hyp"]⟩ from Store.key_pair (.inl rfl)] at hlinked
    exact ⟨n, globals, hruns, hfind, (hfind "y").trans hy, hlinked⟩
  · simp [Program.patient, sublist_cons_iff] at hsub

open Exec in
/-- A file whose run ends well may fail to be linked. -/
theorem linked_not_as_run_hasty : Store.orders.load "b.hyp" = .ok .hasty ∧
    ∃ n n', Ends (fun bound => Program.hasty.run ⟨.orders, 256⟩ bound) (.new "" [] none)
      (.done () n) ∧ n.scopes.globals.find? "x" = some ⟨"x", .variable, none, some (.text "a")⟩ ∧
      Ends (fun bound => (⟨[.mindLink "b.hyp" ⟨1, 7⟩]⟩ : Program).run ⟨.orders, 256⟩ bound)
        (.new "" [] none) (.failed (.raised (.undefinedFunction "f") ⟨1, 19⟩) n') := by
  obtain ⟨n, hx, hrun⟩ : ∃ n : Machine, n.scopes.globals.find? "x" =
      some ⟨"x", .variable, none, some (.text "a")⟩ ∧
        Program.hasty.run ⟨.orders, 256⟩ 20 (.new "" [] none) = .done () n := ⟨_, rfl, rfl⟩
  have htaken : ∃ n', takeOverAll ⟨.orders, 256⟩ (Program.hasty.statements.map .declaration) 20
      (Machine.placed "" [Store.orders.key "b.hyp"] (.new "" [] none)) =
        .failed (.raised (.undefinedFunction "f") ⟨1, 19⟩) n' := ⟨_, rfl⟩
  obtain ⟨n', htaken⟩ := htaken
  have hdeclares : ∀ stmt ∈ Program.hasty.statements, stmt.declaredName?.isSome = true := by decide
  exact ⟨Store.load_orders_second, n, n', Program.ends_of_run hrun nofun, hx,
    ends_link (Path.join_empty "b.hyp") Store.load_orders_second hdeclares ⟨1, 7⟩ htaken nofun⟩

end Trance
