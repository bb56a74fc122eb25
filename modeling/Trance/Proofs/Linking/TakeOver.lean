import Mathlib.Data.List.Basic
import Trance.Proofs.Linking.Flatten
import Trance.Proofs.Running.Confined

/-!
# Taking declarations over

Where a run follows a link, it takes over the declarations of a file: each of them takes effect
unless its name is global already. Links inside of the file are followed in between, with another
base directory. All this has the effect of the list of declarations that the links lead to, taken
over at the top level from the first to the last. -/

namespace Trance

open List Store Outcome

/-- Whether the name that a statement declares is global already. -/
def Machine.knows (m : Machine) (stmt : Stmt) : Bool :=
  (stmt.declaredName?.map m.scopes.globals.has).getD false

/-- Where the walk through the links of a program starts: at its links, in its directory. -/
def Program.outset (p : Program) (dir : String) : List (String × Stmt) :=
  (p.statements.filter Stmt.isLink).map (dir, ·)

namespace Exec

/-! ## Declarations -/

section

variable (eval : Expr → Exec Value)

/-- The first value of a variable. -/
def startValue (decl : Variable) : Exec Value :=
  match decl.start with
  | .external => readExternal decl
  | .value init => eval init
  | .unset => defaultValue eval decl.typeName decl.location

def introduce : Stmt → Exec Unit
  | .induce decl => induce eval decl
  | other => declare eval other

/-- What a declaration evaluates: the first value of a variable, or those of the dominant fields of
a session. -/
def firstValues : Stmt → Exec Unit
  | .induce decl => do let _ ← startValue eval decl
  | .session decl => do let _ ← buildStatic eval decl
  | _ => pure ()

/-- Take over an entry. Declarations of names that are global already are passed over. -/
def takeOver : Entry → Exec Unit
  | .file key => update fun m => { m with linked := key :: m.linked }
  | .declaration stmt => do
    if (← machine).knows stmt then pure () else introduce eval stmt
  | .broken path message loc => fail (.linkFailure path message) loc

theorem induce_eq (decl : Variable) : induce eval decl = startValue eval decl >>= fun value =>
    define ⟨decl.name, .variable, decl.typeName, some value⟩ decl.location := by
  unfold induce startValue
  cases decl.start <;> rfl

end

/-! ## Two bounds -/

/-- Follow links, where everything is evaluated in the same way and the bound is on the nesting of
links only. -/
def linkWith (files : Store) (eval : Expr → Exec Value) : Nat → String → Location → Exec Unit
  | 0, _, _ => exhausted
  | nesting + 1, path, loc => linkStep files eval (linkWith files eval nesting) path loc

section

variable (cfg : Settings) {bound bound' nesting : Nat}

theorem link_within (h : bound ≤ bound') (hnesting : bound ≤ nesting) :
    Equal.Follows (.same [] [] #[] True) (fun _ => True) (link cfg bound)
      (linkWith cfg.files (eval cfg bound') nesting) := by
  induction bound generalizing nesting with
  | zero => exact fun _ _ _ => .lagging trivial
  | succ bound ih =>
    obtain ⟨nesting, rfl⟩ := Nat.exists_eq_add_of_lt hnesting
    have hb : (Pairing.same [] [] #[] True).Bounds bound bound' :=
      .inr ⟨trivial, Nat.le_of_succ_le h⟩
    have hP := Pairing.Confines.same [] [] #[] True
    exact Rewriting.linkStep hP.rewrites (hP.followsLinks cfg.files)
      (Equal.run hP cfg hb).1 (ih (by omega) (by omega))

theorem linkWith_within (h : bound' + nesting ≤ bound) : Equal.Follows (.same [] [] #[] True)
    (fun _ => True) (linkWith cfg.files (eval cfg bound') nesting) (link cfg bound) := by
  induction nesting generalizing bound with
  | zero => exact fun _ _ _ => .lagging trivial
  | succ nesting ih =>
    obtain ⟨bound, rfl⟩ : ∃ less, bound = less + 1 := ⟨bound - 1, by omega⟩
    have hb : (Pairing.same [] [] #[] True).Bounds bound' bound := .inr ⟨trivial, by omega⟩
    have hP := Pairing.Confines.same [] [] #[] True
    exact Rewriting.linkStep hP.rewrites (hP.followsLinks cfg.files) (Equal.run hP cfg hb).1
      (ih (by omega))

end

/-! ## The list -/

variable {stmt : Stmt}

theorem mergeStmt_of_not_isLink (h : stmt.isLink = false) (eval : Expr → Exec Value)
    (link : String → Location → Exec Unit) :
    mergeStmt eval link stmt = takeOver eval (.declaration stmt) := by
  cases stmt with
  | mindLink => cases h
  | _ => rfl

theorem takeOver_of_not_declares (h : stmt.declaredName? = none) (eval : Expr → Exec Value) :
    takeOver eval (.declaration stmt) = pure () := by
  cases stmt with
  | induce | suggestion | session | tranceify => cases h
  | _ => rfl

/-- Declarations are taken over alike if they take effect alike. No names may be lacked. -/
theorem sim_takeOver {P : Pairing} (hlacks : ∀ symbol, ¬P.lacks symbol)
    {eval eval' : Expr → Exec Value}
    (h : Sim P P.Inside Eq (introduce eval stmt) (introduce eval' stmt)) :
    Sim P P.Inside Eq (takeOver eval (.declaration stmt)) (takeOver eval' (.declaration stmt)) := by
  refine .machine fun kinds m n _ hm => ?_
  have hknows : m.knows stmt = n.knows stmt := by
    unfold Machine.knows
    rw [funext (hm.scopes.globals.has_eq hlacks)]
  rw [hknows]
  split
  · exact .pure rfl
  · exact h

abbrev NoLink (stmt : Stmt) : Prop := stmt.isLink = false

theorem not_noLink (path : String) (loc : Location) : ¬NoLink (.mindLink path loc) := nofun

variable (cfg : Settings) (bound : Nat)

theorem placeless_takeOver (h : stmt.Every NoLink) :
    (takeOver (eval cfg bound) (.declaration stmt)).Placeless NoLink := by
  intro around reorders
  refine sim_takeOver (fun _ h => h) ?_
  cases stmt with
  | induce decl => exact Placeless.induce not_noLink cfg bound decl around reorders
  | _ => exact Placeless.declare not_noLink cfg bound h around reorders

theorem placeless_declarations {p : Program}
    (hp : ∀ stmt ∈ p.statements, stmt.isLink = true ∨ stmt.Every NoLink) :
    (p.statements.forM (declare (eval cfg bound))).Placeless NoLink := by
  refine .forM fun stmt hstmt => ?_
  obtain hlink | hother := hp stmt hstmt
  · cases stmt with
    | mindLink => exact fun _ _ => .pure rfl
    | _ => cases hlink
  · exact .declare not_noLink cfg bound hother

theorem takeOver_keeps {entry : Entry}
    (hentry : ∀ stmt, entry = .declaration stmt → stmt.Every NoLink)
    {m m' : Machine} (hm : m.Confined NoLink [])
    (h : (takeOver (eval cfg bound) entry m).machine? = some m') :
    m'.Confined NoLink [] ∧ m'.baseDir = m.baseDir ∧
    m'.linked = Entry.linkedAfter [entry] m.linked := by
  cases entry with
  | file key =>
    cases h
    exact ⟨hm.placed m.baseDir (key :: m.linked), rfl, rfl⟩
  | declaration stmt => exact (placeless_takeOver cfg bound (hentry stmt rfl)).keeps hm h
  | broken path message loc =>
    cases h
    exact ⟨hm, rfl, rfl⟩

section

variable {entries : List Entry} {m m' : Machine}

theorem forM_takeOver_keeps (hentries : ∀ stmt, .declaration stmt ∈ entries → stmt.Every NoLink)
    (hm : m.Confined NoLink [])
    (h : (entries.forM (takeOver (eval cfg bound)) m).machine? = some m') :
    m'.Confined NoLink [] ∧ m'.baseDir = m.baseDir ∧
      (entries.forM (takeOver (eval cfg bound)) m = .done () m' →
        m'.linked = Entry.linkedAfter entries m.linked) := by
  induction entries generalizing m with
  | nil =>
    cases h
    exact ⟨hm, rfl, fun _ => rfl⟩
  | cons entry rest ih =>
    have hentry : ∀ stmt, entry = .declaration stmt → stmt.Every NoLink :=
      fun stmt heq => hentries stmt (heq ▸ mem_cons_self)
    obtain ⟨e, hfailed⟩ | ⟨_, m₁, hdone, h⟩ := machine?_bind h
    · obtain ⟨hm₁, hdir, -⟩ := takeOver_keeps cfg bound hentry hm (by rw [hfailed]; rfl)
      refine ⟨hm₁, hdir, fun hall => ?_⟩
      obtain ⟨_, _, hdone, -⟩ := bind_eq_done hall
      cases hfailed.symm.trans hdone
    · obtain ⟨hm₁, hdir, hlinked⟩ := takeOver_keeps cfg bound hentry hm (by rw [hdone]; rfl)
      obtain ⟨hm', hdir', hlinked'⟩ :=
        ih (fun stmt hstmt => hentries stmt (mem_cons_of_mem _ hstmt)) hm₁ h
      refine ⟨hm', hdir'.trans hdir, fun hall => ?_⟩
      obtain ⟨_, _, hdone', hrest⟩ := bind_eq_done hall
      cases hdone.symm.trans hdone'
      rw [hlinked' hrest, hlinked]
      exact (Entry.linkedAfter_append [entry] rest m.linked).symm

end

end Exec

theorem Store.every_of_mem_flatten {files : Store} {linked : List FileKey}
    {pending : List (String × Stmt)}
    (h : ∀ s ∈ pending, s.2.isLink = true ∨ s.2.Every Exec.NoLink) :
    ∀ stmt, .declaration stmt ∈ files.flatten linked pending → stmt.Every Exec.NoLink := by
  fun_induction files.flatten linked pending with
  | case1 => simp
  | case2 _ _ _ _ _ _ _ ih => exact ih (forall_mem_cons.1 h).2
  | case3 linked dir path loc rest target hnew message hload ih =>
    intro stmt hstmt
    simp only [mem_cons, reduceCtorEq, false_or] at hstmt
    exact ih (forall_mem_cons.1 h).2 stmt hstmt
  | case4 linked dir path loc rest target hnew p hload ih =>
    intro stmt hstmt
    simp only [mem_cons, reduceCtorEq, false_or] at hstmt
    obtain ⟨source, -, hparse⟩ := load_eq_ok hload
    refine ih (forall_mem_append.2 ⟨?_, (forall_mem_cons.1 h).2⟩) stmt hstmt
    exact forall_mem_map.2 (Program.every_of_ofText hparse)
  | case5 linked dir stmt rest hlink hdeclares ih =>
    obtain ⟨hfirst, hrest⟩ := forall_mem_cons.1 h
    refine fun other hother => (mem_cons.1 hother).elim (fun heq => ?_) (ih hrest other)
    rw [Entry.declaration.inj heq]
    refine hfirst.resolve_left fun hlink' => ?_
    cases stmt with
    | mindLink path loc => exact hlink path loc rfl
    | _ => cases hlink'
  | case6 linked dir stmt rest hlink hdeclares ih => exact ih (forall_mem_cons.1 h).2

namespace Exec

variable (cfg : Settings) (bound : Nat)

/-- `TakesOver cfg bound nesting`: statements of a file are taken over as their list is, if the
nesting of links suffices for the files that are left. -/
def TakesOver (cfg : Settings) (bound nesting : Nat) : Prop :=
  ∀ (stmts : List Stmt) (dir : String) (m : Machine),
    (∀ stmt ∈ stmts, stmt.isLink = true ∨ stmt.Every NoLink) → m.Confined NoLink [] →
    cfg.files.unlinked m.linked < nesting →
    stmts.forM (mergeStmt (eval cfg bound) (linkWith cfg.files (eval cfg bound) nesting))
      (m.moved dir) = ((cfg.files.flatten m.linked (stmts.map (dir, ·))).forM
        (takeOver (eval cfg bound)) m).mapMachine (·.moved dir)

variable {cfg : Settings} {bound nesting : Nat}

theorem TakesOver.link (h : TakesOver cfg bound nesting) (path : String) (loc : Location)
    (dir : String)
    {m : Machine} (hm : m.Confined NoLink [])
    (hnesting : cfg.files.unlinked m.linked < nesting + 1) :
    linkWith cfg.files (eval cfg bound) (nesting + 1) path loc (m.moved dir) =
      ((cfg.files.flatten m.linked [(dir, .mindLink path loc)]).forM
        (takeOver (eval cfg bound)) m).mapMachine (·.moved dir) := by
  generalize htarget : Path.join dir path = target
  rw [linkWith, linkStep_eq _ _ _ path loc (m.moved dir) htarget]
  by_cases hknown : cfg.files.key target ∈ m.linked
  · rw [if_pos (show _ ∈ (m.moved dir).linked from hknown), flatten_known
      (htarget ▸ hknown), Store.flatten]
    rfl
  rw [if_neg (show _ ∉ (m.moved dir).linked from hknown)]
  cases hload : cfg.files.load target with
  | error message =>
    rw [flatten_broken htarget hknown hload]
    rfl
  | ok p =>
    obtain ⟨source, -, hparse⟩ := load_eq_ok hload
    have hless := unlinked_lt_of_load hload hknown
    have hfile := h p.statements (Path.parent target)
      (m.placed m.baseDir (cfg.files.key target :: m.linked)) (Program.every_of_ofText hparse)
        (hm.placed _ _)
      (show cfg.files.unlinked (cfg.files.key target :: m.linked) < nesting by omega)
    rw [flatten_loaded htarget hknown hload, append_nil]
    -- the directory of the file is left again, with whatever outcome
    simp only [inDirectory, between_eq]
    refine (congrArg (mapMachine _) hfile).trans ?_
    rw [mapMachine_mapMachine]
    rfl

/-- **Statements of a file are taken over as their list is.** -/
theorem takesOver (cfg : Settings) (bound nesting : Nat) : TakesOver cfg bound nesting := by
  induction nesting with
  | zero => exact fun _ _ _ _ _ hnesting => absurd hnesting (Nat.not_lt_zero _)
  | succ nesting ih =>
    intro stmts dir m hstmts hm hnesting
    induction stmts generalizing m with
    | nil =>
      rw [map_nil, Store.flatten]
      rfl
    | cons stmt rest ihrest =>
      obtain ⟨hstmt, hrest⟩ := forall_mem_cons.1 hstmts
      rw [map_cons, Store.flatten_cons, forM_append]
      have hfirst : mergeStmt (eval cfg bound)
          (linkWith cfg.files (eval cfg bound) (nesting + 1)) stmt (m.moved dir) =
          ((cfg.files.flatten m.linked [(dir, stmt)]).forM
            (takeOver (eval cfg bound)) m).mapMachine (·.moved dir) := by
        obtain hlink | hother := hstmt
        · cases stmt with
          | mindLink path loc => exact ih.link path loc dir hm hnesting
          | _ => cases hlink
        · have hplaceless := placeless_takeOver cfg bound hother
          rw [mergeStmt_of_not_isLink hother.1, hplaceless.eq_moved not_noLink hm,
            flatten_other hother.1, Store.flatten]
          split
          · rw [forM_singleton]
          · rename_i hnone
            rw [takeOver_of_not_declares (by simpa using hnone)]
            rfl
      refine bind_mapMachine hfirst fun _ m' hm' => ?_
      have hentries : ∀ other, .declaration other ∈ cfg.files.flatten m.linked [(dir, stmt)] →
          other.Every NoLink := every_of_mem_flatten (by simpa using hstmt)
      obtain ⟨hconfined, -, hlinked⟩ := forM_takeOver_keeps cfg bound hentries hm (by rw [hm']; rfl)
      have hlinked := hlinked hm'
      rw [← hlinked]
      refine ihrest _ hrest hconfined (Nat.lt_of_le_of_lt (cfg.files.unlinked_le ?_) hnesting)
      rw [hlinked]
      exact Entry.subset_linkedAfter _ _

/-! ## The links of a program -/

/-- What a run does about the links of a program. -/
def followLinks (cfg : Settings) (p : Program) (bound : Nat) : Exec Unit :=
  p.statements.forM (followLink (link cfg bound))

/-- Take over the entries of a list from first to last. -/
def takeOverAll (cfg : Settings) (entries : List Entry) (bound : Nat) : Exec Unit :=
  entries.forM (takeOver (eval cfg bound))

theorem forM_followLink_eq (eval : Expr → Exec Value) (link : String → Location → Exec Unit)
    (stmts : List Stmt) :
    stmts.forM (followLink link) = (stmts.filter Stmt.isLink).forM (mergeStmt eval link) := by
  induction stmts with
  | nil => rfl
  | cons stmt rest ih =>
    show (followLink link stmt >>= fun _ => rest.forM (followLink link)) = _
    rw [ih]
    cases stmt <;> rfl

section

variable {p : Program} {m : Machine}
  (hp : ∀ stmt ∈ p.statements, stmt.isLink = true ∨ stmt.Every NoLink) (hm : m.Confined NoLink [])
include hp

theorem every_of_mem_outset (linked : List FileKey) (dir : String) :
    ∀ stmt, .declaration stmt ∈ cfg.files.flatten linked (p.outset dir) → stmt.Every NoLink :=
  every_of_mem_flatten (forall_mem_map.2 fun stmt hstmt => hp stmt (mem_of_mem_filter hstmt))

include hm

theorem followLinks_eq (hnesting : cfg.files.unlinked m.linked < nesting) :
    p.statements.forM (followLink (linkWith cfg.files (eval cfg bound) nesting)) m =
      takeOverAll cfg (cfg.files.flatten m.linked (p.outset m.baseDir)) bound m := by
  rw [forM_followLink_eq (eval cfg bound)]
  have htaken := takesOver cfg bound nesting (p.statements.filter Stmt.isLink) m.baseDir m
    (fun stmt hstmt => hp stmt (mem_of_mem_filter hstmt)) hm hnesting
  refine htaken.trans ((mapMachine_congr fun m' hm' => ?_).trans (mapMachine_id _))
  obtain ⟨-, hdir, -⟩ := forM_takeOver_keeps cfg bound (every_of_mem_outset hp _ _) hm hm'
  rw [Machine.moved, ← hdir]

theorem followLinks_within (bound : Nat) : (followLinks cfg p bound m).Within
    (takeOverAll cfg (cfg.files.flatten m.linked (p.outset m.baseDir)) bound m) := by
  have hnesting : cfg.files.unlinked m.linked < bound + cfg.files.unlinked m.linked + 1 := by omega
  rw [← followLinks_eq hp hm hnesting]
  have hlink := link_within cfg (Nat.le_refl bound)
    (show bound ≤ bound + cfg.files.unlinked m.linked + 1 by omega)
  exact (Simulates.forM fun stmt _ =>
    Rewriting.followLink (Pairing.Confines.same _ _ _ _).rewrites hlink ⟨rfl,
      .of_forall fun _ => trivial⟩).within (fun _ _ h => h) m

theorem takeOverAll_within {bound' : Nat} (h : bound + cfg.files.unlinked m.linked + 1 ≤ bound') :
    (takeOverAll cfg (cfg.files.flatten m.linked (p.outset m.baseDir)) bound m).Within
      (followLinks cfg p bound' m) := by
  rw [← followLinks_eq hp hm (Nat.lt_succ_self _)]
  have hlink :=
    linkWith_within cfg (show bound + (cfg.files.unlinked m.linked + 1) ≤ bound' by omega)
  exact (Simulates.forM fun stmt _ =>
    Rewriting.followLink (Pairing.Confines.same _ _ _ _).rewrites hlink ⟨rfl,
      .of_forall fun _ => trivial⟩).within (fun _ _ h => h) m

/-- **The links of a program are followed as their list is taken over.** -/
theorem ends_followLinks_iff {o : Outcome Unit} :
    Ends (followLinks cfg p) m o ↔
      Ends (takeOverAll cfg (cfg.files.flatten m.linked (p.outset m.baseDir))) m o :=
  Ends.iff_of_within (fun bound => followLinks_within hp hm bound)
    fun bound => ⟨bound + cfg.files.unlinked m.linked + 1, fun _ => takeOverAll_within hp hm⟩

end

/-! ## Ends -/

theorem define_ne_exhausted (symbol : Symbol) (loc : Location) (m : Machine) :
    define symbol loc m ≠ .exhausted := by
  simp only [define, Bind.bind, Exec.bind, machine]
  cases m.scopes.define? symbol with
  | none => exact failed_ne_exhausted
  | some => exact done_ne_exhausted

theorem introduce_ne_exhausted {eval : Expr → Exec Value} {stmt : Stmt} {m : Machine}
    (h : firstValues eval stmt m ≠ .exhausted) : introduce eval stmt m ≠ .exhausted := by
  have hfirst : ∀ {α : Type} {x : Exec α}, (x >>= fun _ => pure ()) m ≠ .exhausted →
      x m ≠ .exhausted := by
    rintro α x hx hexhausted
    exact hx (by simp only [Bind.bind, Exec.bind, hexhausted])
  cases stmt with
  | induce decl =>
    rw [introduce, induce_eq]
    exact bind_ne_exhausted (hfirst h) fun value m' _ => define_ne_exhausted _ _ m'
  | session decl =>
    refine bind_ne_exhausted (hfirst h) fun object m' _ => ?_
    exact bind_ne_exhausted done_ne_exhausted fun ref m₁ _ =>
      bind_ne_exhausted (define_ne_exhausted _ _ m₁) fun _ _ _ => done_ne_exhausted
  | suggestion decl => exact define_ne_exhausted _ _ m
  | tranceify decl =>
    exact bind_ne_exhausted (define_ne_exhausted _ _ m) fun _ _ _ => done_ne_exhausted
  | _ => exact done_ne_exhausted

theorem introduce_within (cfg : Settings) (stmt : Stmt) (m : Machine) {bound' : Nat}
    (h : bound ≤ bound') :
    (introduce (eval cfg bound) stmt m).Within (introduce (eval cfg bound') stmt m) := by
  have hb : (Pairing.same [] [] #[] True).Bounds bound bound' := .inr ⟨trivial, h⟩
  have hP := Pairing.Confines.same [] [] #[] True
  have heval := (Equal.run hP cfg hb).1
  have hdeclare : (declare (eval cfg bound) stmt m).Within (declare (eval cfg bound') stmt m) :=
    (Rewriting.declare hP.rewrites heval ⟨rfl, .of_forall fun _ => trivial⟩).within
      (fun _ _ h => h) m
  cases stmt with
  | induce decl => exact (Simulates.induce heval decl).within (fun _ _ h => h) m
  | _ => exact hdeclare

theorem ends_takeOver (cfg : Settings) (entry : Entry) (m : Machine)
    (h : ∀ stmt, entry = .declaration stmt → m.knows stmt = false →
      ∃ o, Ends (fun bound => firstValues (eval cfg bound) stmt) m o) :
    ∃ o, Ends (fun bound => takeOver (eval cfg bound) entry) m o := by
  cases entry with
  | file key => exact ⟨_, .const (x := update _) done_ne_exhausted⟩
  | broken path message loc => exact ⟨_, .const (x := fail _ loc) failed_ne_exhausted⟩
  | declaration stmt =>
    cases hknows : m.knows stmt with
    | true =>
      have hskip : ∀ bound, takeOver (eval cfg bound) (.declaration stmt) m = .done () m := by
        intro bound
        simp only [takeOver, Bind.bind, Exec.bind, machine, hknows, if_true]
        rfl
      exact ⟨.done () m, done_ne_exhausted, 0, fun bound _ => hskip bound⟩
    | false =>
      obtain ⟨o, hends⟩ := h stmt rfl hknows
      obtain ⟨bound, hbound⟩ := hends.exists_eq
      have hne := introduce_ne_exhausted (hbound ▸ hends.1)
      refine ⟨_, Ends.congr ⟨hne, _, fun _ hbound =>
        ((introduce_within cfg stmt m hbound).eq hne).symm⟩ fun bound => ?_⟩
      simp only [takeOver, Bind.bind, Exec.bind, machine, hknows, Bool.false_eq_true, if_false]

end Exec

end Trance
