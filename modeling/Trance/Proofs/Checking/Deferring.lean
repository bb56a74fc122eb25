import Trance.Proofs.Checking.Likeness

/-!
# What a check puts off

The check of a program puts off the bodies of its declarations until the main list has been checked.
No other step of a check looks at what has been put off, and each leaves it as it was. So the bodies
might as well be checked one after the other behind the main list, without a list of them in the
state. -/

namespace Trance

open List

/-! ## States that differ in what has been linked or put off -/

/-- The state of a check, in which other files have been linked, and other declarations put off. -/
def Checker.elsewhere (c : Checker) (link : List FileKey → List FileKey)
    (put : List Deferred → List Deferred) :
    Checker :=
  { c with linked := link c.linked, deferred := put c.deferred }

def Likeness.elsewhere (link : List FileKey → List FileKey) (put : List Deferred → List Deferred) :
    Likeness where
  rel _ c d := c = d.elsewhere link put
  opens _ := True
  resolve? := by rintro _ _ d rfl _; rfl
  session? := by rintro _ _ d rfl _; rfl
  record? := by rintro _ _ d rfl _; rfl
  context := by rintro _ _ d rfl; rfl
  report := by rintro _ _ d rfl _; rfl
  define := by
    rintro _ _ d rfl symbol _
    cases hdefine : d.scopes.define? symbol with
    | none => exact .inl ⟨hdefine, rfl⟩
    | some s => exact .inr ⟨s, s, hdefine, rfl, rfl⟩
  retype := by rintro _ _ d rfl _ _; rfl
  know := by rintro _ _ d rfl _ _; rfl
  knowRecord := by rintro _ _ d rfl _ _; rfl
  enter := by rintro _ _ d rfl _; rfl
  exit := by rintro _ _ d rfl; rfl
  move := by rintro _ _ d rfl _; rfl

theorem Check.alike_merge {link : List FileKey → List FileKey} {put : List Deferred → List Deferred}
    {k : Nat} (nested : Checker) (path : String) (loc : Location) (symbol : Symbol) :
    Steady (.elsewhere link put) k (merge nested path loc symbol) := by
  refine .get fun c d h => ?_
  obtain rfl : c = d.elsewhere link put := h
  simp only [Checker.elsewhere]
  cases d.scopes.defineGlobal? symbol with
  | none => exact .report _ loc
  | some scopes =>
    refine .bind (.change fun c d h => ?_) fun _ => ?_
    · obtain rfl : c = d.elsewhere link put := h
      rfl
    cases symbol.kind with
    | session =>
      cases nested.sessions.find? symbol.name with
      | none => exact .pure ()
      | some info => exact .change fun _ _ h => (Likeness.elsewhere link put).know (k := k) h _ info
    | record =>
      cases nested.records.find? symbol.name with
      | none => exact .pure ()
      | some info =>
        exact .change fun _ _ h => (Likeness.elsewhere link put).knowRecord (k := k) h _ info
    | _ => exact .pure ()

/-! ## Steps that do not look at what has been put off -/

def Checker.deferring (c : Checker) (later : List Deferred) : Checker := { c with deferred := later }

namespace Check

variable {α β : Type}

/-- A step that does not look at what has been put off, and leaves it as it is. -/
class Blind (x : Check α) : Prop where
  blind (x) : ∀ c later, x.run (c.deferring later) = ((x.run c).1, (x.run c).2.deferring later)

export Blind (blind)

theorem Blind.of_alike {k : Nat} {x : Check α}
    (h : ∀ later, Steady (.elsewhere id fun _ => later) k x) : Blind x :=
  ⟨fun c later => Prod.ext_iff.2 (h later (c.deferring later) c rfl)⟩

theorem Blind.alike (x : Check α) [Blind x] (later : List Deferred) (k : Nat) :
    Steady (.elsewhere id fun _ => later) k x := by
  intro c d h
  obtain rfl : c = d.deferring later := h
  exact Prod.ext_iff.1 (blind x d later)

theorem after_deferring (x : Check α) [Blind x] (c : Checker) (later : List Deferred) :
    (c.deferring later).after x = (c.after x).deferring later :=
  congrArg Prod.snd (blind x c later)

theorem deferred_after (x : Check α) [Blind x] (c : Checker) :
    (c.after x).deferred = c.deferred := by
  have hsame : c.after x = (c.after x).deferring c.deferred := after_deferring x c c.deferred
  rw [hsame]
  rfl

instance (a : α) : Blind (pure a) := ⟨fun _ _ => rfl⟩

instance {x : Check α} {f : α → Check β} [Blind x] [∀ a, Blind (f a)] : Blind (x >>= f) :=
  .of_alike (k := 0) fun later => (Blind.alike x later 0).bind fun a => Blind.alike (f a) later 0

instance {σ : Type} {step : σ → Check Unit} [∀ s, Blind (step s)] (all : List σ) :
    Blind (all.forM step) :=
  .of_alike (k := 0) fun later => .forM fun s _ => Blind.alike (step s) later 0

instance (labels : List String) (step : Check Unit) [Blind step] : Blind (withLabels labels step) :=
  .of_alike (k := 0) fun later => .inContext _ _ (Blind.alike step later 0)

/-- **Following a link leaves what has been put off as it was.** The linked file has a check of its
own. -/
instance blind_link (linker : Linker) (bound : Nat) (path : String) (loc : Location) :
    Blind (linker.link bound path loc) := by
  cases bound with
  | zero => exact inferInstanceAs (Blind (pure ()))
  | succ bound =>
    refine .of_alike (k := 0) fun later => .get fun c d h => ?_
    obtain rfl : c = d.deferring later := h
    refine .ite (.pure ()) (.bind (.change fun c d h => ?_) fun _ => ?_)
    · obtain rfl : c = d.deferring later := h
      rfl
    simp only [Checker.deferring]
    cases linker.files.read (Path.join d.baseDir path) with
    | error e => exact .report _ loc
    | ok source =>
      simp only
      cases Program.ofText (linker.files.key (Path.join d.baseDir path)).origin source with
      | error e => exact .report _ loc
      | ok p =>
        refine .bind (.change fun c d h => ?_) fun _ => .forM fun symbol _ =>
          alike_merge _ path loc symbol
        obtain rfl : c = d.deferring later := h
        rfl

end Check

open Check

theorem Terms.Made.blind {α : Type} {link : Follower} [∀ path loc, Blind (link path loc)]
    {p : Prop} {k : Nat} {Q : α → Prop} {x : Check α} {jumps : Context → List (Code × Location)}
    {calls : Checker → List Call} (h : (linking link).Made p k Q x x jumps calls) : Blind x :=
  .of_alike (k := k) fun later => h.alike rfl fun _ path loc k => Blind.alike (link path loc) later k

namespace Check

instance (e : Expr) : Blind (infer e) :=
  (Terms.plain_infer (T := linking fun _ _ => pure ()) (p := False) (k := 0) e).blind

instance (p : Program) : Blind (names p) :=
  (Terms.looks_names (T := linking fun _ _ => pure ()) (k := 0) (q := False) (fun _ _ => trivial)
    fun s _ => Terms.lax_admits _ _ _ _ s).blind

instance (s : Stmt) : Blind (collectType s) :=
  (Terms.looks_collectType (T := linking fun _ _ => pure ()) (p := False) (k := 0)
    (Terms.lax_admits _ _ _ _ s)).blind

section

variable (link : Follower) [∀ path loc, Blind (link path loc)]

instance (s : Stmt) : Blind (stmt link s) :=
  have hlinks : (linking link).Follows (s.sites .fresh) := fun _ _ _ => trivial
  (Terms.made_stmt s hlinks (.of_forall (Terms.lax_admits _ _ _ _)) (p := False)
    (k := 1) nofun).blind

instance (s : Stmt) : Blind (followLink link s) := by
  cases s with
  | mindLink path loc => exact inferInstanceAs (Blind (link path loc))
  | _ => exact inferInstanceAs (Blind (pure ()))

instance (s : Stmt) : Blind (entrance link s) := by
  cases s with
  | entrance body loc => exact inferInstanceAs (Blind (stmt link (.entrance body loc)))
  | _ => exact inferInstanceAs (Blind (pure ()))

instance (s : Stmt) : Blind (mainEffect link s) := by
  cases s with
  | entrance | mindLink | suggestion | session | tranceify => exact inferInstanceAs (Blind (pure ()))
  | _ => exact inferInstanceAs (Blind (stmt link _))

instance (s : Stmt) : Blind (declarationBody link s) :=
  (Terms.made_declarationBody (T := linking link) (k := 0) (p := False) (fun _ _ _ => trivial)
    (.of_forall (Terms.lax_admits _ _ _ _))).blind

instance (decl : Deferred) : Blind (deferredBody link decl) := by
  cases decl with
  | suggestion decl => exact inferInstanceAs (Blind (declarationBody link (.suggestion decl)))
  | session decl => exact inferInstanceAs (Blind (declarationBody link (.session decl)))
  | tranceify decl => exact inferInstanceAs (Blind (declarationBody link (.tranceify decl)))

end

/-! ## Programs -/

theorem after_forM_append {σ : Type} (c : Checker) (step : σ → Check Unit) (xs ys : List σ) :
    c.after ((xs ++ ys).forM step) = (c.after (xs.forM step)).after (ys.forM step) := by
  induction xs generalizing c with
  | nil => rfl
  | cons x rest ih => exact ih (c.after (step x))

end Check

/-- The declaration whose body is put off where a statement stands in the main list. -/
def Stmt.deferred? : Stmt → Option Deferred
  | .suggestion decl => some (.suggestion decl)
  | .session decl => some (.session decl)
  | .tranceify decl => some (.tranceify decl)
  | _ => none

namespace Check

section

variable (link : Follower)

theorem after_deferredBodies (body : List Stmt) (c : Checker) :
    c.after ((body.filterMap Stmt.deferred?).forM (deferredBody link)) = c.after
    (body.forM (declarationBody link)) := by
  induction body generalizing c with
  | nil => rfl
  | cons s rest ih =>
    cases s with
    | suggestion | session | tranceify => exact ih _
    | _ => exact ih c

variable [∀ path loc, Blind (link path loc)]

theorem after_mainStmt (s : Stmt) (c : Checker) : c.after (mainStmt link s) =
    (c.after (mainEffect link s)).deferring (c.deferred ++ s.deferred?.toList) := by
  have hplain : c.after (mainEffect link s) =
      (c.after (mainEffect link s)).deferring (c.deferred ++ []) := by
    rw [append_nil, ← deferred_after (mainEffect link s) c]
    rfl
  cases s with
  | suggestion | session | tranceify => rfl
  | _ => exact hplain

theorem after_mainStmts (body : List Stmt) (c : Checker) : c.after (body.forM (mainStmt link)) =
    (c.after (body.forM (mainEffect link))).deferring
    (c.deferred ++ body.filterMap Stmt.deferred?) := by
  induction body generalizing c with
  | nil =>
    rw [filterMap_nil, append_nil]
    rfl
  | cons s rest ih =>
    have hlist : c.deferred ++ (s :: rest).filterMap Stmt.deferred? =
        c.deferred ++ s.deferred?.toList ++ rest.filterMap Stmt.deferred? := by
      rw [append_assoc]
      cases hs : s.deferred? with
      | none => rw [filterMap_cons_none hs, Option.toList_none, nil_append]
      | some decl => rw [filterMap_cons_some hs, Option.toList_some, singleton_append]
    calc c.after ((s :: rest).forM (mainStmt link))
        = (c.after (mainStmt link s)).after (rest.forM (mainStmt link)) := rfl
      _ = (((c.after (mainEffect link s)).after (rest.forM (mainEffect link))).deferring
            (c.deferred ++ s.deferred?.toList)).deferring
          (c.deferred ++ s.deferred?.toList ++ rest.filterMap Stmt.deferred?) := by
        rw [ih, after_mainStmt, after_deferring]
        rfl
      _ = (c.after ((s :: rest).forM (mainEffect link))).deferring
          (c.deferred ++ (s :: rest).filterMap Stmt.deferred?) := by
        rw [hlist]
        rfl

/-- Check a program up to the end of its main list, and do nothing about declarations. -/
def untilBodies (p : Program) : Check Unit := do
  names p
  p.statements.forM (followLink link)
  p.statements.forM collectType
  p.statements.forM (entrance link)
  withLabels (labelsOf p.statements) (p.statements.forM (mainEffect link))

instance (p : Program) : Blind (untilBodies link p) := by
  unfold untilBodies
  infer_instance

/-- **The bodies that were put off are checked behind the main list**, those of before and then
those of the program, and none is left. -/
theorem after_program (p : Program) (c : Checker) : c.after (program link p) =
    (((c.after (untilBodies link p)).deferring []).after (c.deferred.forM (deferredBody link))).after
      (p.statements.forM (declarationBody link)) := by
  let d := (((c.after (names p)).after (p.statements.forM (followLink link))).after
    (p.statements.forM collectType)).after (p.statements.forM (entrance link))
  have hd : d.deferred = c.deferred := by simp only [d, deferred_after]
  have hmain : d.after (withLabels (labelsOf p.statements) (p.statements.forM (mainStmt link))) =
      (c.after (untilBodies link p)).deferring
        (c.deferred ++ p.statements.filterMap Stmt.deferred?) := by
    have hinside := after_mainStmts link p.statements (d.withLabels (labelsOf p.statements))
    rw [← hd]
    exact congrArg (fun inside : Checker => { inside with
      context := { inside.context with labels := inside.context.labels.tail } }) hinside
  calc c.after (program link p)
      = ((c.after (untilBodies link p)).deferring []).after
          ((c.deferred ++ p.statements.filterMap Stmt.deferred?).forM (deferredBody link)) := by
        show ((d.after (withLabels _ _)).deferring []).after
            ((d.after (withLabels _ _)).deferred.forM _) = _
        rw [hmain]
        rfl
    _ = _ := by rw [after_forM_append, after_deferredBodies]

theorem deferred_program (p : Program) (c : Checker) : (c.after (program link p)).deferred = [] := by
  rw [after_program, deferred_after, deferred_after]
  rfl

theorem after_program_of_nil (p : Program) {c : Checker} (hc : c.deferred = []) :
    c.after (program link p) =
      ((c.after (names p)).after (p.statements.forM (followLink link))).after (bodies link p) := by
  have hnone : (c.after (untilBodies link p)).deferring [] = c.after (untilBodies link p) := by
    rw [← hc, ← deferred_after (untilBodies link p) c]
    rfl
  rw [after_program, hc, hnone]
  rfl

end

end Check

theorem Linker.check_eq_after {linker : Linker} (p : Program) {c : Checker} (hc : c.deferred = []) :
    linker.check p c = ((c.after (names p)).after
      (p.statements.forM (followLink (linker.link linker.bound)))).after
      (bodies (linker.link linker.bound) p) :=
  after_program_of_nil (linker.link linker.bound) p hc

end Trance
