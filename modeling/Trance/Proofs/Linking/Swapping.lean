import Trance.Proofs.Linking.Flat
import Trance.Proofs.Running.Reordering

/-!
# Variables in front of other declarations

A program lets its suggestions, sessions and record types take effect before its variables, wherever
they stand. Where a file is linked, each declaration takes effect at its place. So a variable that
stands in front of another declaration is moved there: it takes effect before the declaration, and
not after it.

The move changes nothing but the order of names if the variable and the declaration do not depend on
each other. If the declaration is that of a suggestion, the variable may need it in its new place,
and then it fails for want of the name. -/

namespace Trance

open List Option

/-! ## Declarations that do not depend on each other -/

/-- A variable whose first value is asked for, or looked up among `good` names, or nothing. Its type
is none of the given record types if it has no first value. -/
def Variable.Simple (types : List String) (good : String → Prop) (decl : Variable) : Prop :=
  match decl.start with
  | .external => True
  | .value init => init.Simple good
  | .unset => ∀ name, decl.typeName = some name → name ∉ types

/-- A session whose dominant fields start with what is looked up among `good` names. -/
def SessionOf.Simple (good : String → Prop) (decl : Session) : Prop :=
  ∀ member ∈ decl.members.filter (·.dominant), ∀ field init, member.decl = .field field →
    field.start = .value init → init.Simple good

/-- A variable and a declaration behind it do not depend on each other, where some record types are
known: neither of them looks up the name of the other. Of suggestions it is asked only that they are
not named like a built-in. -/
def Stmt.Apart (types : List String) : Stmt → Stmt → Prop
  | .induce first, .session second =>
    first.Simple types (· ≠ second.name) ∧ second.Simple (· ≠ first.name)
  | .induce first, .tranceify second => first.Simple types (· ≠ second.name)
  | .induce _, .suggestion second => second.name ∉ intrinsicNames
  | _, _ => True

/-- A statement that is no link, and declares no record type but known ones. -/
def Stmt.Knows (types : List String) (stmt : Stmt) : Prop :=
  stmt.isLink = false ∧ ∀ decl, stmt = .tranceify decl → decl.name ∈ types

theorem Stmt.not_knows {types : List String} (path : String) (loc : Location) :
    ¬Stmt.Knows types (.mindLink path loc) := fun h => nomatch h.1

/-- A machine at the top level, on which only code without links can be called. It knows record
types by their own names, and only the given ones. -/
structure Machine.Ready (types : List String) (m : Machine) : Prop where
  confined : m.Confined (Stmt.Knows types) []
  named : ∀ {name decl}, m.records.find? name = some decl → decl.name = name

namespace Machine.Ready

variable {types : List String} {m m' : Machine}

theorem reset (m : Machine) : m.reset.Ready types := ⟨m.confined_reset, nofun⟩

theorem has_eq_false (h : m.Ready types) {name : String} (hname : name ∉ types) :
    m.records.has name = false := by
  obtain ⟨hnone, -⟩ | ⟨decl, _, hsome, -, rfl, hknown⟩ :=
    relates_or_none (h.confined.records.find? name)
  · rw [Table.has, hnone]
    rfl
  · exact absurd (h.named hsome ▸ hknown.2 decl rfl) hname

theorem evolves {x : Exec Unit} {D : Stmt → Machine → Prop} {b : Bool} (hm : m.Ready types)
    (hx : x.Placeless (Stmt.Knows types)) (h : x m = .done () m') (hevolves : m.Evolves D b m') :
    m'.Ready types := by
  refine ⟨(hx.keeps hm.confined (by rw [h]; rfl)).1, fun {name decl} hfind => ?_⟩
  obtain hsame | ⟨_, _, -, hname, hdeclared⟩ := hevolves.record_or_declared name
  · exact hm.named (hsame ▸ hfind)
  · exact Option.some.inj (hdeclared.symm.trans hfind) ▸ hname

section

variable {cfg : Settings} {bound : Nat}

theorem declare (hm : m.Ready types) {stmt : Stmt} (hstmt : stmt.Every (Stmt.Knows types))
    (h : Exec.declare (Exec.eval cfg bound) stmt m = .done () m') : m'.Ready types :=
  hm.evolves (.declare Stmt.not_knows cfg bound hstmt) h
    ((Task.develops cfg bound (.declare stmt) m).done h)

theorem hoist (hm : m.Ready types) {stmts : List Stmt}
    (hstmts : ∀ stmt ∈ stmts, stmt.Every (Stmt.Knows types))
    (h : stmts.forM (Exec.declare (Exec.eval cfg bound)) m = .done () m') : m'.Ready types :=
  hm.evolves (.forM fun stmt hstmt => .declare Stmt.not_knows cfg bound (hstmts stmt hstmt)) h
    ((Task.develops cfg bound (.hoist stmts) m).done h)

theorem induce (hm : m.Ready types) {decl : Variable}
    (h : Exec.induce (Exec.eval cfg bound) decl m = .done () m') : m'.Ready types :=
  hm.evolves (.induce Stmt.not_knows cfg bound decl) h
    ((Task.develops cfg bound (.induce decl) m).done h)

end

end Machine.Ready

namespace Exec

variable {cfg : Settings} {bound : Nat} {types : List String} {good : String →
  Prop} {m m' n : Machine}

/-! ## Binding a name -/

variable {symbol : Symbol} {loc : Location}

theorem define_of_free (hframes : m.scopes.frames = [])
    (hfree : m.scopes.globals.find? symbol.name = none) :
    define symbol loc m = .done () (m.binding symbol) := by
  have hdefine : m.scopes.define? symbol = some (m.binding symbol).scopes := by
    simp only [Scopes.define?_of_frames_eq_nil hframes, Scopes.defineGlobal?, Bindings.add?,
      Bindings.has, hfree]
    rfl
  simp only [define, Bind.bind, Exec.bind, machine, hdefine]
  rfl

theorem define_eq_done (hframes : m.scopes.frames = []) (h : define symbol loc m = .done () m') :
    m.scopes.globals.find? symbol.name = none ∧ m' = m.binding symbol := by
  obtain ⟨scopes, hdefine, -⟩ := define_done h
  obtain ⟨-, hfree, -⟩ := find?_of_define? hframes hdefine
  refine ⟨hfree, ?_⟩
  rw [define_of_free hframes hfree] at h
  cases h
  rfl

theorem undefined?_define {e : RuntimeError} (h : define symbol loc m = .failed e m') :
    e.undefined? = none := by
  simp only [define, Bind.bind, Exec.bind, machine] at h
  cases hdefine : m.scopes.define? symbol with
  | none =>
    rw [hdefine] at h
    cases h
    rfl
  | some scopes =>
    rw [hdefine] at h
    cases h

end Exec

theorem Machine.find?_binding_comm {a b : Symbol} (hne : a.name ≠ b.name) (m : Machine)
    (name : String) : ((m.binding a).binding b).scopes.globals.find? name =
      ((m.binding b).binding a).scopes.globals.find? name := by
  simp only [Machine.find?_binding]
  by_cases ha : a.name = name
  · rw [if_pos ha, if_neg fun hb => hne (ha.trans hb.symm), or_none, or_none]
  · rw [if_neg ha, or_none, or_none]

namespace Exec

variable {cfg : Settings} {bound : Nat} {types : List String} {good : String →
  Prop} {m m' n : Machine}

/-! ## Simple declarations -/

theorem Looks.reads {α : Type} {x : Exec α} (h : Looks good x) : Reads True x := by
  intro m
  rw [h m m (.refl m)]
  cases x m with
  | done | failed => exact .inl rfl
  | exhausted => exact .inr ⟨trivial, rfl⟩

variable {decl : Session} {var : Variable} {m₀ : Machine}

theorem Looks.buildStatic (h : decl.Simple good) :
    Looks good (Exec.buildStatic (Exec.eval cfg bound) decl) := by
  refine .foldlM (fun object member hmember => ?_) _
  have hstart := h member hmember
  unfold addStatic
  cases hdecl : member.decl with
  | method method => exact .pure _
  | field field =>
    simp only
    cases hvalue : field.start with
    | unset | external => exact .pure _
    | value init =>
      have hinit := Looks.eval cfg bound (hstart field init hdecl hvalue)
      exact (Looks.inFrame .call hinit).bind fun _ => .pure _

theorem startValue_eq {decl : Variable} (hdecl : decl.Simple types good) (hm : m.Ready types)
    (hn : n.Ready types) (hmn : m.Shares good n) (hevents : n.events = m.events)
    (hinput : n.input = m.input) :
    startValue (eval cfg bound) decl n = (startValue (eval cfg bound) decl m).mapMachine
      fun k => { n with events := k.events, input := k.input } := by
  unfold Variable.Simple at hdecl
  unfold startValue
  cases hstart : decl.start with
  | external =>
    simp only [readExternal, readLine, update, machine, Bind.bind, Exec.bind, hinput, hevents]
    cases m.input with
    | nil => rfl
    | cons line rest =>
      show ofExcept (inputValue decl line) { n with events := _, input := rest } =
        (ofExcept (inputValue decl line) { m with events := _, input := rest }).mapMachine _
      cases inputValue decl line <;> rfl
  | value init =>
    rw [hstart] at hdecl
    have hlooks := Looks.eval cfg bound hdecl
    refine (hlooks m n hmn).trans (Outcome.mapMachine_congr fun k hk => ?_)
    rw [hlooks.reads.eq hk, ← hevents, ← hinput]
  | unset =>
    rw [hstart] at hdecl
    have hnull : Outcome.done Value.null n =
        .done Value.null { n with events := m.events, input := m.input } := by
      rw [← hevents, ← hinput]
    cases hname : decl.typeName with
    | none => exact hnull
    | some name =>
      have hunknown := hdecl name hname
      simp only [defaultValue, machine, Bind.bind, Exec.bind, hm.has_eq_false hunknown,
        hn.has_eq_false hunknown, Bool.false_eq_true, if_false]
      exact hnull

theorem induce_simple {decl : Variable} (hdecl : decl.Simple types good) (hm : m.Ready types)
    (hn : n.Ready types) (hmn : m.Shares good n) (hevents : n.events = m.events)
    (hinput : n.input = m.input) (h : induce (eval cfg bound) decl m = .done () m') :
    ∃ symbol events input, symbol.name = decl.name ∧ m.scopes.globals.find? decl.name = none ∧
      m' = { m.binding symbol with events, input } ∧
      (n.scopes.globals.find? decl.name = none →
        induce (eval cfg bound) decl n = .done () { n.binding symbol with events, input }) := by
  rw [induce_eq] at h ⊢
  obtain ⟨value, m₁, hvalue, hdefine⟩ := bind_eq_done h
  have hself : startValue (eval cfg bound) decl m = _ := startValue_eq hdecl hm hm (.refl m) rfl rfl
  have hother : startValue (eval cfg bound) decl n = _ :=
    startValue_eq hdecl hm hn hmn hevents hinput
  rw [hvalue] at hself hother
  have hm₁ : m₁ = { m with events := m₁.events, input := m₁.input } := by injection hself
  have hframes : m₁.scopes.frames = [] := by
    rw [hm₁]
    exact hm.confined.frames_eq_nil
  obtain ⟨hfree, rfl⟩ := define_eq_done hframes hdefine
  refine ⟨_, m₁.events, m₁.input, rfl, ?_, congrArg (Machine.binding _) hm₁, fun hfree' => ?_⟩
  · rw [hm₁] at hfree
    exact hfree
  · rw [bind_of_done hother]
    exact define_of_free hn.confined.frames_eq_nil hfree'

theorem induce_simple_failed {decl : Variable} (hdecl : decl.Simple types good) (hm : m.Ready types)
    (hn : n.Ready types) (hmn : m.Shares good n) (hevents : n.events = m.events)
    (hinput : n.input = m.input)
    {e : RuntimeError} (h : induce (eval cfg bound) decl m = .failed e m')
    (hundefined : e.undefined?.isSome = true) :
    ∃ n', induce (eval cfg bound) decl n = .failed e n' := by
  have hother : startValue (eval cfg bound) decl n = _ :=
    startValue_eq hdecl hm hn hmn hevents hinput
  rw [induce_eq] at h ⊢
  simp only [Bind.bind, Exec.bind, hother] at h ⊢
  cases hvalue : startValue (eval cfg bound) decl m with
  | failed e₁ m₁ =>
    rw [hvalue] at h
    cases h
    exact ⟨_, rfl⟩
  | exhausted =>
    rw [hvalue] at h
    cases h
  | done value m₁ =>
    rw [hvalue] at h
    rw [undefined?_define h] at hundefined
    cases hundefined

/-! ## One declaration -/

/-- A step fails for want of a suggestion that is among some statements. -/
def Needs (stmts : List Stmt) (x : Exec Unit) (m : Machine) : Prop :=
  ∃ e m' decl, x m = .failed e m' ∧ .suggestion decl ∈ stmts ∧ e.undefined? = some decl.name

theorem Needs.mono {stmts stmts' : List Stmt} {x : Exec Unit} (h : Needs stmts x m)
    (hsub : stmts ⊆ stmts') : Needs stmts' x m := by
  obtain ⟨e, m', decl, hfailed, hdecl, hname⟩ := h
  exact ⟨e, m', decl, hfailed, hsub hdecl, hname⟩

/-- `Swaps cfg bound var stmt m m₀`: a variable can be moved to the front of a declaration, which
leads from `m` to `m₀`, unless it needs a suggestion. -/
structure Swaps (cfg : Settings) (bound : Nat) (var : Variable) (stmt : Stmt) (m m₀ : Machine) :
    Prop where
  done : ∀ k₀, induce (eval cfg bound) var m₀ = .done () k₀ →
    (∃ k k₁, induce (eval cfg bound) var m = .done () k ∧
      declare (eval cfg bound) stmt k = .done () k₁ ∧ k₀.Reordered k₁) ∨
    Needs [stmt] (induce (eval cfg bound) var) m
  needs : ∀ stmts, Needs stmts (induce (eval cfg bound) var) m₀ →
    Needs (stmt :: stmts) (induce (eval cfg bound) var) m

theorem swap_simple {stmt : Stmt} {symbol : Symbol} {heap : Array Instance}
    {sessions : Table Session} {statics : Table SessionRef} {records : Table Tranceify}
    (hm : m.Ready types) (hvar : var.Simple types (· ≠ symbol.name))
    (hm₀ : ({ m.binding symbol with heap, sessions, statics, records } : Machine).Ready types)
    (hmoved : ∀ other events input, other.name = var.name → other.name ≠ symbol.name → declare
      (eval cfg bound) stmt { m.binding other with events, input } = .done ()
      { (m.binding other).binding symbol with events, input, heap, sessions, statics, records }) :
    Swaps cfg bound var stmt m { m.binding symbol with heap, sessions, statics, records } := by
  have hshares : ({ m.binding symbol with heap, sessions, statics, records } : Machine).Shares
      (· ≠ symbol.name) m := by
    refine ⟨rfl, fun name hname => ?_⟩
    show _ = (m.binding symbol).scopes.globals.find? name
    rw [Machine.find?_binding, if_neg (Ne.symm hname), or_none]
  refine ⟨fun k₀ h => ?_, ?_⟩
  · obtain ⟨other, events, input, hother, hfree, rfl, hinduce⟩ :=
      induce_simple hvar hm₀ hm hshares rfl rfl h
    have hfree : (m.binding symbol).scopes.globals.find? var.name = none := hfree
    rw [Machine.find?_binding, or_eq_none_iff] at hfree
    have hne : other.name ≠ symbol.name := by
      intro heq
      rw [if_pos (heq.symm.trans hother)] at hfree
      exact nomatch hfree.2
    refine .inl ⟨_, _, hinduce hfree.1, hmoved other events input hother hne, rfl, fun name => ?_⟩
    exact Machine.find?_binding_comm hne m name
  · rintro stmts ⟨e, k₀, decl, hfailed, hdecl, hname⟩
    obtain ⟨k, hfailed⟩ := induce_simple_failed hvar hm₀ hm hshares rfl rfl hfailed
      (by rw [hname]; rfl)
    exact ⟨e, k, decl, hfailed, mem_cons_of_mem _ hdecl, hname⟩

theorem swap_suggestion {decl : Suggestion} (hname : decl.name ∉ intrinsicNames)
    (hm : m.Ready types)
    (hdeclared : declare (eval cfg bound) (.suggestion decl) m = .done () m₀) :
    Swaps cfg bound var (.suggestion decl) m m₀ := by
  have hframes := hm.confined.frames_eq_nil
  obtain ⟨hfree, rfl⟩ := define_eq_done hframes hdeclared
  generalize hsymbol : (⟨decl.name, .suggestion, none, some (.suggestion decl)⟩ : Symbol) =
    symbol at hfree ⊢
  have hordinary : symbol.name ∉ intrinsicNames := hsymbol ▸ hname
  have hP : (Pairing.lacking (Stmt.Knows types) symbol hordinary).Confines (Stmt.Knows types) :=
    .lacking Stmt.not_knows
  have hsim := Simulates.induce (Equal.run hP cfg (.refl trivial bound)).1 var
  have hout := hsim [] (Pairing.inside rfl rfl rfl _) m (m.binding symbol)
    (hm.confined.alike_binding hfree)
  refine ⟨fun k₀ h => ?_, ?_⟩
  · rw [h] at hout
    generalize hrun : induce (eval cfg bound) var m = p at hout
    cases hout with
    | @done _ _ k _ result machines =>
      have hvar : (Stmt.induce var).declaredName? = some var.name := rfl
      have hframes₀ : (m.binding symbol).scopes.frames = [] := hframes
      obtain ⟨-, hfree₀, -, hkept₀⟩ := introduce_names hvar hframes₀ h
      obtain ⟨hframes', -, -, hkept⟩ := introduce_names hvar hframes hrun
      have hbound : (m.binding symbol).scopes.globals.find? symbol.name = some symbol := by
        rw [Machine.find?_binding, hfree, if_pos rfl, none_or]
      -- the variable has another name, so that it leaves the name of the suggestion alone
      have hother : var.name ≠ symbol.name := by
        intro heq
        cases (heq ▸ hfree₀).symm.trans hbound
      have hkept₀ := hkept₀ symbol.name hother
      have hkept := hkept symbol.name hother
      simp only [Bindings.fixed, hbound, hfree, map_none, map_some,
        map_eq_none_iff] at hkept₀ hkept
      refine .inl ⟨k, k.binding symbol, rfl, ?_, machines.reordered_binding Stmt.not_knows ?_⟩
      · subst hsymbol
        exact define_of_free hframes' hkept
      · intro hnone
        rw [hnone] at hkept₀
        cases hkept₀
    | lagging lags => exact lags.elim
    | parted lacked parted =>
      obtain rfl : _ = symbol := lacked
      cases parted with
      | @first e k _ missing =>
        exact .inr ⟨e, k, decl, hrun, mem_singleton_self _, missing.trans (hsymbol ▸ rfl)⟩
  · rintro stmts ⟨e, k₀, other, hfailed, hother, hmissing⟩
    rw [hfailed] at hout
    generalize hrun : induce (eval cfg bound) var m = p at hout
    cases hout with
    | @failed e' _ k _ error machines =>
      obtain rfl : e' = e := error
      exact ⟨e', k, other, hrun, mem_cons_of_mem _ hother, hmissing⟩
    | escaped escape => exact escape.elim
    | lagging lags => exact lags.elim
    | parted lacked parted =>
      obtain rfl : _ = symbol := lacked
      cases parted with
      | @first e k _ missing =>
        exact ⟨e, k, decl, hrun, mem_cons_self, missing.trans (hsymbol ▸ rfl)⟩
      | second other => cases other.symm.trans hmissing

theorem declare_session {object : Instance} (hframes : m.scopes.frames = [])
    (hbuilt : buildStatic (eval cfg bound) decl m = .done object m)
    (hfree : m.scopes.globals.find? decl.name = none) :
    declare (eval cfg bound) (.session decl) m =
      .done () { m.binding ⟨decl.name, .session, some decl.name,
        some (.session ⟨m.heap.size, object.name⟩)⟩ with
        heap := m.heap.push object
        sessions := m.sessions.insert decl.name decl
        statics := m.statics.insert decl.name ⟨m.heap.size, object.name⟩ } := by
  refine (bind_of_done hbuilt _).trans ?_
  exact bind_of_done (define_of_free (m := { m with heap := m.heap.push object }) hframes hfree) _

theorem swap_session (hvar : var.Simple types (· ≠ decl.name)) (hdecl : decl.Simple (· ≠ var.name))
    (hm : m.Ready types) (hm₀ : m₀.Ready types)
    (hdeclared : declare (eval cfg bound) (.session decl) m = .done () m₀) :
    Swaps cfg bound var (.session decl) m m₀ := by
  have hframes := hm.confined.frames_eq_nil
  have hlooks : Looks (· ≠ var.name) (buildStatic (eval cfg bound) decl) := .buildStatic hdecl
  obtain ⟨object, m₁, hbuilt, hrest⟩ := bind_eq_done hdeclared
  obtain rfl := hlooks.reads.done hbuilt
  obtain ⟨_, hfree, -⟩ := introduce_names
    (show Stmt.declaredName? (.session decl) = some decl.name from rfl) hframes hdeclared
  rw [declare_session hframes hbuilt hfree] at hdeclared
  cases hdeclared
  refine swap_simple hm hvar hm₀ fun other events input hother hne => ?_
  have hshares : m₁.Shares (· ≠ var.name) { m₁.binding other with events, input } := by
    refine ⟨rfl, fun name hname => ?_⟩
    show (m₁.binding other).scopes.globals.find? name = _
    rw [Machine.find?_binding, if_neg (fun heq => hname (heq.symm.trans hother)), or_none]
  refine declare_session hframes ((hlooks _ _ hshares).trans (by rw [hbuilt]; rfl)) ?_
  show (m₁.binding other).scopes.globals.find? decl.name = none
  rw [Machine.find?_binding, hfree, if_neg hne, none_or]

theorem swap_tranceify {decl : Tranceify} (hvar : var.Simple types (· ≠ decl.name))
    (hm : m.Ready types) (hm₀ : m₀.Ready types)
    (hdeclared : declare (eval cfg bound) (.tranceify decl) m = .done () m₀) :
    Swaps cfg bound var (.tranceify decl) m m₀ := by
  have hframes := hm.confined.frames_eq_nil
  obtain ⟨_, m₁, hdefined, hrest⟩ := bind_eq_done hdeclared
  obtain ⟨hfree, rfl⟩ := define_eq_done hframes hdefined
  cases hrest
  refine swap_simple hm hvar hm₀ fun other events input hother hne => ?_
  have hframes' : ({ m.binding other with events, input } : Machine).scopes.frames = [] := hframes
  refine bind_of_done (define_of_free hframes' ?_) _
  show (m.binding other).scopes.globals.find? decl.name = none
  rw [Machine.find?_binding, hfree, if_neg hne, none_or]

/-- **A variable can be moved to the front of one declaration.** -/
theorem swap_apart {stmt : Stmt} (hapart : Stmt.Apart types (.induce var) stmt)
    (hstmt : stmt.Every (Stmt.Knows types)) (hm : m.Ready types)
    (hdeclared : declare (eval cfg bound) stmt m = .done () m₀) :
    Swaps cfg bound var stmt m m₀ := by
  have hm₀ := hm.declare hstmt hdeclared
  cases stmt with
  | suggestion decl => exact swap_suggestion hapart hm hdeclared
  | session decl => exact swap_session hapart.1 hapart.2 hm hm₀ hdeclared
  | tranceify decl => exact swap_tranceify hapart hm hm₀ hdeclared
  | _ =>
    cases hdeclared
    exact ⟨fun k₀ h => .inl ⟨k₀, k₀, h, rfl, .refl k₀⟩, fun stmts h => h.mono (subset_cons_self _ _)⟩

/-! ## All declarations -/

/-- **A variable can be moved to the front of all declarations behind it**, unless it needs one of
them. -/
theorem swap_all {stmts : List Stmt} (hapart : ∀ stmt ∈ stmts, Stmt.Apart types (.induce var) stmt)
    (hstmts : ∀ stmt ∈ stmts, stmt.Every (Stmt.Knows types)) {k₀ : Machine} (hm : m.Ready types)
    (hdeclared : stmts.forM (declare (eval cfg bound)) m = .done () m₀)
    (hinduced : induce (eval cfg bound) var m₀ = .done () k₀) :
    (∃ k k₁, induce (eval cfg bound) var m = .done () k ∧
      stmts.forM (declare (eval cfg bound)) k = .done () k₁ ∧ k₀.Reordered k₁) ∨
    Needs stmts (induce (eval cfg bound) var) m := by
  induction stmts generalizing m with
  | nil =>
    cases hdeclared
    exact .inl ⟨k₀, k₀, hinduced, rfl, .refl k₀⟩
  | cons stmt rest ih =>
    obtain ⟨hfirst, hothers⟩ := forall_mem_cons.1 hapart
    obtain ⟨hstmt, hrest⟩ := forall_mem_cons.1 hstmts
    obtain ⟨_, m₁, hdeclare, hlater⟩ := bind_eq_done hdeclared
    have hm₁ := hm.declare hstmt hdeclare
    have hswaps := swap_apart hfirst hstmt hm hdeclare
    obtain ⟨k₁, k₂, hinduce₁, hlater₁, hreordered⟩ | hneeds := ih hothers hrest hm₁ hlater
    · obtain ⟨k, k', hinduce, hdeclare', hreordered'⟩ | hneeds := hswaps.done k₁ hinduce₁
      · -- the declarations that follow have the same effect with names in another order
        have hlist : (rest.forM (declare (eval cfg bound))).Placeless (Stmt.Knows types) :=
          .forM fun s hs => .declare Stmt.not_knows cfg bound (hrest s hs)
        have hout := hlist.reordered Stmt.not_knows (hm₁.induce hinduce₁).confined hreordered'
        rw [hlater₁] at hout
        generalize hlater' : rest.forM (declare (eval cfg bound)) k' = o at hout
        cases hout with
        | @done _ k₃ machines =>
          exact .inl ⟨k, k₃, hinduce, (bind_of_done hdeclare' _).trans hlater',
            hreordered.trans machines⟩
      · exact .inr (hneeds.mono (by simp))
    · exact .inr (hswaps.needs rest hneeds)

end Exec

end Trance
