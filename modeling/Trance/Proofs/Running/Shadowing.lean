import Trance.Proofs.Running.Contents
import Trance.Proofs.Running.Ending
import Trance.Proofs.Running.Restoration

/-!
# Declarations inside of blocks

A session or a record type that is declared inside of a block hides one of the same name around the
block. Once the block has ended, the name stands for what it stood for before. The declarations
themselves are known by name only: where a declaration of a name takes effect inside of the block,
it stays the one that new sessions and records of this name are made from.
-/

namespace Trance

open List Option Exec

/-! ## What cannot be assigned -/

/-- A symbol without what can be assigned. -/
def Symbol.fixed (symbol : Symbol) : Symbol :=
  if symbol.kind = .variable ∨ symbol.kind =
    .parameter then { symbol with value := none } else symbol

theorem Symbol.eq_of_fixed_eq {a b : Symbol} (h : b.fixed = a.fixed)
    (hvariable : a.kind ≠ .variable) (hparameter : a.kind ≠ .parameter) : b = a := by
  have ha : a.fixed = a := if_neg (by simp [hvariable, hparameter])
  have hkind : b.kind = a.kind := by
    have := congrArg Symbol.kind (h.trans ha)
    unfold Symbol.fixed at this
    split at this <;> exact this
  have hb : b.fixed = b := if_neg (by simp [hkind, hvariable, hparameter])
  rw [← ha, ← h, hb]

/-- What the names of a frame stand for, but for what can be assigned. -/
def Bindings.fixed (bindings : Bindings) (name : String) : Option Symbol :=
  (bindings.find? name).map Symbol.fixed

/-- What names stand for in each frame, the innermost first, and among the globals, but for what can
be assigned. -/
def Scopes.fixed (s : Scopes) :
    List (Frame.Kind × (String → Option Symbol)) × (String → Option Symbol) :=
  (s.frames.map fun frame => (frame.kind, frame.bindings.fixed), s.globals.fixed)

theorem Bindings.fixed_update {bindings : Bindings} {name : String} {value : Value}
    (h : ∀ symbol, bindings.find? name = some symbol → symbol.kind = .variable ∨
      symbol.kind = .parameter) :
    (bindings.update name fun symbol => { symbol with value := some value }).fixed =
      bindings.fixed := by
  funext other
  rw [fixed, find?_update bindings name other
    (fun symbol => { symbol with value := some value }) fun _ => rfl, fixed]
  cases hother : bindings.find? other with
  | none => rfl
  | some symbol =>
    simp only [map_some, Option.some.injEq]
    split
    · rename_i hname
      have hfound : symbol.name = other := by
        simpa using List.find?_some (p := fun symbol : Symbol => symbol.name == other) hother
      obtain rfl : name = other := (beq_iff_eq.1 hname).symm.trans hfound
      simp [Symbol.fixed, h symbol hother]
    · rfl

namespace Scopes

variable {s t : Scopes}

theorem fixed_exit (h : t.fixed = s.fixed) : t.exit.fixed = s.exit.fixed := by
  simp only [fixed, exit, Prod.mk.injEq, map_tail] at h ⊢
  rw [h.1, h.2]
  exact ⟨rfl, rfl⟩

theorem fixed_resolveIn {frames frames' : List Frame} {globals globals' : Bindings} (name : String)
    (hframes : frames'.map (fun frame => (frame.kind, frame.bindings.fixed)) =
      frames.map fun frame => (frame.kind, frame.bindings.fixed))
    (hglobals : globals'.fixed = globals.fixed) :
    (resolveIn frames' globals' name).map Symbol.fixed =
      (resolveIn frames globals name).map Symbol.fixed := by
  have hname := congrFun hglobals name
  induction frames generalizing frames' with
  | nil =>
    obtain rfl := map_eq_nil_iff.1 hframes
    exact hname
  | cons frame below ih =>
    obtain ⟨frame', below', rfl⟩ : ∃ frame' below', frames' = frame' :: below' := by
      cases frames' with
      | nil => cases hframes
      | cons frame' below' => exact ⟨_, _, rfl⟩
    simp only [map_cons, List.cons.injEq, Prod.mk.injEq] at hframes
    obtain ⟨⟨hkind, hbindings⟩, hbelow⟩ := hframes
    have hfound := congrFun hbindings name
    simp only [Bindings.fixed] at hfound
    simp only [resolveIn, hkind]
    cases hframe : frame.bindings.find? name with
    | some symbol =>
      obtain ⟨symbol', hsymbol', hfixed⟩ := map_eq_some_iff.1 (hfound.trans (by rw [hframe]; rfl))
      simp only [hsymbol', map_some, hfixed]
    | none =>
      have hframe' : frame'.bindings.find? name = none :=
        map_eq_none_iff.1 (hfound.trans (by rw [hframe]; rfl))
      simp only [hframe']
      cases frame.kind with
      | call => exact hname
      | block => exact ih hbelow

variable {name : String} {symbol : Symbol}

theorem resolve?_of_fixed (h : t.fixed = s.fixed) (hsymbol : s.resolve? name = some symbol)
    (hvariable : symbol.kind ≠ .variable) (hparameter : symbol.kind ≠ .parameter) :
    t.resolve? name = some symbol := by
  simp only [fixed, Prod.mk.injEq] at h
  have hresolve := fixed_resolveIn name h.1 h.2
  rw [show resolveIn s.frames s.globals name = some symbol from hsymbol] at hresolve
  obtain ⟨symbol', hsymbol', hfixed⟩ := map_eq_some_iff.1 hresolve
  rw [resolve?, hsymbol', Symbol.eq_of_fixed_eq hfixed hvariable hparameter]

theorem fixed_assign? (value : Value) (hfound : s.resolve? name = some symbol)
    (hkind : symbol.kind = .variable ∨ symbol.kind = .parameter) :
    ((s.assign? name value).getD s).fixed = s.fixed := by
  cases h : s.assign? name value with
  | none => rfl
  | some t =>
    obtain ⟨own, hown, hcases⟩ := update?_eq_some h
    obtain rfl := Option.some.inj (hfound.symm.trans hown)
    have hfixed {bindings : Bindings} (hfind : bindings.find? name = some symbol) :
        (bindings.update name fun symbol => { symbol with value := some value }).fixed =
          bindings.fixed :=
      Bindings.fixed_update fun other hother => by
        obtain rfl := Option.some.inj (hfind.symm.trans hother)
        exact hkind
    obtain ⟨hfind, rfl⟩ | ⟨above, frame, below, hframes, hfind, rfl⟩ := hcases
    · simp [fixed, hfixed hfind]
    · simp [fixed, hframes, hfixed hfind]

theorem exit_define? (h : s.define? symbol = some t) (hframes : s.frames ≠ []) :
    t.exit = s.exit := by
  unfold define? at h
  split at h
  · contradiction
  · rename_i frame below hs
    obtain ⟨bindings, -, rfl⟩ := map_eq_some_iff.1 h
    simp only [exit, hs, tail_cons]

/-- The scopes without the frame in which names may be bound, if they may be. -/
def outer (s : Scopes) : Bool → Scopes
  | true => s.exit
  | false => s

end Scopes

/-! ## What a machine keeps -/

section

variable {D : Stmt → Machine → Prop} {b : Bool} {m m' : Machine}

/-- **What does not bind names in a frame keeps its names.** Where names are bound in the innermost
frame, this is true of the frames below it. -/
theorem Machine.Evolves.fixed (h : m.Evolves D b m') (hb : b = false ∨ m.scopes.frames ≠ []) :
    (m'.scopes.outer b).fixed = (m.scopes.outer b).fixed := by
  induction h with
  | refl => rfl
  | @trans b m₁ m₂ m₃ first second ih ih' =>
    refine (ih' ?_).trans (ih hb)
    refine hb.imp_right fun hframes => ?_
    have hkinds := first.inPlace.kinds
    intro hnil
    rw [Scopes.kinds, hnil, map_nil, Scopes.kinds, eq_comm, map_eq_nil_iff] at hkinds
    exact hframes hkinds
  | define free =>
    have hexit := Scopes.exit_define? free (hb.resolve_left (by simp))
    simp only [Scopes.outer, hexit]
  | @assign b m name symbol found kind value =>
    have hassign := Scopes.fixed_assign? value found kind
    cases b with
    | true => exact Scopes.fixed_exit hassign
    | false => exact hassign
  | allocate | modify | outside | link | session | tranceify => rfl
  | @inFrame b m kind m' inside ih =>
    -- the frame that is opened is the one in which names may be bound
    have hbelow : m'.pop.scopes.fixed = m.scopes.fixed :=
      ih (.inr (by simp [Machine.push, Scopes.enter]))
    cases b with
    | true => exact Scopes.fixed_exit hbelow
    | false => exact hbelow
  | deeper _ ih | inDirectory _ ih => exact ih hb

end

/-! ## Declarations -/

section

variable {D : Stmt → Machine → Prop} {b : Bool} {m m' : Machine}

theorem Machine.Evolves.session_or_declared (h : m.Evolves D b m') (name : String) :
    (m'.sessions.find? name = m.sessions.find? name ∧ m'.statics.find? name = m.statics.find? name) ∨
    ∃ decl ref m₁, D (.session decl) m₁ ∧ decl.name = name ∧ m₁.statics.find? name = some ref ∧
      m'.sessions.find? name = some decl ∧ m'.statics.find? name = some ref := by
  induction h with
  | refl | define | assign | allocate | modify | outside | link | tranceify => exact .inl ⟨rfl, rfl⟩
  | trans _ _ ih ih' =>
    obtain ⟨hsessions, hstatics⟩ | hdeclared := ih'
    · rw [hsessions, hstatics]
      exact ih
    · exact .inr hdeclared
  | @session m decl ref effective =>
    by_cases hname : decl.name = name
    · have hstatics : (m.knowSession decl ref).statics.find? name = some ref := by
        simp only [knowSession, Table.find?_insert, hname, if_true]
      have hsessions : (m.knowSession decl ref).sessions.find? name = some decl := by
        simp only [knowSession, Table.find?_insert, hname, if_true]
      exact .inr ⟨decl, ref, _, effective, hname, hstatics, hsessions, hstatics⟩
    · exact .inl ⟨by simp only [knowSession, Table.find?_insert, hname, if_false],
        by simp only [knowSession, Table.find?_insert, hname, if_false]⟩
  | inFrame _ ih | deeper _ ih | inDirectory _ ih => exact ih

theorem Machine.Evolves.record_or_declared (h : m.Evolves D b m') (name : String) :
    m'.records.find? name = m.records.find? name ∨
    ∃ decl m₁, D (.tranceify decl) m₁ ∧ decl.name = name ∧ m'.records.find? name = some decl := by
  induction h with
  | refl | define | assign | allocate | modify | outside | link | session => exact .inl rfl
  | trans _ _ ih ih' =>
    obtain hrecords | hdeclared := ih'
    · rw [hrecords]
      exact ih
    · exact .inr hdeclared
  | @tranceify m decl effective =>
    by_cases hname : decl.name = name
    · exact .inr ⟨decl, _, effective, hname,
        by simp only [knowRecord, Table.find?_insert, hname, if_true]⟩
    · exact .inl (by simp only [knowRecord, Table.find?_insert, hname, if_false])
  | inFrame _ ih | deeper _ ih | inDirectory _ ih => exact ih

theorem Machine.Evolves.heap_size_le (h : m.Evolves D b m') : m.heap.size ≤ m'.heap.size := by
  induction h with
  | trans _ _ ih ih' => exact Nat.le_trans ih ih'
  | allocate object => exact Nat.le_of_lt (by simp)
  | modify => exact Nat.le_of_eq Array.size_setIfInBounds.symm
  | refl | define | assign | outside | link | session | tranceify => exact Nat.le_refl _
  | inFrame _ ih | deeper _ ih | inDirectory _ ih => exact ih

end

/-- On the way of a visit the declaration of a session takes effect, and `ref` leads to the new
object that it makes for the name of the session. -/
def Visit.Establishes (cfg : Settings) (v : Visit) (decl : Session) (ref : SessionRef) : Prop :=
  ∃ n m object m₁ m', Visit.Reaches cfg v ⟨n, .declare (.session decl), m⟩ ∧
    declare (eval cfg n) (.session decl) m = .done () m' ∧
    buildStatic (eval cfg n) decl m = .done object m₁ ∧ m.heap.size ≤ ref.id ∧
    m'.heap[ref.id]? = some object ∧ m'.statics.find? decl.name = some ref

theorem Visit.Declares.establishes {cfg : Settings} {v : Visit} {decl : Session} {ref : SessionRef}
    {m' : Machine} (h : v.Declares cfg (.session decl) m')
    (href : m'.statics.find? decl.name = some ref) : v.Establishes cfg decl ref := by
  obtain ⟨n, m, hreaches, hdone⟩ := h
  obtain ⟨object, m₁, hbuilt, hrun⟩ := bind_eq_done hdone
  obtain ⟨own, m₂, hknown, hrun⟩ := bind_eq_done hrun
  obtain ⟨_, m₃, hdefined, hrun⟩ := bind_eq_done hrun
  obtain ⟨scopes, -, rfl⟩ := define_done hdefined
  cases hknown
  cases hrun
  have hevolves := (Task.develops cfg n (.statics (Instance.empty decl.name)
    (decl.members.filter (·.dominant))) m).done hbuilt
  have hown : some (⟨m₁.heap.size, object.name⟩ : SessionRef) = some ref := by
    rw [← href, Table.find?_insert, if_pos rfl]
  obtain rfl := Option.some.inj hown
  exact ⟨n, m, object, m₁, _, hreaches, hdone, hbuilt, hevolves.heap_size_le,
    Array.getElem?_push_size, href⟩

/-- **What blocks leave of names and declarations.** Take anything that opens the frames for its
names itself: a block, the rounds of a loop, an entrance block, the call of a suggestion. Once it is
done or has failed, every name that was visible before and is no variable and no parameter stands
for the same symbol. What a session or a record type of a name is made from, and what the name of a
session has as its object, is as before, unless a declaration of this name took effect in the
meantime; then it is made from such a declaration, and the object is the one that this declaration
made. -/
theorem Visit.names_and_declarations_after (cfg : Settings) (v : Visit)
    (hframe : v.task.binds = false) (m' : Machine)
    (h : (v.task.step cfg v.bound v.machine).machine? = some m') :
    (∀ name symbol, v.machine.scopes.resolve? name = some symbol → symbol.kind ≠ .variable →
      symbol.kind ≠ .parameter → m'.scopes.resolve? name = some symbol) ∧
    (∀ name, (m'.sessions.find? name = v.machine.sessions.find? name ∧
        m'.statics.find? name = v.machine.statics.find? name) ∨
      ∃ decl ref, v.Establishes cfg decl ref ∧ decl.name = name ∧
        m'.sessions.find? name = some decl ∧ m'.statics.find? name = some ref) ∧
    (∀ name, m'.records.find? name = v.machine.records.find? name ∨
      ∃ decl m₁, v.Declares cfg (.tranceify decl) m₁ ∧ decl.name = name ∧
        m'.records.find? name = some decl) := by
  have hevolves := Task.develops cfg v.bound v.task v.machine m' h
  refine ⟨fun name symbol hsymbol hvariable hparameter => ?_, fun name =>
    ?_, hevolves.record_or_declared⟩
  · rw [hframe] at hevolves
    exact Scopes.resolve?_of_fixed (hevolves.fixed (.inl rfl)) hsymbol hvariable hparameter
  · refine (hevolves.session_or_declared name).imp_right ?_
    rintro ⟨decl, ref, m₁, hdeclared, rfl, href, hsession, hstatic⟩
    exact ⟨decl, ref, hdeclared.establishes href, rfl, hsession, hstatic⟩

/-- A session `S` with a field `v` that starts with a text, declared in a column of the first line.
-/
def Session.holder (column : Nat) (text : String) : Session :=
  ⟨"S", [⟨.field ⟨"v", none, .value (.text text ⟨1, column + 30⟩), ⟨1, column + 19⟩⟩, true, false⟩],
    ⟨1, column⟩⟩

/-- After a block that hides `S`, the name stands for the outer session again, and the declaration
that sessions `S` are made from is one that took effect in the block. -/
theorem Visit.holder_after_hiding : ∃ m m' : Machine,
    declare (eval ⟨.empty, 256⟩ 9) (.session (Session.holder 7 "outer"))
      (.new "" [] none) = .done () m ∧
    Exec.block (exec ⟨.empty, 256⟩ 9) 9 [.session (Session.holder 60 "inner")] m = .done .normal m' ∧
    m.scopes.resolve? "S" = some ⟨"S", .session, some "S", some (.session ⟨0, "S"⟩)⟩ ∧
    m'.scopes.resolve? "S" = some ⟨"S", .session, some "S", some (.session ⟨0, "S"⟩)⟩ ∧
    ∃ decl ref, Visit.Establishes ⟨.empty, 256⟩
      ⟨9, .block [.session (Session.holder 60 "inner")], m⟩ decl ref ∧
      decl.name = "S" ∧ m'.sessions.find? "S" = some decl ∧ m'.statics.find? "S" = some ref := by
  obtain ⟨m, m', hdeclare, hblock, hsymbol, hbefore, hafter⟩ : ∃ m m' : Machine,
      declare (eval ⟨.empty, 256⟩ 9) (.session (Session.holder 7 "outer")) (.new "" [] none) =
        .done () m ∧
      Exec.block (exec ⟨.empty, 256⟩ 9) 9 [.session (Session.holder 60 "inner")] m =
        .done .normal m' ∧
      m.scopes.resolve? "S" = some ⟨"S", .session, some "S", some (.session ⟨0, "S"⟩)⟩ ∧
      m.statics.find? "S" = some ⟨0, "S"⟩ ∧ m'.statics.find? "S" = some ⟨1, "S"⟩ :=
    ⟨_, _, rfl, rfl, rfl, rfl, rfl⟩
  obtain ⟨hnames, hsessions, -⟩ := names_and_declarations_after ⟨.empty, 256⟩
    ⟨9, .block [.session (Session.holder 60 "inner")], m⟩ rfl m' (by
      show (Exec.block _ _ _ m).machine? = some m'
      rw [hblock]
      rfl)
  refine ⟨m, m', hdeclare, hblock, hsymbol, hnames "S" _ hsymbol (by decide) (by decide), ?_⟩
  obtain ⟨-, hstatics⟩ | hdeclared := hsessions "S"
  · rw [hafter, hbefore] at hstatics
    exact absurd hstatics (by simp)
  · exact hdeclared

/-- A block in which a session hides another one, and a new session after the block. -/
def Program.hidingBlock : Program :=
  ⟨[.session (Session.holder 7 "outer"),
    .branch (.boolean true ⟨1, 52⟩) [.session (Session.holder 60 "inner")] none ⟨1, 48⟩,
    .observe (.field (.call (.name "S" ⟨1, 111⟩) [] ⟨1, 112⟩) "v" ⟨1, 114⟩) ⟨1, 103⟩]⟩

/-- **A hidden declaration does not come back.** Before the block sessions `S` are made from the
outer declaration, and `S` is bound around the block; after it they are made from the inner one. -/
theorem Program.hidingBlock_replaces_declaration :
    Program.ofText .main ("Focus session S \x7b expose induce v = \"outer\"; \x7d " ++
        "if (true) \x7b session S \x7b expose induce v = \"inner\"; \x7d \x7d observe S().v; Relax") =
      .ok hidingBlock ∧
    (∃ m m' : Machine, Visit.Reaches ⟨.empty, 256⟩
      ⟨12, .program hidingBlock, (Machine.new "" [] none).reset⟩
        ⟨11, .block [.session (Session.holder 60 "inner")], m⟩ ∧
      Exec.block (exec ⟨.empty, 256⟩ 11) 11
        [.session (Session.holder 60 "inner")] m = .done .normal m' ∧
      (m.scopes.resolve? "S").map (·.kind) = some .session ∧
      m.sessions.find? "S" = some (Session.holder 7 "outer") ∧
      m'.sessions.find? "S" = some (Session.holder 60 "inner") ∧
      m.statics.find? "S" = some ⟨0, "S"⟩ ∧ m'.statics.find? "S" = some ⟨1, "S"⟩) ∧
    ∃ m', hidingBlock.run ⟨.empty, 256⟩ 12 (.new "" [] none) = .done () m' ∧
    m'.events = #[.line "inner"] := by
  -- the main list comes to the branch, and the branch to its block
  exact ⟨by set_option maxRecDepth 1000 in with_unfolding_all rfl,
    ⟨_, _, .head (.starting rfl rfl rfl nofun) <| .head (.mainNext rfl) <|
    .head (.mainHead rfl) <| .single (.yes rfl rfl), rfl, rfl, rfl, rfl, rfl, rfl⟩, _, rfl, rfl⟩

end Trance
