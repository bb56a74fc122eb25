import Trance.Proofs.Running.Expression
import Trance.Proofs.Running.Signals

/-!
# Statements side by side

A statement can end in several ways, and what is around it takes some of them up: a list takes up
jumps to its labels, a loop takes up `snap` and `sink`, and a call takes up everything, turning a
jump that is left into an error. What may leave a statement is described by its exits; each
construct says how the exits of its parts become its own.
-/

namespace Trance

open Exec

/-! ## Flows -/

/-- The same way to end, with alike values. -/
inductive Flow.Alike (S : Matching) : Flow → Flow → Prop where
  | normal : Alike S .normal .normal
  | snap (loc : Location) : Alike S (.snap loc) (.snap loc)
  | sink (loc : Location) : Alike S (.sink loc) (.sink loc)
  | jump (label : String) (loc : Location) : Alike S (.jump label loc) (.jump label loc)
  | awaken {v w} (value : Value.Alike S v w) : Alike S (.awaken v) (.awaken w)

def Stmt.labelName? : Stmt → Option String
  | label name _ => some name
  | _ => none

theorem Stmt.afterLabel?_cons (label : String) (first : Stmt) (rest : List Stmt) :
    afterLabel? label (first :: rest) =
    if first.labelName? = some label then some rest else afterLabel? label rest := by
  cases first with
  | label name loc => simp only [afterLabel?, labelName?, Option.some.injEq]
  | _ => rfl

/-- The ways to end that leave a list: all jumps but those to a label of the list. -/
def Flow.leavesList (all : List Stmt) : Flow → Prop
  | normal => False
  | jump label _ => Stmt.afterLabel? label all = none
  | snap _ | sink _ | awaken _ => True

def Flow.leavesLoop : Flow → Prop
  | normal | snap _ | sink _ => False
  | jump _ _ | awaken _ => True

theorem Flow.Alike.of_error? {S : Matching} {flow : Flow} {e : RuntimeError}
    (h : flow.error? = some e) : Flow.Alike S flow flow := by
  cases flow with
  | normal | awaken => exact nomatch h
  | snap loc => exact .snap loc
  | sink loc => exact .sink loc
  | jump label loc => exact .jump label loc

/-! ## Exits -/

/-- How a statement may end, and with which flows it may be on its way out while the other run has
failed with an error. -/
structure Exits where
  allows : Flow → Prop
  escapes : Flow → RuntimeError → Prop

namespace Exits

def every : Exits := ⟨fun _ => True, Never⟩

/-- The exits `X` of the parts of a construct become the exits `Y` of the whole, where only certain
flows leave it. -/
structure Pass (leaves : Flow → Prop) (X Y : Exits) : Prop where
  normal : Y.allows .normal
  allows : ∀ flow, X.allows flow → leaves flow → Y.allows flow
  escapes : ∀ flow e, X.escapes flow e → leaves flow ∧ Y.escapes flow e

/-- At the end of a call, jumps that are left become errors. -/
structure Rejected (P : Pairing) (X : Exits) : Prop where
  allows : ∀ flow e, X.allows flow → flow.error? = some e → P.errors e e
  escapes : ∀ flow e, X.escapes flow e → ∃ e', flow.error? = some e' ∧ P.errors e' e

theorem pass_every (leaves : Flow → Prop) : Pass leaves every every :=
  ⟨trivial, fun _ _ _ => trivial, fun _ _ h => h.elim⟩

end Exits

abbrev FlowSim (P : Pairing) (K : List Frame.Kind → Prop) (X : Exits) (x y : Exec Flow) : Prop :=
  Simulates P K (fun f g => Flow.Alike P.matching f g ∧ X.allows f) X.escapes x y

namespace FlowSim

variable {P : Pairing} {K : List Frame.Kind → Prop} {X Y : Exits}

theorem normal (h : X.allows .normal) : FlowSim P K X (pure .normal) (pure .normal) :=
  .pure ⟨.normal, h⟩

theorem makeJump {flow : Flow} (hflow : Flow.Alike P.matching flow flow) (h : X.allows flow)
    (loc : Location) : FlowSim P K X (makeJump flow loc) (makeJump flow loc) :=
  fun _ _ _ _ hm => .done ⟨hflow, h⟩ { hm with signal := P.signals_self loc }

theorem andThen {α β : Type} {A : α → β → Prop} {x : Exec α} {y : Exec β} (h : Sim P K A x y)
    (hnormal : X.allows .normal) :
    FlowSim P K X (do let _ ← x; return .normal) (do let _ ← y; return .normal) :=
  h.bind fun _ _ _ => normal hnormal

/-! ## Lists -/

section

variable {T : Stmt → Stmt → Prop} {exec exec' : Stmt → Exec Flow} {all all' : List Stmt}

theorem afterLabel? (hlabel : ∀ {s t}, T s t → s.labelName? = t.labelName?)
    (hall : List.Forall₂ T all all') (label : String) :
    Option.Rel (List.Forall₂ T) (Stmt.afterLabel? label all) (Stmt.afterLabel? label all') := by
  induction hall with
  | nil => exact .none
  | cons hst rest ih =>
    rw [Stmt.afterLabel?_cons, Stmt.afterLabel?_cons, hlabel hst]
    split
    · exact .some rest
    · exact ih

variable {bound bound' : Nat}

/-- **Lists of corresponding statements are related**, and what leaves a statement leaves the list
unless it is a jump to one of its labels. -/
theorem sequence (hlabel : ∀ {s t}, T s t → s.labelName? = t.labelName?)
    (hall : List.Forall₂ T all all') (hexec : ∀ {s t}, T s t → FlowSim P K X (exec s) (exec' t))
    (hpass : Exits.Pass (Flow.leavesList all) X Y) (hb : P.Bounds bound bound')
    {rest rest' : List Stmt} (hrest : List.Forall₂ T rest rest') :
    FlowSim P K Y (Exec.sequence exec all bound rest) (Exec.sequence exec' all' bound' rest') := by
  induction bound generalizing bound' rest rest' with
  | zero =>
    obtain ⟨hcuts, rfl⟩ | hlags := hb.zero
    · exact .exhausted hcuts
    · exact .lagging hlags
  | succ bound ih =>
    obtain ⟨bound', rfl, hless⟩ := hb.succ
    cases hrest with
    | nil => exact normal hpass.normal
    | cons hst hrest =>
      refine (hexec hst).bindEscape ?_ ?_
      · rintro f g ⟨hfg, hallowed⟩
        cases hfg with
        | normal => exact ih hless hrest
        | jump label loc =>
          simp only
          obtain ⟨ha, hb⟩ | ⟨_, _, ha, hb, hafter⟩ := relates_or_none
            (afterLabel? hlabel hall label) <;> rw [ha, hb]
          · exact .pure ⟨.jump label loc, hpass.allows _ hallowed ha⟩
          · exact ih hless hafter
        | snap loc => exact .pure ⟨.snap loc, hpass.allows _ hallowed trivial⟩
        | sink loc => exact .pure ⟨.sink loc, hpass.allows _ hallowed trivial⟩
        | awaken h => exact .pure ⟨.awaken h, hpass.allows _ hallowed trivial⟩
      · intro flow e hescape m
        obtain ⟨hleaves, hY⟩ := hpass.escapes flow e hescape
        refine .inl ⟨flow, ?_, hY⟩
        cases flow with
        | normal => exact hleaves.elim
        | jump label loc =>
          simp only
          rw [show Stmt.afterLabel? label all = none from hleaves]
          rfl
        | _ => rfl

theorem sequence_self (hexec : ∀ s ∈ all, FlowSim P K X (exec s) (exec' s))
    (hpass : Exits.Pass (Flow.leavesList all) X Y) (hb : P.Bounds bound bound') :
    FlowSim P K Y (Exec.sequence exec all bound all) (Exec.sequence exec' all bound' all) := by
  have hall : List.Forall₂ (fun s t => s = t ∧ s ∈ all) all all :=
    List.forall₂_same.2 fun _ hs => ⟨rfl, hs⟩
  refine sequence (fun h => by rw [h.1]) hall ?_ hpass hb hall
  rintro s _ ⟨rfl, hs⟩
  exact hexec s hs

theorem block (hexec : ∀ s ∈ all, FlowSim P P.Inside X (exec s) (exec' s))
    (hpass : Exits.Pass (Flow.leavesList all) X Y) (hb : P.Bounds bound bound') :
    FlowSim P P.Inside Y (block exec bound all) (block exec' bound' all) :=
  (Simulates.inBlock (sequence_self hexec hpass hb)).inside

end

/-! ## Loops -/

/-- **Loops over related bodies are related**, and what leaves the body leaves the loop but for
`snap` and `sink`. -/
theorem iterate {cond cond' : Exec Bool} {body body' : Exec Flow} {step step' : Exec Unit}
    (hcond : Sim P K Eq cond cond') (hbody : FlowSim P K X body body')
    (hstep : Sim P K Eq step step')
    (hpass : Exits.Pass Flow.leavesLoop X Y) {bound bound' : Nat} (hb : P.Bounds bound bound') :
    FlowSim P K Y (iterate cond body step bound) (iterate cond' body' step' bound') := by
  induction bound generalizing bound' with
  | zero =>
    obtain ⟨hcuts, rfl⟩ | hlags := hb.zero
    · exact .exhausted hcuts
    · exact .lagging hlags
  | succ bound ih =>
    obtain ⟨bound', rfl, hless⟩ := hb.succ
    refine hcond.bind ?_
    rintro holds _ rfl
    cases holds with
    | false => exact normal hpass.normal
    | true =>
      refine hbody.bindEscape ?_ ?_
      · rintro f g ⟨hfg, hallowed⟩
        cases hfg with
        | normal | sink loc => exact hstep.bind fun _ _ _ => ih hless
        | snap loc => exact normal hpass.normal
        | jump label loc => exact .pure ⟨.jump label loc, hpass.allows _ hallowed trivial⟩
        | awaken h => exact .pure ⟨.awaken h, hpass.allows _ hallowed trivial⟩
      · intro flow e hescape m
        obtain ⟨hleaves, hY⟩ := hpass.escapes flow e hescape
        refine .inl ⟨flow, ?_, hY⟩
        cases flow with
        | normal | snap | sink => exact hleaves.elim
        | jump | awaken => rfl

end FlowSim

namespace Simulates

variable {P : Pairing} {K : List Frame.Kind → Prop} {X : Exits} {eval eval' : Expr → Exec Value}

theorem holds (heval : Evaluators P eval eval') (cond : Option Expr) :
    Sim P P.Sees Eq (holds eval cond) (holds eval' cond) := by
  cases cond with
  | none => exact pure rfl
  | some cond => exact (heval cond).bind fun _ _ h => pure h.truthy

theorem perform (heval : Evaluators P eval eval') (expr : Option Expr) :
    Sim P P.Sees Eq (perform eval expr) (perform eval' expr) := by
  cases expr with
  | none => exact pure rfl
  | some expr => exact (heval expr).bind fun _ _ _ => pure rfl

theorem checkAssertion (hnotes : P.Notes) (holds : Bool) (message : Option String) (loc : Location) :
    Sim P K Eq (Exec.checkAssertion holds message loc) (Exec.checkAssertion holds message loc) := by
  unfold Exec.checkAssertion
  split
  · exact pure rfl
  · exact update fun _ _ _ _ hm => { hm with failures := hnotes _ hm.failures }

/-! ## Calls -/

/-- Jumps that are left are rejected alike, and what comes behind other ways to end is related if it
is related for each of them. -/
theorem bindRejected {γ δ : Type} {A : γ → δ → Prop} {x y : Exec Flow} [x.Signals] [y.Signals]
    (hxy : FlowSim P K X x y) (hrejected : Exits.Rejected P X) {f : Flow → Exec γ}
    {g : Flow → Exec δ}
    (hf : Rejects f) (hg : Rejects g) (hnormal : Sim P K A (f .normal) (g .normal))
    (hawaken : ∀ v w, P.Values v w → Sim P K A (f (.awaken v)) (g (.awaken w))) :
    Sim P K A (x >>= f) (y >>= g) := by
  rw [bind_eq_rejectOr x hf, bind_eq_rejectOr y hg]
  refine hxy.bindEscape ?_ fun flow e hescape m => ?_
  · rintro f g ⟨hfg, hallowed⟩
    cases hfg with
    | normal => exact hnormal
    | awaken h => exact hawaken _ _ h
    | snap | sink | jump => exact throw (hrejected.allows _ _ hallowed rfl)
  · obtain ⟨e', herror, hpaired⟩ := hrejected.escapes flow e hescape
    exact .inr ⟨e', by rw [rejectOr, herror]; rfl, hpaired⟩

/-- **Calls of corresponding suggestions are related**, wherever they are made, if the lists of
their bodies are. -/
theorem callBody (limit : Nat) {bound bound' : Nat} {exec exec' : Stmt → Exec Flow}
    [∀ s, (exec s).Signals] [∀ s, (exec' s).Signals] {a b : Suggestion}
    (hab : P.matching.rel a b)
    (hbody : FlowSim P P.Inside X (Exec.sequence exec a.body bound a.body)
      (Exec.sequence exec' b.body bound' b.body))
    (hrejected : Exits.Rejected P X) {args args' : List Value}
    (hargs : List.Forall₂ P.Values args args') (receiver : Option SessionRef) (loc : Location) :
    Sim P K P.Values (Exec.callBody limit exec bound a args receiver loc)
      (Exec.callBody limit exec' bound' b args' receiver loc) := by
  unfold Exec.callBody
  rw [hargs.length_eq, Matching.params_eq hab, Matching.name_eq hab, Matching.location_eq hab,
    Matching.imperative_eq hab]
  split
  · exact fail rfl
  refine (requireDepth limit loc).bind fun _ _ _ => ?_
  have hbound := (bindParams b.location b.params hargs).bind fun _ _ _ => hbody
  have hthis : Sim P (fun kinds => P.Inside kinds ∧ kinds ≠ []) Eq (Exec.bindThis receiver)
      (Exec.bindThis receiver) := bindThis (fun _ hk => ⟨hk.1, .inl hk.2⟩) receiver
  have hcalled := hthis.bind fun _ _ _ => hbound.mono fun _ hk => hk.1
  refine bindRejected (deeper (hcalled.inFrame .call fun kinds _ =>
    ⟨Pairing.inside_cons .call (Sealed.call kinds), List.cons_ne_nil _ _⟩)) hrejected
    (.of_jumps (fun _ => rfl) (fun _ => rfl) fun _ _ => rfl)
      (.of_jumps (fun _ => rfl) (fun _ => rfl) fun _ _ => rfl)
    (pure .null) fun v w h => pure ?_
  split
  · exact .null
  · exact h

end Simulates

/-! ## Programs -/

def Stmt.isEntrance : Stmt → Bool
  | entrance .. => true
  | _ => false

def Stmt.entranceBody? : Stmt → Option (List Stmt)
  | entrance body _ => some body
  | _ => none

theorem Exec.entrances_cons (exec : Stmt → Exec Flow) (bound : Nat) (first : Stmt)
    (rest : List Stmt) : entrances exec bound (first :: rest) =
      match first.entranceBody? with
      | some body => do
        match ← block exec bound body with
        | .awaken value => return .awaken value
        | flow => do
          rejectEscape flow
          entrances exec bound rest
      | none => entrances exec bound rest := by
  cases first <;> rfl

namespace Simulates

variable {P : Pairing} {X : Exits} {exec exec' : Stmt → Exec Flow} {bound bound' : Nat}
  {body body' entered entered' : List Stmt}

def Entrances (P : Pairing) (X : Exits) (exec exec' : Stmt → Exec Flow) (bound bound' : Nat) :
    Stmt → Stmt → Prop :=
  fun s t => Option.Rel
    (fun body body' => FlowSim P P.Inside X (block exec bound body) (block exec' bound' body'))
    s.entranceBody? t.entranceBody?

theorem entrances_self (hblock : ∀ stmts loc, .entrance stmts loc ∈ body →
      FlowSim P P.Inside X (block exec bound stmts) (block exec' bound' stmts)) :
    List.Forall₂ (Entrances P X exec exec' bound bound') body body := by
  refine List.forall₂_same.2 fun stmt hstmt => ?_
  cases stmt with
  | entrance stmts loc => exact .some (hblock stmts loc hstmt)
  | _ => exact .none

variable [∀ s, (exec s).Signals] [∀ s, (exec' s).Signals]

theorem entrances (hrejected : Exits.Rejected P X)
    (hentered : List.Forall₂ (Entrances P X exec exec' bound bound') entered entered') :
    Sim P P.Inside (Flow.Alike P.matching) (entrances exec bound entered)
      (entrances exec' bound' entered') := by
  induction hentered with
  | nil => exact .pure .normal
  | cons hst _ ih =>
    rw [entrances_cons, entrances_cons]
    obtain ⟨hs, ht⟩ | ⟨stmts, stmts', hs, ht, hblock⟩ := relates_or_none hst <;> rw [hs, ht]
    · exact ih
    · exact bindRejected hblock hrejected (.of_jumps (fun _ => rfl) (fun _ => rfl) fun _ _ => rfl)
        (.of_jumps (fun _ => rfl) (fun _ => rfl) fun _ _ => rfl) ih fun _ _ h => .pure (.awaken h)

/-- What a program does once its links have been followed. The lists that are searched for entrance
blocks may be other ones than the main lists. -/
theorem blocks (hrejected : Exits.Rejected P X)
    (hentered : List.Forall₂ (Entrances P X exec exec' bound bound') entered entered')
    (hmain : FlowSim P P.Inside X (Exec.sequence (mainStmt exec) body bound body)
      (Exec.sequence (mainStmt exec') body' bound' body')) :
    Sim P P.Inside Eq (do
        match ← Exec.entrances exec bound entered with
        | .awaken _ => Pure.pure ()
        | _ => do
          let flow ← Exec.sequence (mainStmt exec) body bound body
          rejectEscape flow)
      (do
        match ← Exec.entrances exec' bound' entered' with
        | .awaken _ => Pure.pure ()
        | _ => do
          let flow ← Exec.sequence (mainStmt exec') body' bound' body'
          rejectEscape flow) := by
  have hlist : Sim P P.Inside Eq (Exec.sequence (mainStmt exec) body bound body >>= rejectEscape)
      (Exec.sequence (mainStmt exec') body' bound' body' >>= rejectEscape) :=
    bindRejected hmain hrejected .rejectEscape .rejectEscape (.pure rfl) fun _ _ _ => .pure rfl
  refine (entrances hrejected hentered).bind fun f g hfg => ?_
  cases hfg with
  | awaken => exact .pure rfl
  | normal | snap | sink | jump => exact hlist

end Simulates

/-! ## Declarations and links -/

theorem Session.Alike.self {S : Matching} {decl : Session}
    (h : ∀ member ∈ decl.members, ∀ method, member.decl = .method method → S.rel method method) :
    Session.Alike S decl decl := by
  refine ⟨rfl, List.forall₂_same.2 fun member hmember => ⟨?_, rfl, rfl⟩, rfl⟩
  cases hdecl : member.decl with
  | field field => exact .field field
  | method method => exact .method (h member hmember method hdecl)

/-- What taking over a statement of a linked file does if its name is free. -/
def Exec.mergeFree (eval : Expr → Exec Value) (link : String → Location → Exec Unit) :
    Stmt → Exec Unit
  | .mindLink path loc => link path loc
  | .induce decl => induce eval decl
  | other => declare eval other

namespace Simulates

variable {P : Pairing} {eval eval' : Expr → Exec Value} {link link' : String → Location → Exec Unit}

/-- Statements that declare the same name are taken over alike if this is so where the name is free.
No names may be lacked. -/
theorem mergeStmt_of_free (hlacks : ∀ symbol, ¬P.lacks symbol) {s t : Stmt}
    (hname : s.declaredName? = t.declaredName?)
    (hfree : Sim P P.Inside Eq (mergeFree eval link s) (mergeFree eval' link' t)) :
    Sim P P.Inside Eq (mergeStmt eval link s) (mergeStmt eval' link' t) := by
  refine machine fun _ m n _ hm => ?_
  have hhas : m.scopes.globals.has = n.scopes.globals.has :=
    funext (hm.scopes.globals.has_eq hlacks)
  simp only [hhas, hname]
  split
  · exact pure rfl
  · exact hfree

end Simulates

/-! ## One step -/

/-- The statements without other statements inside, but for jumps, links and assertions. -/
def Stmt.isPlain : Stmt → Bool
  | induce _ | tranceify _ | observe .. | awaken .. | label .. | expr .. => true
  | _ => false

namespace FlowSim

variable {P : Pairing} {X Y : Exits} {eval eval' : Expr → Exec Value}
  {exec exec' : Stmt → Exec Flow} {link link' : String → Location → Exec Unit} {bound bound' : Nat}
  (heval : Evaluators P eval eval')

section

variable (hnormal : X.allows .normal)
include heval hnormal

theorem plain (hawaken : ∀ value, X.allows (.awaken value)) {stmt : Stmt}
    (htype : ∀ decl, stmt = .tranceify decl → P.types decl) (hplain : stmt.isPlain = true) :
    FlowSim P P.Inside X (execStep bound eval exec link stmt)
      (execStep bound' eval' exec' link' stmt) := by
  cases stmt with
  | induce decl => exact andThen (.induce heval decl) hnormal
  | tranceify decl => exact andThen (.declareTranceify (htype decl rfl)) hnormal
  | observe expr _ =>
    refine (heval expr).inside.bind fun _ _ h => ?_
    rw [h.toText]
    exact andThen (.writeLine _) hnormal
  | awaken expr _ =>
    cases expr with
    | none => exact .pure ⟨.awaken .null, hawaken _⟩
    | some expr => exact (heval expr).inside.bind fun _ _ h => .pure ⟨.awaken h, hawaken _⟩
  | label => exact normal hnormal
  | expr expr _ => exact andThen (heval expr).inside hnormal
  | branch | whileLoop | loop | suggestion | session | snap | sink | sinkTo | assert | entrance
  | mindLink => exact nomatch hplain

theorem assert (hnotes : P.Notes) (cond : Expr) (message : Option String) (loc : Location) :
    FlowSim P P.Inside X (execStep bound eval exec link (.assert cond message loc))
      (execStep bound' eval' exec' link' (.assert cond message loc)) := by
  refine (heval cond).inside.bind fun _ _ h => ?_
  rw [h.truthy]
  exact andThen (.checkAssertion hnotes _ message loc) hnormal

theorem branch (cond : Expr) {yes yes' : List Stmt} {no no' : Option (List Stmt)} (loc : Location)
    (hyes : FlowSim P P.Inside X (Exec.block exec bound yes) (Exec.block exec' bound' yes'))
    (hno : Option.Rel (fun body body' =>
      FlowSim P P.Inside X (Exec.block exec bound body) (Exec.block exec' bound' body')) no no') :
    FlowSim P P.Inside X (execStep bound eval exec link (.branch cond yes no loc))
      (execStep bound' eval' exec' link' (.branch cond yes' no' loc)) := by
  refine (heval cond).inside.bind fun _ _ h => ?_
  rw [h.truthy]
  split
  · exact hyes
  · cases hno with
    | none => exact normal hnormal
    | some hbody => exact hbody

end

include heval in
theorem whileLoop (cond : Expr) {body body' : List Stmt} (loc : Location)
    (hb : P.Bounds bound bound')
    (hbody : FlowSim P P.Inside Y (Exec.block exec bound body) (Exec.block exec' bound' body'))
    (hpass : Exits.Pass Flow.leavesLoop Y X) :
    FlowSim P P.Inside X (execStep bound eval exec link (.whileLoop cond body loc))
      (execStep bound' eval' exec' link' (.whileLoop cond body' loc)) :=
  iterate (Simulates.holds heval (some cond)).inside hbody (.pure rfl) hpass hb

include heval in
theorem loop {init init' : Option Stmt} (cond step : Option Expr) {body body' : List Stmt}
    (loc : Location)
    (hinit : Option.Rel (fun s t => FlowSim P P.Inside X (exec s) (exec' t)) init init')
    (hescape : ∀ e, ¬X.escapes .normal e) (hb : P.Bounds bound bound')
    (hbody : FlowSim P P.Inside Y (Exec.block exec bound body) (Exec.block exec' bound' body'))
    (hpass : Exits.Pass Flow.leavesLoop Y X) :
    FlowSim P P.Inside X (execStep bound eval exec link (.loop init cond step body loc))
      (execStep bound' eval' exec' link' (.loop init' cond step body' loc)) := by
  refine .inside (.inBlock ?_)
  have hrounds := iterate (Simulates.holds heval cond).inside hbody
    (Simulates.perform heval step).inside hpass hb
  cases hinit with
  | none => exact hrounds
  | some hfirst =>
    refine hfirst.bindEscape ?_ ?_
    · rintro f g ⟨hfg, hallowed⟩
      cases hfg with
      | normal => exact hrounds
      | snap loc => exact .pure ⟨.snap loc, hallowed⟩
      | sink loc => exact .pure ⟨.sink loc, hallowed⟩
      | jump label loc => exact .pure ⟨.jump label loc, hallowed⟩
      | awaken h => exact .pure ⟨.awaken h, hallowed⟩
    · intro flow e h m
      refine .inl ⟨flow, ?_, h⟩
      cases flow with
      | normal => exact (hescape e h).elim
      | _ => rfl

end FlowSim

end Trance
