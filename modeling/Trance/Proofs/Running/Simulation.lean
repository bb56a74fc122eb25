import Trance.Proofs.Running.Frames
import Trance.Running.Control

/-!
# Runs side by side

Two steps are compared by running them on machines that are alike. They are related if both are done
with related results, or both fail with related errors, and leave alike machines in each case. More
cases can be allowed for: the first step may be done with a result that is on its way out of
everything around it, while the second has already failed; both steps may be cut short; the first
step may be cut short where the second goes on; and where the first machine lacks some names of the
second one, the first step may fail since it needs such a name. In this last case nothing is said of
a second step that fails, unless it needs another name. -/

namespace Trance

open List Exec

/-! ## Machines -/

def intrinsicNames : List String := ["drift", "Drift", "Observe"]

/-- The name that a run has failed for, since it stands for nothing. -/
def RuntimeError.undefined? : RuntimeError → Option String
  | raised (.undefinedVariable name) _ | raised (.undefinedFunction name) _ => some name
  | _ => none

/-- How two runs are compared: which suggestions correspond to each other, what is known of record
types, which frames are hidden, which errors are related, what the first run has shown before the
second began, how the failed assertions that they have noted are related, how their base directories
and the files linked so far are, how the positions of their last jumps are, whether names may be
bound in another order, which global symbols the first run may lack then, whether both runs may be
cut short, whether the first may be cut short where the second goes on, and whether the second has a
spare frame. -/
structure Pairing where
  matching : Matching
  types : Tranceify → Prop
  hidden₁ : List Frame
  hidden₂ : List Frame
  errors : RuntimeError → RuntimeError → Prop
  shown : Array Event
  noted : List AssertionFailure → List AssertionFailure → Prop
  around : String → List FileKey → String → List FileKey → Prop
  signals : Location → Location → Prop
  reorders : Prop
  lacks : Symbol → Prop
  cuts : Prop
  lags : Prop
  spare : Bool
  errors_self : ∀ {e}, e.isJump = false → errors e e
  signals_self : ∀ loc, signals loc loc
  lacks_ordinary : ∀ {symbol}, lacks symbol → symbol.name ∉ intrinsicNames

namespace Pairing

theorem equal_errors_self {e : RuntimeError} (_ : e.isJump = false) : e = e := rfl

theorem equal_signals_self (loc : Location) : loc = loc := rfl

theorem no_lacks_ordinary {symbol : Symbol} (h : False) : symbol.name ∉ intrinsicNames := h.elim

variable (P : Pairing)

abbrev Values : Value → Value → Prop := Value.Alike P.matching

abbrev Local : Bindings → Bindings → Prop := List.Forall₂ (Symbol.Alike P.matching)

abbrev Global : Bindings → Bindings → Prop := Bindings.Alike P.matching P.reorders P.lacks

def Sees (kinds : List Frame.Kind) : Prop := Sealed P.hidden₁ P.hidden₂ kinds

/-- The places where no name leads to a hidden frame, and none is bound in a spare one. -/
def Inside (kinds : List Frame.Kind) : Prop := P.Sees kinds ∧ (P.spare = true → kinds ≠ [])

def Notes : Prop := ∀ {fs gs} failure, P.noted fs gs → P.noted (fs ++ [failure]) (gs ++ [failure])

/-- The bounds that the two runs may have: the same if both may be cut short, or a smaller one for
the first if it may be cut short alone. -/
def Bounds (bound bound' : Nat) : Prop := (P.cuts ∧ bound = bound') ∨ (P.lags ∧ bound ≤ bound')

variable {P} {bound bound' : Nat}

theorem inside (hfirst : P.hidden₁ = []) (hsecond : P.hidden₂ = []) (hspare : P.spare = false)
    (kinds : List Frame.Kind) : P.Inside kinds :=
  ⟨.inr ⟨hfirst, hsecond⟩, fun h => by rw [hspare] at h; cases h⟩

theorem inside_cons {kinds : List Frame.Kind} (kind : Frame.Kind) (h : P.Sees (kind :: kinds)) :
    P.Inside (kind :: kinds) :=
  ⟨h, fun _ => cons_ne_nil kind kinds⟩

theorem notes_of_eq (h : P.noted = Eq) : P.Notes := by
  intro fs gs failure hnoted
  rw [h] at hnoted ⊢
  rw [hnoted]

theorem Bounds.refl (h : P.cuts) (bound : Nat) : P.Bounds bound bound := .inl ⟨h, rfl⟩

theorem Bounds.zero (h : P.Bounds 0 bound') : (P.cuts ∧ bound' = 0) ∨ P.lags :=
  h.imp (And.imp_right Eq.symm) And.left

theorem Bounds.succ (h : P.Bounds (bound + 1) bound') :
    ∃ less, bound' = less + 1 ∧ P.Bounds bound less := by
  obtain ⟨hcuts, rfl⟩ | ⟨hlags, hle⟩ := h
  · exact ⟨bound, rfl, .refl hcuts bound⟩
  · exact ⟨bound' - 1, by omega, .inr ⟨hlags, by omega⟩⟩

end Pairing

def Anywhere (_ : List Frame.Kind) : Prop := True

/-- Machines that are alike, with frames of the given kinds above the hidden ones. -/
structure Machine.Alike (P : Pairing) (kinds : List Frame.Kind) (m n : Machine) : Prop where
  scopes : Scopes.Alike P.Local P.Global P.hidden₁ P.hidden₂ P.spare kinds m.scopes n.scopes
  heap : List.Forall₂ (Instance.Alike P.matching) m.heap.toList n.heap.toList
  sessions : Table.Alike (Session.Alike P.matching) m.sessions n.sessions
  statics : m.statics = n.statics
  records : Table.Alike (fun a b => a = b ∧ P.types a) m.records n.records
  events : m.events = P.shown ++ n.events
  input : m.input = n.input
  capacity : m.capacity = n.capacity
  failures : P.noted m.failures n.failures
  depth : m.depth = n.depth
  around : P.around m.baseDir m.linked n.baseDir n.linked
  signal : P.signals m.signal n.signal

theorem Machine.alike_reset {P : Pairing} (hfirst : P.hidden₁ = []) (hsecond : P.hidden₂ = [])
    (hspare : P.spare = false) (hshown : P.shown = #[]) (hnoted : P.noted [] []) (m : Machine)
    (haround : P.around m.baseDir [] m.baseDir []) : Machine.Alike P [] m.reset m.reset where
  scopes := by
    rw [hfirst, hsecond, hspare]
    exact ⟨.hidden, .nil⟩
  heap := .nil
  sessions := .nil
  statics := rfl
  records := .nil
  events := by rw [hshown, Array.empty_append]
  input := rfl
  capacity := rfl
  failures := hnoted
  depth := rfl
  around := haround
  signal := P.signals_self _

/-! ## Outcomes and steps -/

/-- Two outcomes, of which the first is a failure for want of a name, or the second is a failure of
another kind. -/
inductive Outcome.Parted {α β : Type} (name : String) : Outcome α → Outcome β → Prop where
  | first {e m q} (missing : e.undefined? = some name) : Parted name (.failed e m) q
  | second {p e n} (other : e.undefined? = none) : Parted name p (.failed e n)

/-- Outcomes that are related. -/
inductive Outcome.Alike {α β : Type} (P : Pairing) (kinds : List Frame.Kind) (A : α → β → Prop)
    (E : α → RuntimeError → Prop) : Outcome α → Outcome β → Prop where
  | done {a b m n} (result : A a b) (machines : Machine.Alike P kinds m n) :
      Alike P kinds A E (.done a m) (.done b n)
  | failed {e f m n} (error : P.errors e f) (machines : Machine.Alike P kinds m n) :
      Alike P kinds A E (.failed e m) (.failed f n)
  | escaped {a e m n} (escape : E a e) (machines : Machine.Alike P kinds m n) :
      Alike P kinds A E (.done a m) (.failed e n)
  | exhausted (cuts : P.cuts) : Alike P kinds A E .exhausted .exhausted
  | lagging {q} (lags : P.lags) : Alike P kinds A E .exhausted q
  | parted {p q symbol} (lacked : P.lacks symbol) (parted : Outcome.Parted symbol.name p q) :
      Alike P kinds A E p q

/-- Steps that have related outcomes on alike machines, wherever `K` holds of the frames. Results
are related by `A`, and `E` says which results of the first step may stand beside a failure of the
second. -/
def Simulates {α β : Type} (P : Pairing) (K : List Frame.Kind → Prop) (A : α → β → Prop)
    (E : α → RuntimeError → Prop) (x : Exec α) (y : Exec β) : Prop :=
  ∀ kinds, K kinds → ∀ m n, Machine.Alike P kinds m n → Outcome.Alike P kinds A E (x m) (y n)

abbrev Never {α : Type} (_ : α) (_ : RuntimeError) : Prop := False

/-- Steps that have related outcomes, none of them on its way out. -/
abbrev Sim {α β : Type} (P : Pairing) (K : List Frame.Kind → Prop) (A : α → β → Prop) (x : Exec α)
    (y : Exec β) : Prop :=
  Simulates P K A Never x y

instance : LawfulMonad Exec :=
  LawfulMonad.mk' Exec (fun x => by
      funext m
      simp only [Functor.map, Exec.bind]
      cases x m <;> rfl)
    (fun _ _ => rfl)
    (fun x _ _ => by
      funext m
      simp only [Bind.bind, Exec.bind]
      cases x m <;> rfl)

namespace Simulates

variable {P : Pairing} {K K' : List Frame.Kind → Prop} {α β γ δ : Type} {A : α → β → Prop}
  {E : α → RuntimeError → Prop} {B : γ → δ → Prop} {F : γ → RuntimeError → Prop} {x : Exec α}
  {y : Exec β}

/-! ## Rules -/

theorem pure {a : α} {b : β} (h : A a b) : Simulates P K A E (Pure.pure a) (Pure.pure b) :=
  fun _ _ _ _ hm => .done h hm

theorem exhausted (h : P.cuts) : Simulates P K A E exhausted exhausted :=
  fun _ _ _ _ _ => .exhausted h

theorem lagging (h : P.lags) : Simulates P K A E Exec.exhausted y :=
  fun _ _ _ _ _ => .lagging h

variable {cause : RuntimeError.Cause} {loc : Location}

theorem lacking {symbol : Symbol} (h : P.lacks symbol)
    (hname : (RuntimeError.raised cause loc).undefined? = some symbol.name) :
    Simulates P K A E (fail cause loc) y :=
  fun _ _ _ _ _ => .parted h (.first hname)

theorem failing {symbol : Symbol} (h : P.lacks symbol)
    (hother : (RuntimeError.raised cause loc).undefined? = none) :
    Simulates P K A E x (fail cause loc) :=
  fun _ _ _ _ _ => .parted h (.second hother)

theorem throw {e f : RuntimeError} (h : P.errors e f) :
    Simulates P K A E (Exec.throw e) (Exec.throw f) :=
  fun _ _ _ _ hm => .failed h hm

theorem fail (h : (RuntimeError.raised cause loc).isJump = false) :
    Simulates P K A E (fail cause loc) (fail cause loc) :=
  throw (P.errors_self h)

theorem ofExcept {a : Attempt α} {b : Attempt β} (h : Attempt.Alike A a b) :
    Simulates P K A E (ofExcept a) (ofExcept b) := by
  cases h with
  | ok h => exact pure h
  | error e he => exact throw (P.errors_self he)

theorem mono (h : Simulates P K A E x y) (hK : ∀ kinds, K' kinds → K kinds) :
    Simulates P K' A E x y :=
  fun kinds hk => h kinds (hK kinds hk)

theorem inside (h : Simulates P P.Sees A E x y) : Simulates P P.Inside A E x y :=
  h.mono fun _ hk => hk.1

theorem anywhere (h : Simulates P Anywhere A E x y) : Simulates P K A E x y :=
  h.mono fun _ _ => trivial

/-- What becomes of a result on its way out: the next step passes it on, or turns it into an error,
and does nothing else. -/
def Passes (P : Pairing) (F : γ → RuntimeError → Prop) (e : RuntimeError) (x : Exec γ) : Prop :=
  ∀ m, (∃ c, x m = .done c m ∧ F c e) ∨ ∃ e', x m = .failed e' m ∧ P.errors e' e

theorem bindEscape {f : α → Exec γ} {g : β → Exec δ} (hxy : Simulates P K A E x y)
    (hfg : ∀ a b, A a b → Simulates P K B F (f a) (g b)) (hE : ∀ a e, E a e → Passes P F e (f a)) :
    Simulates P K B F (x >>= f) (y >>= g) := by
  intro kinds hk m n hm
  have h := hxy kinds hk m n hm
  simp only [Bind.bind, Exec.bind]
  generalize x m = p at h ⊢
  generalize y n = q at h ⊢
  cases h with
  | done result machines => exact hfg _ _ result kinds hk _ _ machines
  | failed error machines => exact .failed error machines
  | @escaped a e m n escape machines =>
    simp only
    obtain ⟨c, hc, hF⟩ | ⟨e', he', herror⟩ := hE a e escape m
    · rw [hc]
      exact .escaped hF machines
    · rw [he']
      exact .failed herror machines
  | exhausted cuts => exact .exhausted cuts
  | lagging lags => exact .lagging lags
  | parted lacked parted =>
    refine .parted lacked ?_
    cases parted with
    | first missing => exact .first missing
    | second other => exact .second other

theorem bind {f : α → Exec γ} {g : β → Exec δ} (hxy : Sim P K A x y)
    (hfg : ∀ a b, A a b → Simulates P K B F (f a) (g b)) :
    Simulates P K B F (x >>= f) (y >>= g) :=
  hxy.bindEscape hfg fun _ _ h => h.elim

theorem machine {f : Machine → Exec α} {g : Machine → Exec β}
    (h : ∀ kinds m n, K kinds → Machine.Alike P kinds m n → Simulates P K A E (f m) (g n)) :
    Simulates P K A E (machine >>= f) (machine >>= g) :=
  fun kinds hk m n hm => h kinds m n hk hm kinds hk m n hm

theorem update {f g : Machine → Machine} {E : Unit → RuntimeError → Prop}
    (h : ∀ kinds m n, K kinds → Machine.Alike P kinds m n → Machine.Alike P kinds (f m) (g n)) :
    Simulates P K Eq E (update f) (update g) :=
  fun kinds hk m n hm => .done rfl (h kinds m n hk hm)

theorem between {before after before' after' : Machine → Machine} (h : Simulates P K' A E x y)
    (hbefore : ∀ kinds m n, K kinds → Machine.Alike P kinds m n → ∃ kinds', K' kinds' ∧
      Machine.Alike P kinds' (before m) (before' n) ∧
      ∀ m n, Machine.Alike P kinds' m n → Machine.Alike P kinds (after m) (after' n)) :
    Simulates P K A E (Exec.between before after x) (Exec.between before' after' y) := by
  intro kinds hk m n hm
  obtain ⟨kinds', hk', hm', hafter⟩ := hbefore kinds m n hk hm
  have hxy := h kinds' hk' _ _ hm'
  unfold Exec.between
  generalize x (before m) = p at hxy ⊢
  generalize y (before' n) = q at hxy ⊢
  cases hxy with
  | done result machines => exact .done result (hafter _ _ machines)
  | failed error machines => exact .failed error (hafter _ _ machines)
  | escaped escape machines => exact .escaped escape (hafter _ _ machines)
  | exhausted cuts => exact .exhausted cuts
  | lagging lags => exact .lagging lags
  | parted lacked parted =>
    refine .parted lacked ?_
    cases parted with
    | first missing => exact .first missing
    | second other => exact .second other

theorem inFrame (kind : Frame.Kind) (h : Simulates P K' A E x y)
    (hK : ∀ kinds, K kinds → K' (kind :: kinds)) :
    Simulates P K A E (inFrame kind x) (inFrame kind y) :=
  h.between fun kinds _ _ hk hm =>
    ⟨kind :: kinds, hK kinds hk, { hm with scopes := hm.scopes.enter .nil kind },
      fun _ _ hm => { hm with scopes := hm.scopes.exit }⟩

theorem inCall (h : Simulates P P.Inside A E x y) :
    Simulates P K A E (Exec.inFrame .call x) (Exec.inFrame .call y) :=
  h.inFrame .call fun kinds _ => Pairing.inside_cons .call (Sealed.call kinds)

theorem inBlock (h : Simulates P P.Inside A E x y) :
    Simulates P P.Sees A E (Exec.inFrame .block x) (Exec.inFrame .block y) :=
  h.inFrame .block fun _ hk => Pairing.inside_cons .block (hk.cons .block)

theorem deeper (h : Simulates P K A E x y) : Simulates P K A E (deeper x) (deeper y) :=
  h.between fun kinds _ _ hk hm =>
    ⟨kinds, hk, { hm with depth := congrArg (· + 1) hm.depth },
      fun _ _ hm => { hm with depth := congrArg (· - 1) hm.depth }⟩

theorem inDirectory
    (haround : ∀ {dir linked dir' linked'}, P.around dir linked dir' linked' ↔ dir = dir' ∧
      linked = linked')
    (dir : String) (h : Simulates P K A E x y) :
    Simulates P K A E (Exec.inDirectory dir x) (Exec.inDirectory dir y) := by
  intro kinds hk m n hm
  have hdir := (haround.1 hm.around).1
  unfold Exec.inDirectory
  refine h.between (fun kinds _ _ hk hm' => ⟨kinds, hk, ?_, ?_⟩) kinds hk m n hm
  · exact { hm' with around := haround.2 ⟨rfl, (haround.1 hm'.around).2⟩ }
  · exact fun _ _ hm' => { hm' with around := haround.2 ⟨hdir, (haround.1 hm'.around).2⟩ }

/-! ## Lists -/

section

variable {σ τ : Type} {R : σ → τ → Prop} {xs : List σ} {ys : List τ}

theorem mapM {f : σ → Exec α} {g : σ → Exec β} (hfg : ∀ s, Sim P K A (f s) (g s)) (xs : List σ) :
    Sim P K (List.Forall₂ A) (xs.mapM f) (xs.mapM g) := by
  induction xs with
  | nil => exact pure .nil
  | cons s _ ih =>
    rw [mapM_cons, mapM_cons]
    exact (hfg s).bind fun _ _ ha => ih.bind fun _ _ has => pure (.cons ha has)

theorem foldlM {f : α → σ → Exec α} {g : β → τ → Exec β} (hlist : List.Forall₂ R xs ys)
    (hfg : ∀ a b, A a b → ∀ s t, R s t → Sim P K A (f a s) (g b t)) {a : α} {b : β} (hab : A a b) :
    Sim P K A (xs.foldlM f a) (ys.foldlM g b) := by
  induction hlist generalizing a b with
  | nil => exact pure hab
  | cons hst _ ih =>
    rw [foldlM_cons, foldlM_cons]
    exact (hfg a b hab _ _ hst).bind fun _ _ h => ih h

theorem forM_of_forall₂ {f : σ → Exec Unit} {g : τ → Exec Unit} (hlist : List.Forall₂ R xs ys)
    (hfg : ∀ s t, R s t → Sim P K Eq (f s) (g t)) : Sim P K Eq (xs.forM f) (ys.forM g) := by
  induction hlist with
  | nil => exact pure rfl
  | cons hst _ ih => exact (hfg _ _ hst).bind fun _ _ _ => ih

theorem forM {f g : σ → Exec Unit} (hfg : ∀ s ∈ xs, Sim P K Eq (f s) (g s)) :
    Sim P K Eq (xs.forM f) (xs.forM g) :=
  forM_of_forall₂ (forall₂_same.2 hfg) fun _ _ h => h

end

/-! ## The machine -/

theorem resolve? (name : String) :
    Sim P P.Sees (Symbol.Found P.matching P.lacks name) (resolve? name) (resolve? name) :=
  machine fun _ _ _ hk hm =>
    pure (hm.scopes.resolve? (Bindings.alike_find? Symbol.Alike.name · name) .both
      (hm.scopes.globals.find? name) hk)

theorem define {a b : Symbol} (h : Symbol.Alike P.matching a b) (loc : Location) :
    Sim P P.Inside Eq (Exec.define a loc) (Exec.define b loc) := by
  intro kinds hk m n hm
  have hdefine (hglobal : kinds = [] →
      Option.Rel P.Global (Bindings.add? m.scopes.globals a) (Bindings.add? n.scopes.globals b)) :
      Outcome.Alike P kinds Eq Never (Exec.define a loc m) (Exec.define b loc n) := by
    simp only [Exec.define, Bind.bind, Exec.bind, Exec.machine]
    obtain ⟨ha, hb⟩ | ⟨_, _, ha, hb, hscopes⟩ := relates_or_none
      (hm.scopes.define? (Bindings.alike_add? Symbol.Alike.name · h) hglobal hk.1 hk.2) <;>
        rw [ha, hb]
    · rw [h.name]
      exact .failed (P.errors_self rfl) hm
    · exact .done rfl { hm with scopes := hscopes }
  by_cases hkinds : kinds = []
  · subst hkinds
    obtain ⟨symbol, hlacks, htaken⟩ | hadd := hm.scopes.globals.add? h
    · have hspare : P.spare = false := Bool.eq_false_iff.2 fun h => hk.2 h rfl
      have hframes : n.scopes.frames = [] := (hm.scopes.frames.eq_hidden hspare).2.trans hk.1.nil.2
      have hnone : n.scopes.define? b = none := by
        unfold Scopes.define?
        rw [hframes]
        simp only [htaken, Option.map_none]
      refine .parted hlacks ?_
      simp only [Exec.define, Bind.bind, Exec.bind, Exec.machine, hnone]
      exact .second rfl
    · exact hdefine fun _ => hadd
  · exact hdefine fun h => absurd h hkinds

theorem allocate {a b : Instance} (h : Instance.Alike P.matching a b) :
    Sim P K Eq (allocate a) (allocate b) := by
  intro kinds _ m n hm
  have hsize : m.heap.size = n.heap.size := hm.heap.length_eq
  have hheap : List.Forall₂ (Instance.Alike P.matching) (m.heap.push a).toList
      (n.heap.push b).toList := by
    simpa only [Array.toList_push] using rel_append hm.heap (.cons h .nil)
  exact .done (by rw [hsize, h.name]) { hm with heap := hheap }

theorem object (ref : SessionRef) :
    Sim P K (Instance.Alike P.matching) (object ref) (object ref) := by
  refine machine fun _ m n _ hm => pure ?_
  simp only [← Array.getElem?_toList]
  have h := hm.heap
  generalize m.heap.toList = as at h ⊢
  generalize n.heap.toList = bs at h ⊢
  generalize ref.id = i
  induction h generalizing i with
  | nil => exact .empty ref.name
  | cons hab _ ih =>
    cases i with
    | zero => exact hab
    | succ i => exact ih i

theorem setObject (ref : SessionRef) {a b : Instance} (h : Instance.Alike P.matching a b) :
    Sim P K Eq (setObject ref a) (setObject ref b) := by
  refine update fun _ m n _ hm => { hm with heap := ?_ }
  simp only [Array.toList_setIfInBounds]
  have hheap := hm.heap
  generalize m.heap.toList = as at hheap ⊢
  generalize n.heap.toList = bs at hheap ⊢
  generalize ref.id = i
  induction hheap generalizing i with
  | nil => exact .nil
  | cons first rest ih =>
    cases i with
    | zero => exact .cons h rest
    | succ i => exact .cons first (ih i)

theorem writeLine (text : String) : Sim P K Eq (writeLine text) (writeLine text) := by
  refine machine fun _ m n _ hm => ?_
  rw [hm.capacity]
  match n.capacity with
  | none =>
    exact update fun _ _ _ _ hm => { hm with events := by simp only [hm.events, Array.push_append] }
  | some 0 => exact throw (P.errors_self rfl)
  | some (left + 1) =>
    exact update fun _ _ _ _ hm =>
      { hm with events := by simp only [hm.events, Array.push_append], capacity := rfl }

theorem readLine (prompt : String) : Sim P K Eq (readLine prompt) (readLine prompt) := by
  refine bind (update fun _ _ _ _ hm =>
    { hm with events := by rw [hm.events, Array.push_append] }) fun _ _ _ => ?_
  refine machine fun _ m n _ hm => ?_
  rw [hm.input]
  cases n.input with
  | nil => exact pure rfl
  | cons line rest =>
    exact bind (update fun _ _ _ _ hm => { hm with input := rfl }) fun _ _ _ => pure rfl

end Simulates

end Trance
