import Trance.Proofs.Running.Confined

/-!
# Names bound earlier or later

What a run does depends on what global names stand for, and not on the order in which they have been
bound. So two runs of the same code, on machines that differ only in this order, come to machines
that differ only in this order.

If one of the machines lacks a name that the other one has, its run fails for want of the name, or
it does the same as the other run. An expression that only looks names up has the same value
wherever it finds the same names. -/

namespace Trance

open List

variable {ok : Stmt → Prop} {m m' n k : Machine}

/-! ## Another order -/

/-- The machine `n` is the machine `m`, but that its global names may have been bound in another
order, and that it may be in another place. -/
structure Machine.Reordered (m n : Machine) : Prop where
  eq : n = { m with
    scopes := ⟨m.scopes.frames, n.scopes.globals⟩
    baseDir := n.baseDir
    linked := n.linked }
  find? : ∀ name, n.scopes.globals.find? name = m.scopes.globals.find? name

theorem Machine.Alike.eq_but_globals {P : Pairing} (hP : P.Confines ok) (hshown : P.shown = #[])
    (hhidden : P.hidden₁ = P.hidden₂) (hspare : P.spare = false) (hsignals : P.signals = Eq)
    (h : Machine.Alike P [] m n) :
    n = { m with
      scopes := ⟨m.scopes.frames, n.scopes.globals⟩
      baseDir := n.baseDir
      linked := n.linked } := by
  obtain ⟨hframes, hframes'⟩ := h.scopes.frames.eq_hidden hspare
  have hsignal : m.signal = n.signal := hsignals ▸ h.signal
  rw [h.eq_of_confines hP, hsignal]
  show n = { n with scopes := ⟨m.scopes.frames, n.scopes.globals⟩, events := P.shown ++ n.events }
  rw [hframes, hhidden, ← hframes', hshown, Array.empty_append]

namespace Machine.Reordered

theorem refl (m : Machine) : m.Reordered m := ⟨rfl, fun _ => rfl⟩

theorem trans (h : m.Reordered n) (h' : n.Reordered k) : m.Reordered k := by
  refine ⟨?_, fun name => (h'.find? name).trans (h.find? name)⟩
  conv_lhs => rw [h'.eq, h.eq]

theorem placed (m : Machine) (dir : String) (linked : List FileKey) :
    m.Reordered (m.placed dir linked) :=
  ⟨rfl, fun _ => rfl⟩

theorem frames (h : m.Reordered n) : n.scopes.frames = m.scopes.frames := by rw [h.eq]

theorem alike (h : m.Reordered n) (hm : m.Confined ok []) :
    Machine.Alike (.confined ok (fun _ _ _ _ => True) True True) [] m n := by
  have hglobals : (Pairing.confined ok (fun _ _ _ _ =>
      True) True True).Global m.scopes.globals n.scopes.globals :=
    .inr ⟨trivial, fun name => h.find? name ▸ hm.scopes.globals.find? name⟩
  have hframes : Frames.Alike (Pairing.confined ok (fun _ _ _ _ => True) True True).Local []
      [] false [] m.scopes.frames n.scopes.frames := by
    rw [h.frames, hm.frames_eq_nil]
    exact .hidden
  rw [h.eq] at hglobals hframes ⊢
  exact { hm with scopes := ⟨hframes, hglobals⟩, around := trivial }

end Machine.Reordered

/-- Outcomes on machines that differ only in the order of names and in their place. -/
inductive Outcome.Reordered : Outcome Unit → Outcome Unit → Prop where
  | done {m n : Machine} (machines : m.Reordered n) : Reordered (.done () m) (.done () n)
  | failed {e} {m n : Machine} (machines : m.Reordered n) : Reordered (.failed e m) (.failed e n)
  | exhausted : Reordered .exhausted .exhausted

/-- **A step that is placeless does the same with names in another order.** -/
theorem Exec.Placeless.reordered {x : Exec Unit} (hlinks : ∀ path loc, ¬ok (.mindLink path loc))
    (hx : x.Placeless ok) (hm : m.Confined ok []) (h : m.Reordered n) : (x m).Reordered (x n) := by
  have hP : (Pairing.confined ok (fun _ _ _ _ => True) True True).Confines ok := .confined hlinks
  have hreordered : ∀ {m n}, Machine.Alike (.confined ok (fun _ _ _ _ => True) True True) [] m n →
      m.Reordered n := by
    intro m n hmn
    refine ⟨hmn.eq_but_globals hP rfl rfl rfl rfl, fun name => ?_⟩
    have hname := hmn.scopes.globals.find? name
    generalize m.scopes.globals.find? name = a at hname ⊢
    generalize n.scopes.globals.find? name = b at hname ⊢
    cases hname with
    | neither => rfl
    | both symbols => rw [symbols.eq hP.eq_of_rel]
    | lacking lacked => exact lacked.elim
  have hout := hx (fun _ _ _ _ => True) True [] Pairing.inside_confined m n (h.alike hm)
  generalize x m = p at hout ⊢
  generalize x n = q at hout ⊢
  cases hout with
  | done _ machines => exact .done (hreordered machines)
  | failed error machines => rw [show _ = _ from error]; exact .failed (hreordered machines)
  | escaped escape => exact escape.elim
  | exhausted => exact .exhausted
  | lagging lags => exact lags.elim
  | parted lacked => exact lacked.elim

/-! ## A name that is lacking -/

/-- Runs of code of one kind, wherever they take place, the first of which lacks a symbol. -/
def Pairing.lacking (ok : Stmt → Prop) (symbol : Symbol) (h : symbol.name ∉ intrinsicNames) :
    Pairing :=
  { Pairing.confined ok (fun _ _ _ _ => True) True True with
    lacks := (· = symbol)
    lacks_ordinary := fun hlacks => hlacks ▸ h }

section

variable {symbol : Symbol} {hordinary : symbol.name ∉ intrinsicNames}

theorem Pairing.Confines.lacking (hlinks : ∀ path loc, ¬ok (.mindLink path loc)) :
    (Pairing.lacking ok symbol hordinary).Confines ok :=
  ⟨.rfl, .rfl, rfl, rfl, .inl hlinks⟩

def Machine.binding (symbol : Symbol) (m : Machine) : Machine :=
  { m with scopes := { m.scopes with globals := m.scopes.globals ++ [symbol] } }

theorem Machine.find?_binding (symbol : Symbol) (m : Machine) (name : String) :
    (m.binding symbol).scopes.globals.find? name =
      (m.scopes.globals.find? name).or (if symbol.name = name then some symbol else none) := by
  simp only [binding, Bindings.find?, List.find?_append, List.find?_singleton, beq_iff_eq]

theorem Machine.Confined.alike_binding (hm : m.Confined ok [])
    (hfree : m.scopes.globals.find? symbol.name = none) :
    Machine.Alike (.lacking ok symbol hordinary) [] m (m.binding symbol) := by
  refine { hm with scopes := ⟨hm.scopes.frames, .inr ⟨trivial, fun name => ?_⟩⟩, around := trivial }
  rw [m.find?_binding]
  by_cases hname : symbol.name = name
  · subst hname
    rw [hfree, if_pos rfl]
    exact .lacking rfl rfl
  · rw [if_neg hname, Option.or_none]
    have hfound := hm.scopes.globals.find? name
    generalize m.scopes.globals.find? name = a at hfound ⊢
    cases hfound with
    | neither => exact .neither
    | both symbols => exact .both symbols

theorem Machine.Alike.reordered_binding (hlinks : ∀ path loc, ¬ok (.mindLink path loc))
    (h : Machine.Alike (.lacking ok symbol hordinary) [] m n)
    (hbound : n.scopes.globals.find? symbol.name ≠ none) : n.Reordered (m.binding symbol) := by
  have hP : (Pairing.lacking ok symbol hordinary).Confines ok := .lacking hlinks
  refine ⟨?_, fun name => ?_⟩
  · conv_rhs => rw [h.eq_but_globals hP rfl rfl rfl rfl]
    rfl
  · have hname := h.scopes.globals.find? name
    rw [m.find?_binding]
    generalize m.scopes.globals.find? name = a at hname ⊢
    generalize hfound : n.scopes.globals.find? name = b at hname ⊢
    cases hname with
    | neither =>
      rw [if_neg]
      · rfl
      · rintro rfl
        exact hbound hfound
    | both symbols => rw [symbols.eq hP.eq_of_rel, Option.some_or]
    | lacking lacked named =>
      obtain rfl : _ = symbol := lacked
      rw [if_pos named, Option.none_or]

end

/-! ## Expressions that only look names up -/

/-- Whether an expression is a literal, an operation, or a `good` name. -/
def Expr.LooksUp (good : String → Prop) : Expr → Prop
  | .number .. | .text .. | .boolean .. | .binary .. | .unary .. | .index .. | .array .. => True
  | .name word _ => good word
  | .call .. | .field .. | .assign .. | .record .. => False

/-- Expressions that are made of literals, operations and `good` names. -/
abbrev Expr.Simple (good : String → Prop) (e : Expr) : Prop := e.Every (Expr.LooksUp good)

/-- Machines with the same frames, on which every `good` name has the same global symbol. -/
structure Machine.Shares (good : String → Prop) (m n : Machine) : Prop where
  frames : n.scopes.frames = m.scopes.frames
  globals : ∀ name, good name → n.scopes.globals.find? name = m.scopes.globals.find? name

namespace Machine.Shares

variable {good : String → Prop}

theorem refl (m : Machine) : m.Shares good m := ⟨rfl, fun _ _ => rfl⟩

theorem push (h : m.Shares good n) (kind : Frame.Kind) : (m.push kind).Shares good (n.push kind) :=
  ⟨congrArg (List.cons _) h.frames, h.globals⟩

theorem resolve? (h : m.Shares good n) {name : String} (hname : good name) :
    n.scopes.resolve? name = m.scopes.resolve? name := by
  unfold Scopes.resolve?
  rw [h.frames]
  induction m.scopes.frames with
  | nil => exact h.globals name hname
  | cons frame below ih => simp only [Scopes.resolveIn, ih, h.globals name hname]

end Machine.Shares

namespace Exec

variable {α β σ : Type} {good : String → Prop}

/-- Steps that look only at what `good` names stand for, and leave the machine alone. -/
def Looks (good : String → Prop) (x : Exec α) : Prop :=
  ∀ m n, m.Shares good n → x n = (x m).mapMachine fun _ => n

namespace Looks

theorem pure (a : α) : Looks good (Pure.pure a) := fun _ _ _ => rfl

theorem fail (cause : RuntimeError.Cause) (loc : Location) :
    Looks good (Exec.fail cause loc : Exec α) :=
  fun _ _ _ => rfl

theorem ofExcept (a : Attempt α) : Looks good (Exec.ofExcept a) := by
  cases a with
  | ok a => exact pure a
  | error e => exact fun _ _ _ => rfl

theorem bind {x : Exec α} {f : α → Exec β} (hx : Looks good x) (hf : ∀ a, Looks good (f a)) :
    Looks good (x >>= f) := by
  intro m n hmn
  have hself := hx m m (.refl m)
  have hother := hx m n hmn
  simp only [Bind.bind, Exec.bind, hother]
  cases hrun : x m with
  | done a m₁ =>
    rw [hrun] at hself
    obtain rfl : m₁ = m := by injection hself
    exact hf a m₁ n hmn
  | failed | exhausted => rfl

theorem inFrame (kind : Frame.Kind) {x : Exec α} (hx : Looks good x) :
    Looks good (Exec.inFrame kind x) := by
  intro m n hmn
  have hrun : ∀ k, Exec.inFrame kind x k = (x (k.push kind)).mapMachine Machine.pop :=
    between_eq _ _ x
  rw [hrun, hrun, hx _ _ (hmn.push kind), Outcome.mapMachine_mapMachine,
    Outcome.mapMachine_mapMachine]
  rfl

theorem mapM {f : σ → Exec α} {xs : List σ} (h : ∀ s ∈ xs, Looks good (f s)) :
    Looks good (xs.mapM f) := by
  induction xs with
  | nil => exact pure []
  | cons s rest ih =>
    obtain ⟨hs, hrest⟩ := forall_mem_cons.1 h
    rw [mapM_cons]
    exact hs.bind fun a => (ih hrest).bind fun as => pure (a :: as)

theorem foldlM {f : α → σ → Exec α} {xs : List σ} (h : ∀ a, ∀ s ∈ xs, Looks good (f a s)) (a : α) :
    Looks good (xs.foldlM f a) := by
  induction xs generalizing a with
  | nil => exact pure a
  | cons s rest ih =>
    rw [foldlM_cons]
    exact (h a s mem_cons_self).bind fun b => ih (fun a s hs => h a s (mem_cons_of_mem _ hs)) b

theorem resolve? {name : String} (hname : good name) : Looks good (Exec.resolve? name) := by
  intro m n hmn
  show Outcome.done (n.scopes.resolve? name) n = .done (m.scopes.resolve? name) n
  rw [hmn.resolve? hname]

theorem nameValue {name : String} (hname : good name) (loc : Location) :
    Looks good (Exec.nameValue name loc) := by
  refine (resolve? hname).bind fun found => ?_
  cases found with
  | none => exact fail _ loc
  | some symbol =>
    obtain ⟨_, kind, _, value⟩ := symbol
    cases value with
    | some value => exact pure value
    | none =>
      cases kind with
      | record => exact fail _ loc
      | _ => exact pure Value.null

/-- **The evaluation of a simple expression looks only at names.** -/
theorem eval (cfg : Settings) (bound : Nat) {e : Expr} (h : e.Simple good) :
    Looks good (Exec.eval cfg bound e) := by
  induction e using Expr.induction_children generalizing bound with
  | h e ih =>
    cases bound with
    | zero => exact fun _ _ _ => rfl
    | succ bound =>
      have hinside : ∀ child ∈ e.children, Looks good (Exec.eval cfg bound child) :=
        fun child hchild => ih child hchild bound (h.inside child hchild)
      have hhere := h.here
      cases e with
      | number | text | boolean => exact pure _
      | name name loc => exact nameValue hhere loc
      | binary op left right loc =>
        have hleft := hinside left mem_cons_self
        have hright := hinside right (mem_cons_of_mem _ mem_cons_self)
        cases op with
        | conj =>
          refine hleft.bind fun value => ?_
          split
          · exact hright.bind fun _ => pure _
          · exact pure _
        | disj =>
          refine hleft.bind fun value => ?_
          split
          · exact pure _
          · exact hright.bind fun _ => pure _
        | _ => exact hleft.bind fun l => hright.bind fun r => ofExcept _
      | unary op operand loc => exact (hinside operand mem_cons_self).bind fun _ => ofExcept _
      | index object position loc =>
        exact (hinside object mem_cons_self).bind fun _ =>
          (hinside position (mem_cons_of_mem _ mem_cons_self)).bind fun _ => ofExcept _
      | array items loc => exact (mapM hinside).bind fun _ => pure _
      | call | field | assign | record => exact hhere.elim

end Looks

end Exec

end Trance
