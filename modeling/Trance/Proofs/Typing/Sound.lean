import Trance.Proofs.Typing.Accepted

/-!
# Well typed statements do not go wrong

While a well typed statement runs, the scopes of the run have the frames and the names of the scopes
that it was typed with, and every variable holds a value of its type. So no operation meets a value
that it cannot work with: a run can only fail because of a division by zero, or because output
cannot be written.
-/

namespace Trance

open Option

/-! ## Variables hold values of their types -/

/-- A variable of a static type, and the same variable in a run. -/
structure Symbol.Holds (static dynamic : Symbol) : Prop where
  name : static.name = dynamic.name
  kind : dynamic.kind = .variable
  typed : ∃ t value, static.IsVariable t ∧ dynamic.value = some value ∧ t.Has value

theorem Symbol.Holds.has {static dynamic : Symbol} {t : Ty} (h : static.Holds dynamic)
    (ht : static.IsVariable t) : ∃ value, dynamic.value = some value ∧ t.Has value := by
  obtain ⟨s, value, hs, hvalue, hhas⟩ := h.typed
  have hname : s.name = t.name := Option.some.inj (hs.typeName.symm.trans ht.typeName)
  obtain rfl := Ty.name_injective hs.isBasic ht.isBasic hname
  exact ⟨value, hvalue, hhas⟩

/-- Bindings that hold values of their types, each name bound once. -/
structure Bindings.Hold (static dynamic : Bindings) : Prop where
  holds : List.Forall₂ Symbol.Holds static dynamic
  distinct : (static.map Symbol.name).Nodup

theorem Bindings.update_id (bindings : Bindings) (name : String) :
    bindings.update name id = bindings := by
  simp only [update, id_eq, ite_self, List.map_id']

namespace Bindings.Hold

variable {static dynamic : Bindings} (h : Bindings.Hold static dynamic)

theorem nil : Bindings.Hold [] [] := ⟨.nil, .nil⟩

include h

theorem find? (name : String) :
    Option.Rel Symbol.Holds (Bindings.find? static name) (Bindings.find? dynamic name) :=
  alike_find? Symbol.Holds.name h.holds name

theorem has (name : String) : Bindings.has static name = Bindings.has dynamic name :=
  alike_has Symbol.Holds.name h.holds name

theorem add? {a b : Symbol} (hab : a.Holds b) :
    Option.Rel Bindings.Hold (Bindings.add? static a) (Bindings.add? dynamic b) := by
  obtain ⟨ha, hb⟩ | ⟨_, _, ha, hb, hholds⟩ :=
    relates_or_none (alike_add? Symbol.Holds.name h.holds hab) <;>
    rw [ha, hb]
  · exact .none
  · exact .some ⟨hholds, nodup_add? ha h.distinct⟩

theorem update {name : String} {symbol : Symbol} {t : Ty} {value : Value}
    (hfound : Bindings.find? static name = some symbol) (ht : symbol.IsVariable t) (hvalue :
    t.Has value) :
    Bindings.Hold (Bindings.update static name id)
      (Bindings.update dynamic name fun symbol => { symbol with value := some value }) := by
  refine ⟨alike_update Symbol.Holds.name h.holds name fun other hother dynamic hholds hname => ?_,
    (update_id static name).symm ▸ h.distinct⟩
  -- no other variable of the frame has the name
  have hsymbol : symbol ∈ static := List.mem_of_find?_eq_some hfound
  have hsymbolName : symbol.name = name := by simpa using List.find?_some hfound
  obtain rfl : other = symbol :=
    List.inj_on_of_nodup_map h.distinct hother hsymbol (hname.trans hsymbolName.symm)
  exact ⟨hholds.name, hholds.kind, t, value, ht, rfl, hvalue⟩

end Bindings.Hold

/-- Scopes of a run that hold values of the types of static scopes. -/
abbrev Scopes.Hold (kinds : List Frame.Kind) (Γ scopes : Scopes) : Prop :=
  Scopes.Alike Bindings.Hold Bindings.Hold [] [] false kinds Γ scopes

theorem Scopes.update?_id {Γ : Scopes} {name : String} {symbol : Symbol}
    (h : Γ.resolve? name = some symbol) : Γ.update? name id = some Γ := by
  obtain ⟨frames, globals⟩ := Γ
  simp only [resolve?, update?] at h ⊢
  induction frames with
  | nil =>
    have hfound : Bindings.has globals name = true := isSome_of_mem h
    simp only [updateIn, hfound, if_true, Bindings.update_id]
  | cons frame below ih =>
    simp only [resolveIn] at h
    cases hfind : frame.bindings.find? name with
    | some found =>
      have hfound : frame.bindings.has name = true := isSome_of_mem hfind
      simp only [updateIn, hfound, if_true, Bindings.update_id]
    | none =>
      have hmissing : frame.bindings.has name = false := isSome_eq_false_iff.2 (hfind ▸ rfl)
      rw [hfind] at h
      cases hkind : frame.kind with
      | call =>
        simp only [hkind] at h
        have hfound : Bindings.has globals name = true := isSome_of_mem h
        simp only [updateIn, hmissing, Bool.false_eq_true, if_false, hkind, hfound, if_true,
          Bindings.update_id]
      | block =>
        simp only [hkind] at h
        simp only [updateIn, hmissing, Bool.false_eq_true, if_false, hkind, ih h, map_some]

namespace Scopes.Hold

variable {kinds : List Frame.Kind} {Γ Γ' scopes : Scopes} {name : String} {t : Ty} {value : Value}

theorem nothingHidden (kinds : List Frame.Kind) : Sealed [] [] kinds := .inr ⟨rfl, rfl⟩

theorem resolve? (h : Scopes.Hold kinds Γ scopes) (name : String) :
    Option.Rel Symbol.Holds (Γ.resolve? name) (scopes.resolve? name) :=
  Alike.resolve? (·.find? name) .some (h.globals.find? name) h (nothingHidden kinds)

theorem declare? (h : Scopes.Hold kinds Γ scopes) (hdeclare : Γ.declare? name t = some Γ')
    (hvalue : t.Has value) (typeName : Option String) :
    ∃ scopes', scopes.define? ⟨name, .variable, typeName, some value⟩ = some scopes' ∧
      Scopes.Hold kinds Γ' scopes' := by
  have hholds : Symbol.Holds ⟨name, .variable, some t.name, none⟩
    ⟨name, .variable, typeName, some value⟩ :=
    ⟨rfl, rfl, t, value, ⟨rfl, rfl, hvalue.isBasic⟩, rfl, hvalue⟩
  obtain ⟨ha, hb⟩ | ⟨_, scopes', ha, hb, hscopes⟩ :=
    relates_or_none (Alike.define? (·.add? hholds) (fun _ => h.globals.add? hholds) h
      (nothingHidden kinds) nofun)
  · exact nomatch hdeclare.symm.trans ha
  · obtain rfl := Option.some.inj (hdeclare.symm.trans ha)
    exact ⟨scopes', hb, hscopes⟩

theorem assign? (h : Scopes.Hold kinds Γ scopes) {symbol : Symbol}
    (hfound : Γ.resolve? name = some symbol) (ht : symbol.IsVariable t) (hvalue : t.Has value) :
    ∃ scopes', scopes.assign? name value = some scopes' ∧ Scopes.Hold kinds Γ scopes' := by
  have hassign : Option.Rel (Scopes.Hold kinds) (Γ.update? name id) (scopes.assign? name value) :=
    Alike.update? (·.has name) h (nothingHidden kinds)
      (fun hbindings _ hfind => hbindings.update (hfind.trans hfound) ht hvalue)
      fun hfind => ⟨h.globals.has name, fun _ => h.globals.update (hfind.trans hfound) ht hvalue⟩
  rw [update?_id hfound] at hassign
  obtain ⟨ha, hb⟩ | ⟨_, scopes', ha, hb, hscopes⟩ := relates_or_none hassign
  · exact nomatch ha
  · obtain rfl := Option.some.inj ha
    exact ⟨scopes', hb, hscopes⟩

end Scopes.Hold

/-! ## Steps -/

/-- The errors that types do not rule out: a division by zero, and output that cannot be written. -/
def RuntimeError.isTolerated : RuntimeError → Bool
  | raised .divisionByZero _ | output _ => true
  | raised .. | panicked => false

/-- A step is done and leaves variables of the right types, or it has failed with a tolerated error,
or was cut short. -/
inductive Outcome.Fits {α : Type} (kinds : List Frame.Kind) (Q : α → Scopes → Prop) : Outcome α →
  Prop where
  | done {a m Γ} (result : Q a Γ) (scopes : Scopes.Hold kinds Γ m.scopes) : Fits kinds Q (.done a m)
  | failed {e m} (error : e.isTolerated = true) : Fits kinds Q (.failed e m)
  | exhausted : Fits kinds Q .exhausted

namespace Exec

variable {α β : Type} {Γ : Scopes} {x : Exec α} {P : α → Scopes → Prop} {Q : β → Scopes → Prop}

/-- What holds of the result and the scopes after a step that starts with variables of the right
types, unless it fails with a tolerated error. -/
def Yields (Γ : Scopes) (x : Exec α) (Q : α → Scopes → Prop) : Prop :=
  ∀ kinds m, Scopes.Hold kinds Γ m.scopes → Outcome.Fits kinds Q (x m)

namespace Yields

theorem pure {a : α} (h : P a Γ) : Yields Γ (Pure.pure a) P :=
  fun _ _ hm => .done h hm

theorem exhausted : Yields Γ Exec.exhausted P :=
  fun _ _ _ => .exhausted

theorem throw {e : RuntimeError} (h : e.isTolerated = true) : Yields Γ (Exec.throw e) P :=
  fun _ _ _ => .failed h

theorem bind {f : α → Exec β} (hx : Yields Γ x P) (hf : ∀ a Γ', P a Γ' → Yields Γ' (f a) Q) :
    Yields Γ (x >>= f) Q := by
  intro kinds m hm
  have hfits := hx kinds m hm
  simp only [Bind.bind, Exec.bind]
  generalize x m = outcome at hfits ⊢
  cases hfits with
  | done result scopes => exact hf _ _ result kinds _ scopes
  | failed error => exact .failed error
  | exhausted => exact .exhausted

theorem consequence {P' : α → Scopes → Prop} (hx : Yields Γ x P) (h : ∀ a Γ', P a Γ' → P' a Γ') :
    Yields Γ x P' := by
  intro kinds m hm
  have hfits := hx kinds m hm
  generalize x m = outcome at hfits ⊢
  cases hfits with
  | done result scopes => exact .done (h _ _ result) scopes
  | failed error => exact .failed error
  | exhausted => exact .exhausted

theorem machine {f : Machine → Exec α}
    (h : ∀ kinds m, Scopes.Hold kinds Γ m.scopes → Yields Γ (f m) P) : Yields Γ
    (Exec.machine >>= f) P :=
  fun kinds m hm => h kinds m hm kinds m hm

theorem update {change : Machine → Machine} (h : ∀ m, (change m).scopes = m.scopes) :
    Yields Γ (Exec.update change) fun _ Γ' => Γ' = Γ :=
  fun _ m hm => .done rfl (h m ▸ hm)

theorem inFrame {Q : α → Scopes → Prop} (hx : Yields (Γ.enter .block) x P)
    (hexit : ∀ a inner, P a inner → Q a inner.exit) : Yields Γ (Exec.inFrame .block x) Q := by
  intro kinds m hm
  have hfits := hx (.block :: kinds) { m with scopes := m.scopes.enter .block }
    (hm.enter .nil .block)
  unfold Exec.inFrame Exec.between
  generalize x { m with scopes := m.scopes.enter .block } = outcome at hfits ⊢
  cases hfits with
  | done result scopes => exact .done (hexit _ _ result) scopes.exit
  | failed error => exact .failed error
  | exhausted => exact .exhausted

end Yields

/-! ## Operators -/

end Exec

theorem Ty.Has.exists_number {t : Ty} {value : Value} (h : t.Has value) (ht : t.isNumeric = true) :
    ∃ n, value = .number n := by
  cases h with
  | number n | int n => exact ⟨n, rfl⟩
  | text | boolean => exact nomatch ht

theorem Ty.has_arithmeticType {s : Ty} (op : BinaryOp) (hs : s.isBasic = true) (t : Ty)
    (n : Float) : (Check.arithmeticType op s t).Has (.number n) := by
  unfold Check.arithmeticType
  split
  · split
    · exact .number n
    · exact .int n
  · exact nomatch hs
  · exact .number n

namespace Exec

section

variable {s t u : Ty} {l r : Value} {loc : Location} {Γ : Scopes}

theorem yields_onNumbers {f : Float → Float → Attempt Value} {Q : Value → Scopes → Prop}
    (hl : s.Has l) (hr : t.Has r) (hnumeric : (s.isNumeric && t.isNumeric) = true)
    (hf : ∀ a b, Yields Γ (ofExcept (f a b)) Q) :
    Yields Γ (ofExcept (BinaryOp.onNumbers l r loc f)) Q := by
  obtain ⟨hs, ht⟩ := Bool.and_eq_true_iff.1 hnumeric
  obtain ⟨a, rfl⟩ := hl.exists_number hs
  obtain ⟨b, rfl⟩ := hr.exists_number ht
  exact hf a b

theorem yields_divide {f : Float → Float → Float} (hs : s.isBasic = true) (op : BinaryOp)
    (a b : Float) : Yields Γ (ofExcept (BinaryOp.divide f loc a b)) fun value Γ' =>
      (Check.arithmeticType op s t).Has value ∧ Γ' = Γ := by
  unfold BinaryOp.divide
  split
  · exact .throw rfl
  · exact .pure ⟨Ty.has_arithmeticType op hs t _, rfl⟩

theorem add_text (hl : s.Has l) (hr : t.Has r) (h : s = .text ∨ t = .text) :
    BinaryOp.apply .add l r loc = .ok (.text (l.toText ++ r.toText)) := by
  obtain rfl | rfl := h
  · cases hl
    rfl
  · cases hr
    cases hl <;> rfl

theorem add_numbers (hl : s.Has l) (hr : t.Has r) (h : s ≠ .text ∧ t ≠ .text) :
    BinaryOp.apply .add l r loc = BinaryOp.onNumbers l r loc fun a b => .ok (.number (a + b)) := by
  cases hl with
  | text => exact absurd rfl h.1
  | number | int | boolean => cases hr with
    | text => exact absurd rfl h.2
    | number | int | boolean => rfl

/-- **An operation on operands of the right types has a value of its type, or divides by zero.** -/
theorem yields_binary (op : BinaryOp) (hl : s.Has l) (hr : t.Has r) (htype : op.type? s t = some u) :
    Yields Γ (ofExcept (op.apply l r loc)) fun value Γ' => u.Has value ∧ Γ' = Γ := by
  have harithmetic : ∀ {f : Float → Float → Attempt Value},
      (∀ a b, Yields Γ (ofExcept (f a b)) fun value Γ' => (Check.arithmeticType op s t).Has value ∧
      Γ' = Γ) →
      (if s.isNumeric && t.isNumeric then some (Check.arithmeticType op s t) else none) = some u →
      Yields Γ (ofExcept (BinaryOp.onNumbers l r loc f)) fun value Γ' => u.Has value ∧ Γ' = Γ := by
    intro f hf htype
    obtain ⟨hnumeric, hu⟩ := ite_none_right_eq_some.1 htype
    cases hu
    exact yields_onNumbers hl hr hnumeric hf
  have hcomparison : ∀ f : Float → Float → Bool,
      (if s.isNumeric && t.isNumeric then some Ty.boolean else none) = some u →
      Yields Γ (ofExcept (BinaryOp.onNumbers l r loc fun a b =>
        .ok (.boolean (f a b)))) fun value Γ' =>
        u.Has value ∧ Γ' = Γ := by
    intro f htype
    obtain ⟨hnumeric, hu⟩ := ite_none_right_eq_some.1 htype
    cases hu
    exact yields_onNumbers hl hr hnumeric fun _ _ => .pure ⟨.boolean _, rfl⟩
  have hnumber : ∀ n : Float, Yields Γ (ofExcept (.ok (.number n))) fun value Γ' =>
      (Check.arithmeticType op s t).Has value ∧ Γ' = Γ :=
    fun n => .pure ⟨Ty.has_arithmeticType op hl.isBasic t n, rfl⟩
  cases op with
  | add =>
    simp only [BinaryOp.type?] at htype
    split at htype
    · rename_i htext
      cases htype
      rw [add_text hl hr (by simpa using htext)]
      exact .pure ⟨.text _, rfl⟩
    · rename_i htext
      rw [add_numbers hl hr (by simpa using htext)]
      exact harithmetic (fun _ _ => hnumber _) htype
  | sub | mul => exact harithmetic (fun _ _ => hnumber _) htype
  | div | mod => exact harithmetic (yields_divide hl.isBasic _) htype
  | eq | ne =>
    cases htype
    exact .pure ⟨.boolean _, rfl⟩
  | lt | le | gt | ge => exact hcomparison _ htype
  | conj | disj =>
    obtain ⟨-, hu⟩ := ite_none_right_eq_some.1 htype
    cases hu
    exact .pure ⟨.boolean _, rfl⟩

theorem yields_unary (op : UnaryOp) (hl : s.Has l) (htype : op.type? s = some t) :
    Yields Γ (ofExcept (op.apply l loc)) fun value Γ' => t.Has value ∧ Γ' = Γ := by
  have hnumber : ∀ f : Float → Float, (if s.isNumeric then some s else none) = some t →
      ∃ n, l = .number n ∧ t.Has (.number (f n)) := by
    intro f htype
    obtain ⟨hnumeric, hs⟩ := ite_none_right_eq_some.1 htype
    cases hs
    obtain ⟨n, rfl⟩ := hl.exists_number hnumeric
    refine ⟨n, rfl, ?_⟩
    cases hl with
    | number => exact .number _
    | int => exact .int _
  cases op with
  | not =>
    obtain ⟨-, ht⟩ := ite_none_right_eq_some.1 htype
    cases ht
    exact .pure ⟨.boolean _, rfl⟩
  | neg =>
    obtain ⟨n, rfl, hn⟩ := hnumber (- ·) htype
    exact .pure ⟨hn, rfl⟩
  | plus =>
    obtain ⟨n, rfl, hn⟩ := hnumber id htype
    exact .pure ⟨hn, rfl⟩

end

/-! ## Expressions -/

section

variable {Γ : Scopes} {name : String} {symbol : Symbol} {t : Ty}

theorem yields_nameValue (hfound : Γ.resolve? name = some symbol) (ht : symbol.IsVariable t)
    (loc : Location) : Yields Γ (nameValue name loc) fun value Γ' => t.Has value ∧ Γ' = Γ := by
  intro kinds m hm
  obtain ⟨ha, -⟩ | ⟨_, dynamic, ha, hb, hholds⟩ := relates_or_none (hm.resolve? name)
  · exact nomatch hfound.symm.trans ha
  obtain rfl := Option.some.inj (hfound.symm.trans ha)
  obtain ⟨value, hvalue, hhas⟩ := hholds.has ht
  have hrun : nameValue name loc m = .done value m := by
    simp only [nameValue, resolve?, machine, Bind.bind, Exec.bind, Pure.pure, Exec.pure, hb, hvalue]
  rw [hrun]
  exact .done ⟨hhas, rfl⟩ hm

theorem yields_assign (hfound : Γ.resolve? name = some symbol) (ht : symbol.IsVariable t)
    {value : Value} (hvalue : t.Has value) (eval : Expr → Exec Value) (nameLoc loc : Location) :
    Yields Γ (assign eval (.name name nameLoc) value loc) fun _ Γ' => Γ' = Γ := by
  intro kinds m hm
  obtain ⟨ha, -⟩ | ⟨_, dynamic, ha, hb, hholds⟩ := relates_or_none (hm.resolve? name)
  · exact nomatch hfound.symm.trans ha
  obtain ⟨scopes, hassign, hscopes⟩ := hm.assign? hfound ht hvalue
  have hrun : assign eval (.name name nameLoc) value loc m = .done () { m with scopes } := by
    simp [assign, place, modifyPlace, modifyVariable, Value.modifyAt, resolve?, machine, update,
      ofExcept, Bind.bind, Exec.bind, Pure.pure, Exec.pure, hb, hholds.kind, hassign]
  rw [hrun]
  exact .done rfl hscopes

/-- **An expression has a value of its type**, unless its evaluation divides by zero or is cut
short. -/
theorem yields_eval (cfg : Settings) (bound : Nat) {expr : Expr} (h : expr.HasType Γ t) :
    Yields Γ (eval cfg bound expr) fun value Γ' => t.Has value ∧ Γ' = Γ := by
  induction bound generalizing expr t with
  | zero => exact .exhausted
  | succ bound ih =>
    cases h with
    | number => exact .pure ⟨.number _, rfl⟩
    | text => exact .pure ⟨.text _, rfl⟩
    | boolean => exact .pure ⟨.boolean _, rfl⟩
    | name found isVariable => exact yields_nameValue found isVariable _
    | @binary op left right loc _ _ _ leftType rightType type =>
      have hboth : Yields Γ (do
          let l ← eval cfg bound left
          let r ← eval cfg bound right
          ofExcept (op.apply l r loc)) fun value Γ' => t.Has value ∧ Γ' = Γ := by
        refine .bind (ih leftType) ?_
        rintro l _ ⟨hl, rfl⟩
        refine .bind (ih rightType) ?_
        rintro r _ ⟨hr, rfl⟩
        exact yields_binary op hl hr type
      -- the second operand of a logical operator may be left out
      have hsecond : Yields Γ (do return .boolean (← eval cfg bound right).truthy) fun value Γ' =>
          Ty.boolean.Has value ∧ Γ' = Γ := by
        refine .bind (ih rightType) ?_
        rintro value _ ⟨-, rfl⟩
        exact .pure ⟨.boolean _, rfl⟩
      cases op with
      | conj =>
        obtain ⟨-, ht⟩ := ite_none_right_eq_some.1 type
        cases ht
        refine .bind (ih leftType) ?_
        rintro l _ ⟨-, rfl⟩
        split
        · exact hsecond
        · exact .pure ⟨.boolean _, rfl⟩
      | disj =>
        obtain ⟨-, ht⟩ := ite_none_right_eq_some.1 type
        cases ht
        refine .bind (ih leftType) ?_
        rintro l _ ⟨-, rfl⟩
        split
        · exact .pure ⟨.boolean _, rfl⟩
        · exact hsecond
      | _ => exact hboth
    | unary operandType type =>
      refine .bind (ih operandType) ?_
      rintro value _ ⟨hvalue, rfl⟩
      exact yields_unary _ hvalue type
    | assign valueType found isVariable fits =>
      refine .bind (ih valueType) ?_
      rintro value _ ⟨hvalue, rfl⟩
      refine .bind (yields_assign found isVariable
        (hvalue.of_compatible isVariable.isBasic fits) _ _ _) ?_
      rintro _ _ rfl
      exact .pure ⟨hvalue, rfl⟩

end

end Exec

/-! ## Statements -/

/-- The ways in which a statement of the core can end, in a loop or not. -/
def Flow.isAllowed (loops : Bool) : Flow → Bool
  | normal | awaken _ => true
  | snap _ | sink _ => loops
  | jump .. => false

namespace Exec

section

variable {Γ Γ' : Scopes} {loops : Bool} {exec : Stmt → Exec Flow}

theorem yields_define {name : String} {t : Ty} {value : Value}
    (hdeclare : Γ.declare? name t = some Γ')
    (hvalue : t.Has value) (typeName : Option String) (loc : Location) :
    Yields Γ (define ⟨name, .variable, typeName, some value⟩ loc) fun _ Γ₁ => Γ₁ = Γ' := by
  intro kinds m hm
  obtain ⟨scopes, hdefine, hscopes⟩ := hm.declare? hdeclare hvalue typeName
  have hrun : define ⟨name, .variable, typeName, some value⟩ loc m = .done () { m with scopes } := by
    simp only [define, machine, update, Bind.bind, Exec.bind, hdefine]
  rw [hrun]
  exact .done rfl hscopes

theorem yields_writeLine (text : String) : Yields Γ (writeLine text) fun _ Γ' => Γ' = Γ := by
  refine .machine fun _ m _ => ?_
  cases m.capacity with
  | none => exact .update fun _ => rfl
  | some left =>
    cases left with
    | zero => exact .throw rfl
    | succ left => exact .update fun _ => rfl

theorem yields_checkAssertion (holds : Bool) (message : Option String) (loc : Location) :
    Yields Γ (checkAssertion holds message loc) fun _ Γ' => Γ' = Γ := by
  cases holds with
  | true => exact .pure rfl
  | false => exact .update fun _ => rfl

theorem yields_makeJump {flow : Flow} {Q : Flow → Scopes → Prop} (hflow : Q flow Γ)
    (loc : Location) : Yields Γ (makeJump flow loc) Q := by
  refine .bind (.update fun m => rfl) ?_
  rintro _ _ rfl
  exact .pure hflow

theorem yields_sequence (left : List Stmt → Scopes → Prop) {all : List Stmt}
    (hstep : ∀ first rest Γ, left (first :: rest) Γ → Yields Γ (exec first) fun flow Γ' =>
      flow.isAllowed loops = true ∧ left rest Γ')
    (bound : Nat) {rest : List Stmt} (h : left rest Γ) :
    Yields Γ (sequence exec all bound rest) fun flow Γ' =>
      flow.isAllowed loops = true ∧ ∃ rest, left rest Γ' := by
  induction bound generalizing rest Γ with
  | zero => exact .exhausted
  | succ bound ih =>
    cases rest with
    | nil => exact .pure ⟨rfl, [], h⟩
    | cons first rest =>
      refine .bind (hstep first rest Γ h) ?_
      rintro flow Γ₁ ⟨hflow, hrest⟩
      cases flow with
      | normal => exact ih hrest
      | jump => exact nomatch hflow
      | snap | sink | awaken => exact .pure ⟨hflow, rest, hrest⟩

theorem yields_block (hexec : ∀ {Γ Γ' : Scopes} {s : Stmt}, s.Typed loops Γ Γ' →
      Yields Γ (exec s) fun flow Γ₁ => flow.isAllowed loops = true ∧ Γ₁ = Γ')
    (bound : Nat) {body : List Stmt} (h : ListTyped loops (Γ.enter .block) body Γ') :
    Yields Γ (block exec bound body) fun flow Γ₁ => flow.isAllowed loops = true ∧ Γ₁ = Γ := by
  let left (rest : List Stmt) (inner : Scopes) : Prop := Γ.Over inner ∧
    ∃ final, ListTyped loops inner rest final
  have hbody : Yields (Γ.enter .block) (sequence exec body bound body) fun flow inner =>
      flow.isAllowed loops = true ∧ ∃ rest, left rest inner := by
    refine yields_sequence left ?_ bound ⟨Γ.over_enter, Γ', h⟩
    rintro first rest inner ⟨hover, final, htyped⟩
    cases htyped with
    | cons hfirst hrest =>
      refine (hexec hfirst).consequence ?_
      rintro flow _ ⟨hflow, rfl⟩
      exact ⟨hflow, hfirst.over hover, final, hrest⟩
  refine .inFrame hbody ?_
  rintro flow inner ⟨hflow, rest, hover, -⟩
  exact ⟨hflow, hover.exit⟩

theorem yields_iterate {cond : Exec Bool} {body : Exec Flow} {step : Exec Unit}
    (hcond : Yields Γ cond fun _ Γ' => Γ' = Γ)
    (hbody : Yields Γ body fun flow Γ' => flow.isAllowed true = true ∧ Γ' = Γ)
    (hstep : Yields Γ step fun _ Γ' => Γ' = Γ) (bound : Nat) :
    Yields Γ (iterate cond body step bound) fun flow Γ' => flow.isAllowed loops = true ∧ Γ' = Γ := by
  induction bound with
  | zero => exact .exhausted
  | succ bound ih =>
    refine .bind hcond ?_
    rintro holds _ rfl
    cases holds with
    | false => exact .pure ⟨rfl, rfl⟩
    | true =>
      refine .bind hbody ?_
      rintro flow _ ⟨hflow, rfl⟩
      cases flow with
      | normal | sink =>
        refine .bind hstep ?_
        rintro _ _ rfl
        exact ih
      | snap | awaken => exact .pure ⟨rfl, rfl⟩
      | jump => exact nomatch hflow

end

section

variable {Γ Γ' : Scopes} {loops : Bool} (cfg : Settings) (bound : Nat)

theorem yields_holds {cond : Option Expr} (h : ∀ expr ∈ cond, ∃ t, expr.HasType Γ t) :
    Yields Γ (holds (eval cfg bound) cond) fun _ Γ' => Γ' = Γ := by
  cases cond with
  | none => exact .pure rfl
  | some cond =>
    obtain ⟨t, ht⟩ := h cond rfl
    refine .bind (yields_eval cfg bound ht) ?_
    rintro value _ ⟨-, rfl⟩
    exact .pure rfl

theorem yields_perform {step : Option Expr} (h : ∀ expr ∈ step, ∃ t, expr.HasType Γ t) :
    Yields Γ (perform (eval cfg bound) step) fun _ Γ' => Γ' = Γ := by
  cases step with
  | none => exact .pure rfl
  | some step =>
    obtain ⟨t, ht⟩ := h step rfl
    refine .bind (yields_eval cfg bound ht) ?_
    rintro value _ ⟨-, rfl⟩
    exact .pure rfl

/-- **A well typed statement leaves variables of the right types**, unless it divides by zero,
cannot write its output, or is cut short. -/
theorem yields_exec {s : Stmt} (h : s.Typed loops Γ Γ') :
    Yields Γ (exec cfg bound s) fun flow Γ₁ => flow.isAllowed loops = true ∧ Γ₁ = Γ' := by
  induction bound generalizing s loops Γ Γ' with
  | zero => exact .exhausted
  | succ bound ih =>
    cases h with
    | @induce _ _ _ decl _ _ _ start initType _ isBasic fits declares =>
      have hinduce : Yields Γ (induce (eval cfg bound) decl) fun _ Γ₁ => Γ₁ = Γ' := by
        unfold induce
        rw [start]
        refine .bind (yields_eval cfg bound initType) ?_
        rintro value _ ⟨hvalue, rfl⟩
        exact yields_define declares (hvalue.of_compatible isBasic fits) decl.typeName decl.location
      refine .bind hinduce ?_
      rintro _ _ rfl
      exact .pure ⟨rfl, rfl⟩
    | branch condType yesTyped noTyped =>
      refine .bind (yields_eval cfg bound condType) ?_
      rintro value _ ⟨-, rfl⟩
      split
      · exact yields_block ih bound yesTyped
      · cases noTyped with
        | none => exact .pure ⟨rfl, rfl⟩
        | some bodyTyped => exact yields_block ih bound bodyTyped
    | whileLoop condType bodyTyped =>
      refine yields_iterate (yields_holds cfg bound ?_) (yields_block ih bound bodyTyped)
        (.pure rfl) bound
      rintro _ ⟨⟩
      exact ⟨_, condType⟩
    | @loop _ _ Γ₁ _ init cond step body loc initTyped condTyped stepTyped bodyTyped =>
      have hover : Γ.Over Γ₁ := initTyped.over Γ.over_enter
      have hrounds : Yields Γ₁ (iterate (holds (eval cfg bound) cond)
          (block (Exec.exec cfg bound) bound body) (perform (eval cfg bound) step) bound)
          fun flow Γ' => flow.isAllowed loops = true ∧ Γ' = Γ₁ :=
        yields_iterate (yields_holds cfg bound condTyped) (yields_block ih bound bodyTyped)
          (yields_perform cfg bound stepTyped) bound
      have hexit : ∀ (flow : Flow) (inner : Scopes), flow.isAllowed loops = true ∧ inner = Γ₁ →
          flow.isAllowed loops = true ∧ inner.exit = Γ := by
        rintro flow _ ⟨hflow, rfl⟩
        exact ⟨hflow, hover.exit⟩
      cases initTyped with
      | none => exact .inFrame hrounds hexit
      | some initTyped =>
        refine .inFrame (.bind (ih initTyped) ?_) hexit
        rintro flow _ ⟨hflow, rfl⟩
        cases flow with
        | normal => exact hrounds
        | snap | sink | jump | awaken => exact .pure ⟨hflow, rfl⟩
    | observe type =>
      refine .bind (yields_eval cfg bound type) ?_
      rintro value _ ⟨-, rfl⟩
      refine .bind (yields_writeLine _) ?_
      rintro _ _ rfl
      exact .pure ⟨rfl, rfl⟩
    | expr type =>
      refine .bind (yields_eval cfg bound type) ?_
      rintro value _ ⟨-, rfl⟩
      exact .pure ⟨rfl, rfl⟩
    | assert type =>
      refine .bind (yields_eval cfg bound type) ?_
      rintro value _ ⟨-, rfl⟩
      refine .bind (yields_checkAssertion _ _ _) ?_
      rintro _ _ rfl
      exact .pure ⟨rfl, rfl⟩
    | @awaken _ _ value _ typed =>
      cases value with
      | none => exact .pure ⟨rfl, rfl⟩
      | some value =>
        obtain ⟨t, ht⟩ := typed value rfl
        refine .bind (yields_eval cfg bound ht) ?_
        rintro value _ ⟨-, rfl⟩
        exact .pure ⟨rfl, rfl⟩
    | snap | sink => exact yields_makeJump ⟨rfl, rfl⟩ _
    | entrance bodyTyped => exact yields_block ih bound bodyTyped

end

end Exec

end Trance
