import Trance.Proofs.Checking.Growth
import Trance.Proofs.Typing.Core

/-!
# What the checker accepts is well typed

A check that reports no error has found the types of the type system: of an expression it gives the
type, and of a statement it leaves the scopes that the rules lead to.
-/

namespace Trance

open List Option

/-! ## Scopes -/

namespace Scopes

variable {Γ Γ' : Scopes} {symbol : Symbol}

theorem resolve?_define? (h : Γ.define? symbol = some Γ') (name : String) :
    Γ'.resolve? name = if symbol.name = name then some symbol else Γ.resolve? name := by
  obtain ⟨frames, globals⟩ := Γ
  cases frames with
  | nil =>
    obtain ⟨globals', hadd, rfl⟩ := map_eq_some_iff.1 h
    exact Bindings.find?_add? hadd name
  | cons frame below =>
    obtain ⟨bindings', hadd, rfl⟩ := map_eq_some_iff.1 h
    simp only [resolve?, resolveIn, Bindings.find?_add? hadd name]
    by_cases hname : symbol.name = name
    · simp only [hname, if_true]
    · simp only [hname, if_false]

def OnlyVariables (Γ : Scopes) : Prop :=
  ∀ name symbol, Γ.resolve? name = some symbol → ∃ t, symbol.IsVariable t

theorem OnlyVariables.enter (h : Γ.OnlyVariables) : (Γ.enter .block).OnlyVariables := h

theorem OnlyVariables.declare? (h : Γ.OnlyVariables) {name : String} {t : Ty}
    (ht : t.isBasic = true) (hdeclare : Γ.declare? name t = some Γ') : Γ'.OnlyVariables := by
  intro other symbol hfound
  rw [resolve?_define? hdeclare] at hfound
  split at hfound
  · exact ⟨t, Option.some.inj hfound ▸ ⟨rfl, rfl, ht⟩⟩
  · exact h other symbol hfound

def Over (Γ Γ' : Scopes) : Prop := ∃ bindings,
      Γ' = { Γ with frames := ⟨.block, bindings⟩ :: Γ.frames }

theorem Over.exit (h : Γ.Over Γ') : Γ'.exit = Γ := by
  obtain ⟨_, rfl⟩ := h
  rfl

theorem over_enter (Γ : Scopes) : Γ.Over (Γ.enter .block) := ⟨[], rfl⟩

theorem Over.define? {below : Scopes} (h : below.Over Γ) (hdefine : Γ.define? symbol = some Γ') :
    below.Over Γ' := by
  obtain ⟨bindings, rfl⟩ := h
  obtain ⟨bindings', -, rfl⟩ := map_eq_some_iff.1 hdefine
  exact ⟨bindings', rfl⟩

end Scopes

def Loop.isCore (loop : Loop) : Bool :=
  loop.cond.all Expr.isCore && loop.step.all Expr.isCore && listIsCore loop.body

/-! ## What statements declare -/

section

variable {loops : Bool} {Γ Γ' below : Scopes}

theorem Stmt.Typed.over {stmt : Stmt} (h : stmt.Typed loops Γ Γ') (hover : below.Over Γ) :
    below.Over Γ' := by
  cases h with
  | induce _ _ _ _ _ declares => exact hover.define? declares
  | _ => exact hover

theorem InitTyped.over {init : Option Stmt} (h : InitTyped loops Γ init Γ') (hover : below.Over Γ) :
    below.Over Γ' := by
  cases h with
  | none => exact hover
  | some initTyped => exact initTyped.over hover

theorem ListTyped.over {body : List Stmt} (h : ListTyped loops Γ body Γ') (hover : below.Over Γ) :
    below.Over Γ' := by
  induction body generalizing Γ with
  | nil =>
    cases h
    exact hover
  | cons first rest ih =>
    cases h with
    | cons hfirst hrest => exact ih hrest (hfirst.over hover)

theorem Stmt.Typed.onlyVariables {stmt : Stmt} (h : stmt.Typed loops Γ Γ') (hΓ : Γ.OnlyVariables) :
    Γ'.OnlyVariables := by
  cases h with
  | induce _ _ _ isBasic _ declares => exact hΓ.declare? isBasic declares
  | _ => exact hΓ

end

namespace Check

variable {α β : Type} {loops : Bool} {Γ : Scopes} {x : Check α}

/-! ## Steps without errors -/

/-- What holds of the result and the scopes after a step, if it starts with some scopes, in a loop
or not, and no error has been reported when it ends. -/
def Accepts (loops : Bool) (Γ : Scopes) (x : Check α) (Q : α → Scopes → Prop) : Prop :=
  ∀ c : Checker, c.scopes = Γ → (decide (c.context.loops ≠ 0)) = loops →
    (x.run c).2.report.errors = [] → Q (x.run c).1 (x.run c).2.scopes

namespace Accepts

variable {P : α → Scopes → Prop} {Q : β → Scopes → Prop}

theorem pure {a : α} (h : P a Γ) : Accepts loops Γ (Pure.pure a) P := by
  rintro c rfl - -
  exact h

theorem bind {y : α → Check β} [Growing x] [∀ a, Growing (y a)] (hx : Accepts loops Γ x P)
    (hy : ∀ a Γ', P a Γ' → Accepts loops Γ' (y a) Q) : Accepts loops Γ (x >>= y) Q := by
  intro c hc hloops herrors
  have hsecond := grows (y (x.run c).1) (x.run c).2
  have hnone : (x.run c).2.report.errors = [] := prefix_nil.1 (herrors ▸ hsecond.errors)
  have hinside : decide ((x.run c).2.context.loops ≠ 0) = loops := by
    rw [(grows x c).context, hloops]
  exact hy _ _ (hx c hc hloops hnone) _ rfl hinside herrors

theorem consequence {P' : α → Scopes → Prop} (hx : Accepts loops Γ x P)
    (h : ∀ a Γ', P a Γ' → P' a Γ') : Accepts loops Γ x P' :=
  fun c hc hloops herrors => h _ _ (hx c hc hloops herrors)

theorem get {y : Checker → Check β}
    (hy : ∀ c : Checker, c.scopes = Γ → decide (c.context.loops ≠ 0) = loops → Accepts loops Γ
    (y c) Q) :
    Accepts loops Γ (MonadState.get >>= y) Q :=
  fun c hc hloops => hy c hc hloops c hc hloops

variable {finding : Finding}

theorem report (h : finding.code.severity = .error) (loc : Location) {P : Unit → Scopes → Prop} :
    Accepts loops Γ (Check.report finding loc) P := by
  intro c _ _ herrors
  have hadded : (c.report.add (finding.diagnose loc)).errors = [] := herrors
  simp [Report.add, Diagnostic.severity, Finding.diagnose, h] at hadded

theorem refuse (h : finding.code.severity = .error) (loc : Location) (b : β) :
    Accepts loops Γ (do Check.report finding loc; return b) Q :=
  fun c hc hloops herrors => (report (P := fun _ _ => False) h loc c hc hloops herrors).elim

theorem reportIf {cond : Bool} (h : finding.code.severity = .error) (loc : Location) :
    Accepts loops Γ (Check.reportIf cond finding loc) fun _ Γ' => cond = false ∧ Γ' = Γ := by
  unfold Check.reportIf
  cases cond with
  | true => exact report h loc
  | false => exact pure ⟨rfl, rfl⟩

theorem note (cond : Bool) (finding : Finding) (loc : Location) :
    Accepts loops Γ (Check.reportIf cond finding loc) fun _ Γ' => Γ' = Γ := by
  rintro c rfl - -
  unfold Check.reportIf
  split <;> rfl

theorem inFrame (kind : Frame.Kind) (hx : Accepts loops (Γ.enter kind) x P) :
    Accepts loops Γ (Check.inFrame kind x) fun a Γ' => ∃ inner, P a inner ∧ Γ' = inner.exit :=
  fun c hc hloops herrors => ⟨_, hx { c with scopes := c.scopes.enter kind }
  (by rw [hc]) hloops herrors, rfl⟩

theorem inContext {inside : Bool} {enter : Context → Context} (leave : Context → Context → Context)
    (henter : ∀ context : Context, decide (context.loops ≠ 0) = loops →
      decide ((enter context).loops ≠ 0) = inside) (hx : Accepts inside Γ x P) :
    Accepts loops Γ (Check.inContext enter leave x) P :=
  fun c hc hloops herrors => hx { c with context := enter c.context } hc (henter _ hloops) herrors

end Accepts

/-! ## Expressions -/

variable {name : String} {t s : Ty}

theorem accepts_typeNamed (h : Ty.builtin? name = some t) :
    Accepts loops Γ (typeNamed name) fun type Γ' => type = t ∧ Γ' = Γ := by
  intro c hc _ _
  have hrun : (typeNamed name).run c = (t, c) := by
    simp only [typeNamed, lookupType, h]
    rfl
  rw [hrun]
  exact ⟨rfl, hc⟩

theorem accepts_nameType (hΓ : Γ.OnlyVariables) (name : String) (loc : Location) :
    Accepts loops Γ (nameType name loc) fun t Γ' => (Expr.name name loc).HasType Γ t ∧ Γ' = Γ := by
  refine .get fun c hc _ => ?_
  simp only [hc]
  cases hfound : Γ.resolve? name with
  | none => exact .refuse rfl loc _
  | some symbol =>
    obtain ⟨t, ht⟩ := hΓ name symbol hfound
    simp only [ht.kind, ht.typeName]
    refine (accepts_typeNamed (Ty.builtin?_name ht.isBasic)).consequence ?_
    rintro _ _ ⟨rfl, rfl⟩
    exact ⟨.name hfound ht, rfl⟩

theorem isBasic_silent (hs : s.isBasic = true) (ht : t.isBasic = true) :
    (decide (s = .unknown) || decide (t = .unknown)) = false := by
  have hknown : ∀ {t : Ty}, t.isBasic = true → decide (t = .unknown) = false := by
    rintro t ht
    exact decide_eq_false fun h => nomatch h ▸ ht
  rw [hknown hs, hknown ht]
  rfl

theorem accepts_arithmetic (hs : s.isBasic = true) (ht : t.isBasic = true) (op : BinaryOp)
    (loc : Location) :
    Accepts loops Γ (arithmetic op s t loc) fun u Γ' =>
      (if s.isNumeric && t.isNumeric then some (arithmeticType op s t) else none) = some u ∧
      Γ' = Γ := by
  unfold arithmetic
  simp only [isBasic_silent hs ht, Bool.false_eq_true, if_false]
  split
  · exact .pure ⟨rfl, rfl⟩
  · exact .refuse rfl loc _

theorem accepts_operands {silent : Bool} (hsilent : silent = false) (allowed : Bool)
    {finding : Finding} (h : finding.code.severity = .error) (loc : Location) :
    Accepts loops Γ (do reportIf (!silent && !allowed) finding loc; return Ty.boolean) fun u Γ' =>
      (if allowed then some Ty.boolean else none) = some u ∧ Γ' = Γ := by
  subst hsilent
  cases allowed with
  | true => exact .pure ⟨rfl, rfl⟩
  | false => exact .refuse h loc _

theorem accepts_binaryType (hs : s.isBasic = true) (ht : t.isBasic = true) (op : BinaryOp)
    (loc : Location) :
    Accepts loops Γ (binaryType op s t loc) fun u Γ' => op.type? s t = some u ∧ Γ' = Γ := by
  cases op with
  | eq | ne => exact .pure ⟨rfl, rfl⟩
  | add =>
    unfold binaryType
    simp only [BinaryOp.type?]
    split
    · exact .pure ⟨rfl, rfl⟩
    · exact accepts_arithmetic hs ht _ loc
  | sub | mul | div | mod => exact accepts_arithmetic hs ht _ loc
  | lt | le | gt | ge | conj | disj => exact accepts_operands (isBasic_silent hs ht) _ rfl loc

theorem accepts_unaryType (hs : s.isBasic = true) (op : UnaryOp) (loc : Location) :
    Accepts loops Γ (unaryType op s loc) fun t Γ' => op.type? s = some t ∧ Γ' = Γ := by
  have hknown : s ≠ .unknown := by
    rintro rfl
    exact nomatch hs
  cases op with
  | not =>
    have hsilent : (!decide (s ≠ .unknown)) = false := by simp [hknown]
    have haccepts : Accepts loops Γ _ _ := accepts_operands hsilent s.isBoolean
      (show (Finding.notOperand s).code.severity = .error from rfl) loc
    rw [Bool.not_not] at haccepts
    exact haccepts
  | neg | plus =>
    simp only [unaryType, UnaryOp.type?, if_neg hknown]
    split
    · exact .pure ⟨rfl, rfl⟩
    · exact .refuse rfl loc _

theorem accepts_assignName (hΓ : Γ.OnlyVariables) (name : String) (nameLoc : Location) (s : Ty)
    (loc : Location) : Accepts loops Γ (assignName name nameLoc s loc) fun _ Γ' =>
      (∃ symbol t, Γ.resolve? name = some symbol ∧ symbol.IsVariable t ∧ t.compatible s = true) ∧
      Γ' = Γ := by
  refine .get fun c hc _ => ?_
  simp only [hc]
  cases hfound : Γ.resolve? name with
  | none => exact .report rfl nameLoc
  | some symbol =>
    obtain ⟨t, ht⟩ := hΓ name symbol hfound
    simp only [ht.kind, ht.typeName]
    refine .bind (accepts_typeNamed (Ty.builtin?_name ht.isBasic)) ?_
    rintro _ _ ⟨rfl, rfl⟩
    refine (Accepts.reportIf rfl loc).consequence ?_
    rintro _ _ ⟨hfits, rfl⟩
    exact ⟨⟨symbol, _, rfl, ht, by simpa using hfits⟩, rfl⟩

/-- **The type that the checker infers is the type of the expression.** -/
theorem accepts_infer (hΓ : Γ.OnlyVariables) (expr : Expr) (h : expr.isCore = true) :
    Accepts loops Γ (infer expr) fun t Γ' => expr.HasType Γ t ∧ Γ' = Γ := by
  fun_induction Expr.isCore expr with
  | case1 n loc => exact .pure ⟨.number, rfl⟩
  | case2 s loc => exact .pure ⟨.text, rfl⟩
  | case3 b loc => exact .pure ⟨.boolean, rfl⟩
  | case4 name loc => exact accepts_nameType hΓ name loc
  | case5 op left right loc ihleft ihright =>
    obtain ⟨hleft, hright⟩ := Bool.and_eq_true_iff.1 h
    refine .bind (ihleft hleft) ?_
    rintro s _ ⟨hs, rfl⟩
    refine .bind (ihright hright) ?_
    rintro t _ ⟨ht, rfl⟩
    refine (accepts_binaryType hs.isBasic ht.isBasic op loc).consequence ?_
    rintro u _ ⟨hu, rfl⟩
    exact ⟨.binary hs ht hu, rfl⟩
  | case6 op operand loc ih =>
    refine .bind (ih h) ?_
    rintro s _ ⟨hs, rfl⟩
    refine (accepts_unaryType hs.isBasic op loc).consequence ?_
    rintro t _ ⟨ht, rfl⟩
    exact ⟨.unary hs ht, rfl⟩
  | case7 name nameLoc value loc ih =>
    refine .bind (y := fun s => assignName name nameLoc s loc >>= fun _ => pure s) (ih h) ?_
    rintro s _ ⟨hs, rfl⟩
    refine .bind (accepts_assignName hΓ name nameLoc s loc) ?_
    rintro _ _ ⟨⟨symbol, t, hfound, hvariable, hfits⟩, rfl⟩
    exact .pure ⟨.assign hs hfound hvariable hfits, rfl⟩
  | _ => exact nomatch h

/-! ## Declarations -/

theorem resolveType_run (h : Ty.builtin? name = some t) (loc : Location) (c : Checker) :
    (resolveType name loc).run c = (t, c) := by
  simp only [resolveType, lookupType, h]
  rfl

theorem accepts_resolveType (h : Ty.builtin? name = some t) (loc : Location) :
    Accepts loops Γ (resolveType name loc) fun type Γ' => type = t ∧ Γ' = Γ := by
  intro c hc _ _
  rw [resolveType_run h]
  exact ⟨rfl, hc⟩

theorem accepts_define (symbol : Symbol) :
    Accepts loops Γ (define symbol) fun free Γ' => free = true → Γ.define? symbol = some Γ' := by
  refine .get fun c hc _ => ?_
  simp only [hc]
  cases hdefine : Γ.define? symbol with
  | none => exact .pure fun h => nomatch h
  | some scopes => exact fun _ _ _ _ _ => rfl

theorem accepts_defineOr (symbol : Symbol) {finding : Finding} (h : finding.code.severity = .error)
    (loc : Location) :
    Accepts loops Γ (defineOr symbol finding loc) fun _ Γ' => Γ.define? symbol = some Γ' := by
  refine .bind (accepts_define symbol) ?_
  intro free Γ' hfree
  cases free with
  | true => exact .pure (hfree rfl)
  | false => exact .report h loc

theorem exists_of_mem_coreTypes (h : Variable.coreTypes.contains name = true) :
    ∃ t, Ty.builtin? name = some t ∧ t.isBasic = true := by
  simp only [Variable.coreTypes, contains_eq_mem, mem_cons, not_mem_nil, or_false,
    decide_eq_true_eq] at h
  obtain rfl | rfl | rfl | rfl | rfl | rfl | rfl := h <;> exact ⟨_, rfl, rfl⟩

theorem inferredType_eq (h : t.isBasic = true) (name : String) (loc : Location) :
    inferredType name t loc = pure t := by
  cases t with
  | number | int | text | boolean => rfl
  | _ => exact nomatch h

theorem accepts_variableType (hΓ : Γ.OnlyVariables) {decl : Variable} {init : Expr}
    {declared : Option Ty} (hstart : decl.start = .value init) (hinit : init.isCore = true) :
    Accepts loops Γ (variableType decl declared) fun type Γ' =>
      (∃ s t, type = some t ∧ init.HasType Γ s ∧ declared.getD s = t ∧ t.compatible s = true) ∧
      Γ' = Γ := by
  unfold variableType
  rw [hstart]
  cases declared with
  | some t =>
    refine .bind (accepts_infer hΓ init hinit) ?_
    rintro s _ ⟨hs, rfl⟩
    refine .bind (Accepts.reportIf rfl decl.location) ?_
    rintro _ _ ⟨hfits, rfl⟩
    exact .pure ⟨⟨s, t, rfl, hs, rfl, by simpa using hfits⟩, rfl⟩
  | none =>
    refine .bind (accepts_infer hΓ init hinit) ?_
    rintro s _ ⟨hs, rfl⟩
    rw [inferredType_eq hs.isBasic]
    exact .pure ⟨⟨s, s, rfl, hs, rfl, Ty.compatible_self hs.isBasic⟩, rfl⟩

theorem accepts_induce (hΓ : Γ.OnlyVariables) {decl : Variable} (h : decl.isCore = true) :
    Accepts loops Γ (induce decl) fun _ Γ' => (Stmt.induce decl).Typed loops Γ Γ' := by
  obtain ⟨htype, hstart⟩ := Bool.and_eq_true_iff.1 h
  obtain ⟨init, hstart, hinit⟩ : ∃ init, decl.start = .value init ∧ init.isCore = true := by
    cases hvalue : decl.start with
    | value init => exact ⟨init, rfl, by simpa [hvalue, Start.expr?] using hstart⟩
    | unset | external => simp [hvalue, Start.expr?] at hstart
  have hdefined : ∀ declared : Option Ty, (∀ s : Ty, s.isBasic = true →
      decl.type? s = some (declared.getD s) ∧ (declared.getD s).isBasic = true) → Accepts loops Γ (do
      let type ← variableType decl declared
      defineOr { name := decl.name, kind := .variable, typeName := type.map Ty.name }
        (.redeclaredVariable decl.name) decl.location) fun _ Γ' =>
        (Stmt.induce decl).Typed loops Γ Γ' := by
    intro declared hdeclared
    refine .bind (accepts_variableType hΓ hstart hinit) ?_
    rintro _ _ ⟨⟨s, t, rfl, hs, rfl, hfits⟩, rfl⟩
    obtain ⟨htype, hbasic⟩ := hdeclared s hs.isBasic
    exact (accepts_defineOr _ rfl _).consequence fun _ Γ' hdefine =>
      .induce hstart hs htype hbasic hfits hdefine
  unfold induce
  cases hname : decl.typeName with
  | none =>
    exact hdefined none fun s hs => ⟨by simp only [Variable.type?, hname, getD_none], hs⟩
  | some name =>
    rw [hname] at htype
    obtain ⟨t, hbuiltin, hbasic⟩ := exists_of_mem_coreTypes htype
    refine .bind (accepts_resolveType hbuiltin decl.location) ?_
    rintro _ _ ⟨rfl, rfl⟩
    exact hdefined (some _) fun s hs =>
      ⟨by simp only [Variable.type?, hname, hbuiltin, getD_some], hbasic⟩

/-! ## Statements -/

theorem accepts_condition (hΓ : Γ.OnlyVariables) {cond : Expr} (h : cond.isCore = true)
    (word : String) :
    Accepts loops Γ (condition cond word) fun _ Γ' => (∃ t, cond.HasType Γ t) ∧ Γ' = Γ := by
  refine .bind (accepts_infer hΓ cond h) ?_
  rintro t _ ⟨ht, rfl⟩
  exact (Accepts.note _ _ _).consequence fun _ _ h => ⟨⟨t, ht⟩, h⟩

theorem accepts_awakenHere (actual : Option Ty) (loc : Location) : Accepts loops Γ (do
      match (← get).context.enclosing with
      | some enclosing => awakenValue enclosing actual loc
      | none => pure ()) fun _ Γ' => Γ' = Γ := by
  refine .get fun c _ _ => ?_
  cases c.context.enclosing with
  | none => exact .pure rfl
  | some enclosing =>
    simp only [awakenValue]
    cases actual with
    | none => cases enclosing.returnType <;> first | exact .pure rfl | exact .report rfl loc
    | some actual =>
      simp only
      split
      · exact .report rfl loc
      · split
        · exact .report rfl loc
        · exact .note _ _ loc

theorem accepts_awaken (hΓ : Γ.OnlyVariables) {value : Option Expr}
    (h : value.all Expr.isCore = true) (loc : Location) :
    Accepts loops Γ (awaken value loc) fun _ Γ' =>
      (∀ expr ∈ value, ∃ t, expr.HasType Γ t) ∧ Γ' = Γ := by
  cases value with
  | none =>
    exact (accepts_awakenHere none loc).consequence fun _ _ h => ⟨fun _ hexpr => (nomatch hexpr), h⟩
  | some value =>
    refine .bind (accepts_infer hΓ value h) ?_
    rintro t _ ⟨ht, rfl⟩
    refine (accepts_awakenHere (some t) loc).consequence fun _ _ h => ⟨?_, h⟩
    rintro _ ⟨⟩
    exact ⟨t, ht⟩

section

variable {link : Follower} {body : List Stmt}

theorem accepts_block (h : Accepts loops (Γ.enter .block) (stmts link body) fun _ inner =>
      ListTyped loops (Γ.enter .block) body inner) :
    Accepts loops Γ (inBlock body (stmts link body)) fun _ Γ' =>
      (∃ inner, ListTyped loops (Γ.enter .block) body inner) ∧ Γ' = Γ := by
  have hlabels : Accepts loops (Γ.enter .block) (withLabels (labelsOf body) (stmts link body)) _ :=
    .inContext _ (fun _ hloops => hloops) h
  refine (hlabels.inFrame .block).consequence ?_
  rintro _ _ ⟨inner, hinner, rfl⟩
  exact ⟨⟨inner, hinner⟩, (hinner.over Γ.over_enter).exit⟩

theorem accepts_loop (h : Accepts true (Γ.enter .block) (stmts link body) fun _ inner =>
      ListTyped true (Γ.enter .block) body inner) :
    Accepts loops Γ (inLoop (inBlock body (stmts link body))) fun _ Γ' =>
      (∃ inner, ListTyped true (Γ.enter .block) body inner) ∧ Γ' = Γ :=
  .inContext _ (fun _ _ => decide_eq_true (Nat.succ_ne_zero _)) (accepts_block h)

variable {loop : Loop}

theorem accepts_checkCond (hΓ : Γ.OnlyVariables) (hcore : loop.cond.all Expr.isCore = true) :
    Accepts loops Γ loop.checkCond fun _ Γ' => (∀ expr ∈ loop.cond, ∃ t, expr.HasType Γ t) ∧
    Γ' = Γ := by
  obtain ⟨word, cond, step, body⟩ := loop
  cases cond with
  | none => exact .pure ⟨fun _ hexpr => (nomatch hexpr), rfl⟩
  | some cond =>
    refine (accepts_condition hΓ hcore word).consequence fun _ _ h => ⟨?_, h.2⟩
    rintro _ ⟨⟩
    exact h.1

theorem accepts_checkStep (hΓ : Γ.OnlyVariables) (hcore : loop.step.all Expr.isCore = true) :
    Accepts loops Γ loop.checkStep fun _ Γ' => (∀ expr ∈ loop.step, ∃ t, expr.HasType Γ t) ∧
    Γ' = Γ := by
  obtain ⟨word, cond, step, body⟩ := loop
  cases step with
  | none => exact .pure ⟨fun _ hexpr => (nomatch hexpr), rfl⟩
  | some step =>
    refine .bind (accepts_infer hΓ step hcore) ?_
    rintro t _ ⟨ht, rfl⟩
    refine .pure ⟨?_, rfl⟩
    rintro _ ⟨⟩
    exact ⟨t, ht⟩

theorem accepts_check [∀ path loc, Growing (link path loc)] (hΓ : Γ.OnlyVariables)
    (hcore : loop.isCore = true)
    (h : Accepts true (Γ.enter .block) (stmts link loop.body) fun _ inner => ListTyped true
      (Γ.enter .block) loop.body inner) :
    Accepts loops Γ (loop.check link) fun _ Γ' =>
      ((∀ expr ∈ loop.cond, ∃ t, expr.HasType Γ t) ∧ (∀ expr ∈ loop.step, ∃ t, expr.HasType Γ t) ∧
        ∃ inner, ListTyped true (Γ.enter .block) loop.body inner) ∧ Γ' = Γ := by
  obtain ⟨⟨hcond, hstep⟩, -⟩ := by simpa only [Loop.isCore, Bool.and_eq_true] using hcore
  refine .bind (accepts_checkCond hΓ hcond) ?_
  rintro _ _ ⟨hcond, rfl⟩
  refine .bind (accepts_checkStep hΓ hstep) ?_
  rintro _ _ ⟨hstep, rfl⟩
  refine (accepts_loop h).consequence ?_
  rintro _ _ ⟨hinner, rfl⟩
  exact ⟨⟨hcond, hstep, hinner⟩, rfl⟩

theorem accepts_insideLoop (word : String) (loc : Location) :
    Accepts loops Γ (insideLoop word loc) fun _ Γ' => loops = true ∧ Γ' = Γ := by
  refine .get fun c _ hloops => ?_
  refine (Accepts.reportIf rfl loc).consequence ?_
  rintro _ _ ⟨hinside, rfl⟩
  refine ⟨?_, rfl⟩
  rw [← hloops]
  simpa using hinside

end

mutual

/-- **A statement that is accepted is well typed.** -/
theorem accepts_stmt (link : Follower) [∀ path loc, Growing (link path loc)] :
    ∀ (s : Stmt) {loops : Bool} {Γ : Scopes}, Γ.OnlyVariables → s.isCore = true →
    Accepts loops Γ (stmt link s) fun _ Γ' => s.Typed loops Γ Γ'
  | .induce decl, _, _, hΓ, h => accepts_induce hΓ h
  | .branch cond yes none loc, loops, Γ, hΓ, h => by
    obtain ⟨⟨hcond, hyes⟩, -⟩ := by simpa only [Stmt.isCore, Bool.and_eq_true] using h
    refine .bind (y := fun _ => block link yes >>= pure) (accepts_condition hΓ hcond "if") ?_
    rintro _ _ ⟨⟨t, ht⟩, rfl⟩
    refine .bind (accepts_block (accepts_stmts link yes hΓ.enter hyes)) ?_
    rintro _ _ ⟨⟨inner, hinner⟩, rfl⟩
    exact .pure (.branch ht hinner .none)
  | .branch cond yes (some no) loc, loops, Γ, hΓ, h => by
    obtain ⟨⟨hcond, hyes⟩, hno⟩ := by simpa only [Stmt.isCore, Bool.and_eq_true] using h
    refine .bind (y := fun _ => block link yes >>= fun _ => block link no)
      (accepts_condition hΓ hcond "if") ?_
    rintro _ _ ⟨⟨t, ht⟩, rfl⟩
    refine .bind (accepts_block (accepts_stmts link yes hΓ.enter hyes)) ?_
    rintro _ _ ⟨⟨inner, hinner⟩, rfl⟩
    refine (accepts_block (accepts_stmts link no hΓ.enter hno)).consequence ?_
    rintro _ _ ⟨⟨inner', hinner'⟩, rfl⟩
    exact .branch ht hinner (.some hinner')
  | .whileLoop cond body loc, loops, Γ, hΓ, h => by
    have hcore : Loop.isCore ⟨"while", some cond, none, body⟩ = true := by
      simpa [Loop.isCore, Stmt.isCore] using h
    have hbody : listIsCore body = true := (Bool.and_eq_true_iff.1 h).2
    refine (accepts_check hΓ hcore (accepts_stmts link body hΓ.enter hbody)).consequence ?_
    rintro _ _ ⟨⟨hcond, -, inner, hinner⟩, rfl⟩
    obtain ⟨t, ht⟩ := hcond cond rfl
    exact .whileLoop ht hinner
  | .loop none cond step body loc, loops, Γ, hΓ, h => by
    have hcore : Loop.isCore ⟨"loop", cond, step, body⟩ = true := by
      simpa [Loop.isCore, Stmt.isCore] using h
    have hbody : listIsCore body = true := (Bool.and_eq_true_iff.1 h).2
    rw [stmt_loop]
    refine (Accepts.inFrame .block
      (accepts_check hΓ.enter hcore (accepts_stmts link body hΓ.enter.enter hbody))).consequence ?_
    rintro _ _ ⟨_, ⟨⟨hcond, hstep, inner, hinner⟩, rfl⟩, rfl⟩
    exact .loop .none hcond hstep hinner
  | .loop (some init) cond step body loc, loops, Γ, hΓ, h => by
    have hcore : init.isCore = true ∧ Loop.isCore ⟨"loop", cond, step, body⟩ = true := by
      simpa [Loop.isCore, Stmt.isCore, Bool.and_assoc] using h
    have hbody : listIsCore body = true := (Bool.and_eq_true_iff.1 h).2
    rw [stmt_loopStart]
    refine (Accepts.inFrame .block (Accepts.bind (accepts_stmt link init hΓ.enter hcore.1)
      (Q := fun _ Γ' => ∃ Γ₁, init.Typed loops (Γ.enter .block) Γ₁ ∧
        ((∀ expr ∈ cond, ∃ t, expr.HasType Γ₁ t) ∧ (∀ expr ∈ step, ∃ t, expr.HasType Γ₁ t) ∧
          ∃ inner, ListTyped true (Γ₁.enter .block) body inner) ∧
          Γ' = Γ₁) fun _ Γ₁ htyped => ?_)).consequence ?_
    · have hΓ₁ := htyped.onlyVariables hΓ.enter
      exact (accepts_check hΓ₁ hcore.2 (accepts_stmts link body hΓ₁.enter hbody)).consequence
        fun _ _ hrest => ⟨Γ₁, htyped, hrest⟩
    rintro _ _ ⟨_, ⟨Γ₁, htyped, ⟨hcond, hstep, inner, hinner⟩, rfl⟩, rfl⟩
    rw [(htyped.over Γ.over_enter).exit]
    exact .loop (.some htyped) hcond hstep hinner
  | .observe expr loc, _, _, hΓ, h => by
    refine .bind (accepts_infer hΓ expr h) ?_
    rintro t _ ⟨ht, rfl⟩
    exact .pure (.observe ht)
  | .expr expr loc, _, _, hΓ, h => by
    refine .bind (accepts_infer hΓ expr h) ?_
    rintro t _ ⟨ht, rfl⟩
    exact .pure (.expr ht)
  | .assert cond message loc, _, _, hΓ, h => by
    refine (accepts_condition hΓ h "assert").consequence ?_
    rintro _ _ ⟨⟨t, ht⟩, rfl⟩
    exact .assert ht
  | .awaken value loc, _, _, hΓ, h => by
    refine (accepts_awaken hΓ h loc).consequence ?_
    rintro _ _ ⟨htyped, rfl⟩
    exact .awaken htyped
  | .snap loc, _, _, _, _ => by
    refine (accepts_insideLoop "snap" loc).consequence ?_
    rintro _ _ ⟨rfl, rfl⟩
    exact .snap
  | .sink loc, _, _, _, _ => by
    refine (accepts_insideLoop "sink" loc).consequence ?_
    rintro _ _ ⟨rfl, rfl⟩
    exact .sink
  | .entrance body loc, _, _, hΓ, h => by
    refine (accepts_block (accepts_stmts link body hΓ.enter h)).consequence ?_
    rintro _ _ ⟨⟨inner, hinner⟩, rfl⟩
    exact .entrance hinner
  | .suggestion _, _, _, _, h | .session _, _, _, _, h | .tranceify _, _, _, _, h | .sinkTo .., _,
    _, _, h
  | .label .., _, _, _, h | .mindLink .., _, _, _, h => nomatch h

theorem accepts_stmts (link : Follower) [∀ path loc, Growing (link path loc)] :
    ∀ (body : List Stmt) {loops : Bool} {Γ : Scopes}, Γ.OnlyVariables → listIsCore body = true →
    Accepts loops Γ (stmts link body) fun _ Γ' => ListTyped loops Γ body Γ'
  | [], _, _, _, _ => .pure .nil
  | first :: rest, loops, Γ, hΓ, h => by
    obtain ⟨hfirst, hrest⟩ := by simpa only [listIsCore, Bool.and_eq_true] using h
    refine .bind (accepts_stmt link first hΓ hfirst) ?_
    intro _ Γ' hfirst
    exact (accepts_stmts link rest (hfirst.onlyVariables hΓ) hrest).consequence fun _ _ hrest =>
      .cons hfirst hrest

end

end Check

end Trance
