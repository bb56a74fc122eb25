import Trance.Checking.Program
import Trance.Proofs.Running.Contents
import Trance.Proofs.Running.Frames

/-!
# What a check is made of

A check looks only at a part of its state: at what names stand for, at what is known about types,
and at where in the program it is. It changes its state in few ways: it reports something, binds a
name, gives a variable a type, comes to know a type, opens a frame, or goes on in another context.
All of a check is put together from such steps, and so what is true of each of them is true of every
check.

A program is checked on some terms. They say which names and types may come into it, and of which
states anything is asked. On these terms every step keeps the state sound, and has a result of which
something is known as long as the state is a clean one. -/

namespace Trance

open List

def Code.isJump : Code → Bool
  | unknownLabel | jumpOutsideLoop => true
  | _ => false

/-- Whether a type is neither `unknown` nor declared by a program. -/
def Ty.isBuiltIn : Ty → Bool
  | unknown | session _ | record _ => false
  | _ => true

def Ty.symbol (type : Ty) : Symbol :=
  { name := type.name
    kind := match type with
      | .session _ => .session
      | .record _ => .record
      | _ => .variable
    typeName := some type.name }

/-- What there is to report if the name of a session or a record type is taken. -/
def Ty.redeclared : Ty → Finding
  | .session name => .redeclaredSession name
  | other => .redeclaredTranceify other.name

/-! ## States -/

namespace Checker

/-- The state that a step leaves. -/
def after {α : Type} (c : Checker) (step : Check α) : Checker := (step.run c).2

def enter (c : Checker) : Checker := { c with scopes := c.scopes.enter .block }

def withLabels (c : Checker) (labels : List String) : Checker :=
  { c with context := { c.context with labels := labels :: c.context.labels } }

def inLoop (c : Checker) : Checker :=
  { c with context := { c.context with loops := c.context.loops + 1 } }

end Checker

/-- The type that a name stands for: a built-in type before a session, and a session before a record
type. -/
def Checker.lookup? (c : Checker) (name : String) : Option Ty :=
  match Ty.builtin? name with
  | some type => some type
  | none =>
    if c.sessions.has name then some (.session name)
    else if c.records.has name then some (.record name)
    else none

/-- States that agree in what a check looks at. -/
structure Checker.Agrees (c d : Checker) : Prop where
  resolve? : ∀ name, c.scopes.resolve? name = d.scopes.resolve? name
  session? : ∀ name, c.sessions.find? name = d.sessions.find? name
  record? : ∀ name, c.records.find? name = d.records.find? name
  context : c.context = d.context

variable {c : Checker}

theorem Checker.Agrees.has_record {d : Checker} (h : c.Agrees d) (name : String) :
    c.records.has name = d.records.has name := by
  rw [Table.has, h.record?, Table.has]

theorem Checker.Agrees.lookup? {d : Checker} (h : c.Agrees d) (name : String) :
    c.lookup? name = d.lookup? name := by
  have hsession : c.sessions.has name = d.sessions.has name := by
    rw [Table.has, h.session?, Table.has]
  simp only [Checker.lookup?, hsession, h.has_record]

/-- Whether a type is known, if it has to be declared. -/
def Checker.has (c : Checker) : Ty → Bool
  | .session name => c.sessions.has name
  | .record name => c.records.has name
  | _ => true

/-- Know one more session or record type, about whose members nothing is known yet. -/
def Checker.learn (type : Ty) (c : Checker) : Checker :=
  match type with
  | .session name => { c with sessions := c.sessions.insert name ⟨[], 0⟩ }
  | .record name => { c with records := c.records.insert name [] }
  | _ => c

/-- A check goes on. What has been reported stays reported, and types stay known. -/
structure Checker.Before (c c' : Checker) : Prop where
  errors : c.report.errors <+: c'.report.errors
  warnings : c.report.warnings <+: c'.report.warnings
  known : ∀ type, c.has type = true → c'.has type = true

theorem Checker.Before.refl (c : Checker) : c.Before c := ⟨prefix_rfl, prefix_rfl, fun _ h => h⟩

theorem Checker.Before.trans {c' c'' : Checker} (h : c.Before c') (h' : c'.Before c'') :
    c.Before c'' :=
  ⟨h.errors.trans h'.errors, h.warnings.trans h'.warnings, fun type htype =>
    h'.known type (h.known type htype)⟩

/-- A part of a check, and the state before it: the type of an expression is inferred, or a variable
is declared. -/
inductive Call where
  | infer (expr : Expr) (checker : Checker)
  | induce (decl : Variable) (checker : Checker)

def Call.checker : Call → Checker
  | infer _ c | induce _ c => c

def Call.after : Call → Checker
  | infer e c => c.after (Check.infer e)
  | induce decl c => c.after (Check.induce decl)

/-! ## Terms -/

/-- The terms on which programs are checked: which kinds of names may be bound among the globals,
which sessions and record types become known, which types are inferred and by which names they may
be written, and which states are clean. Two checks may differ in how they follow links, if there are
any. -/
structure Terms where
  opens : Symbol.Kind → Prop
  types : Ty → Prop
  infers : Ty → Prop
  writes : String → Prop
  clean : Checker → Prop
  links : Prop
  link : Follower
  link' : Follower
  basic : ∀ {type : Ty}, type.isBuiltIn = true → infers type
  known : ∀ {type : Ty}, types type → infers type
  unknown : ∀ {c : Checker} {finding loc}, clean
    { c with report := c.report.add (Finding.diagnose finding loc) } → infers .unknown
  named : ∀ {type : Ty}, infers type → writes type.name
  earlier : ∀ {c c' : Checker}, clean c' → c.Before c' → clean c

namespace Terms

def lax (opens : Symbol.Kind → Prop) (links : Prop) (link link' : Follower) : Terms where
  opens := opens
  types _ := True
  infers _ := True
  writes _ := True
  clean _ := True
  links := links
  link := link
  link' := link'
  basic _ := trivial
  known _ := trivial
  unknown _ := trivial
  named _ := trivial
  earlier _ _ := trivial

variable (T : Terms)

def Allows (finding : Finding) : Prop :=
  ∃ (c : Checker) (loc : Location), T.clean { c with report := c.report.add (finding.diagnose loc) }

def Learns (type : Ty) : Prop := ∀ c, T.clean c → c.has type = true → T.types type

def AdmitsType (type : Ty) : Prop := T.Learns type ∧ T.writes type.name

def Tolerates : Prop := ∃ finding : Finding, finding.code.severity = .error ∧ T.Allows finding

/-- A name stands for a built-in type or for one that becomes known, as far as errors matter. -/
def Resolves (name : String) : Prop :=
  (Ty.builtin? name).isSome = true ∨ T.types (.session name) ∨ T.types (.record name) ∨ T.Tolerates

/-- A record literal has a type that becomes known, as far as errors matter. -/
def Builds : Expr → Prop
  | .record name _ _ => T.types (.record name) ∨ T.Tolerates
  | _ => True

def Mentions (name : String) : Prop := ∀ type, Ty.builtin? name = some type → T.infers type

/-- The types with which a suggestion is declared may be written. -/
structure Declares (decl : Suggestion) : Prop where
  params : ∀ param ∈ decl.params, ∀ name ∈ param.typeName, T.writes name
  returnType : ∀ name ∈ decl.returnType, T.writes name

def Holds : MemberKind → Prop
  | .field type => T.infers type
  | .method decl => T.Declares decl

/-- A symbol is as the terms say. -/
structure Fits (symbol : Symbol) : Prop where
  typeName : ∀ name ∈ symbol.typeName, T.writes name
  session : symbol.kind = .session → T.types (.session symbol.name)
  record : symbol.kind = .record → T.types (.record symbol.name)
  value : ∀ decl, symbol.value = some (.suggestion decl) → T.Declares decl

/-- Everything in the state of a check is as the terms say. -/
structure Stands (c : Checker) : Prop where
  scopes : c.scopes.All T.Fits
  sessions : ∀ entry ∈ c.sessions, T.types (.session entry.1) ∧
      ∀ member ∈ entry.2.members, T.Holds member.2.kind
  records : ∀ entry ∈ c.records, T.types (.record entry.1) ∧ ∀ field ∈ entry.2, T.infers field.2

/-- Besides, names that may be written stand for types that may be inferred. -/
structure Sound (c : Checker) : Prop extends T.Stands c where
  written : ∀ name, T.writes name → T.infers ((c.lookup? name).getD .unknown)

end Terms

/-! ## Steps -/

/-- Give a type to the variable that a name stands for, if it has none. -/
def Check.giveType (name typeName : String) : Check Unit :=
  modify fun c =>
    if (c.scopes.resolve? name).any (·.typeName.isNone) then
      { c with scopes := (c.scopes.update? name fun symbol =>
          { symbol with typeName := some typeName }).getD c.scopes }
    else c

/-- Declare the name of a session or a record type, if it is free. -/
def Check.introduce (type : Ty) (loc : Location) : Check Unit := do
  if ← define type.symbol then modify (Checker.learn type) else report type.redeclared loc

/-- `T.Made p k Q x y jumps calls`: where `k` frames are open, the checks `x` and `y` are put
together in the same way from steps. If `p` is true, then the steps are on the terms `T`, and `Q` is
true of the result. The checks report `jumps` and consist of `calls`. -/
inductive Terms.Made (T : Terms) : Prop → Nat → {α : Type} → (α → Prop) → Check α → Check α →
    (Context → List (Code × Location)) → (Checker → List Call) → Prop where
  | pure {p k α} {Q : α → Prop} (a : α) (h : p → Q a) :
      T.Made p k Q (Pure.pure a) (Pure.pure a) (fun _ => []) fun _ => []
  | bind {p k α β} {Q : α → Prop} {R : β → Prop} {x y : Check α} {f g : α → Check β}
      {jumps jumps' : Context → List (Code × Location)} {calls : Checker → List Call}
      {calls' : α → Checker → List Call} (hx : T.Made p k Q x y jumps calls)
      (hf : ∀ a, T.Made (p ∧ Q a) k R (f a) (g a) jumps' (calls' a)) :
      T.Made p k R (x >>= f) (y >>= g) (fun context => jumps context ++ jumps' context)
        fun c => calls c ++ calls' (x.run c).1 (c.after x)
  | look {p k α} {Q : α → Prop} {f : Checker → Check α} {calls : Checker → Checker → List Call}
      (same : ∀ {c d : Checker}, c.Agrees d → f c = f d)
      (hf : ∀ c, T.Made (p ∧ T.Sound c) k Q (f c) (f c) (fun _ => []) (calls c)) :
      T.Made p k Q (MonadState.get >>= f) (MonadState.get >>= f) (fun _ => []) fun c => calls c c
  | report {p k} {Q : Unit → Prop} {finding : Finding} (h : finding.code.isJump = false)
      (loc : Location) (hQ : p → T.Allows finding → Q ()) :
      T.Made p k Q (Check.report finding loc) (Check.report finding loc) (fun _ => []) fun _ => []
  | jump {p k} (cond : Context → Bool) {finding : Finding} (h : finding.code.isJump = true)
      (loc : Location) :
      T.Made p k (fun _ => True) (do Check.reportIf (cond (← get).context) finding loc)
        (do Check.reportIf (cond (← get).context) finding loc)
        (fun context => if cond context then [(finding.code, loc)] else []) fun _ => []
  | define {p k} {symbol : Symbol} (hopens : k = 0 → T.opens symbol.kind) (hfits : p →
      T.Fits symbol) :
      T.Made p k (fun _ => True) (Check.define symbol) (Check.define symbol) (fun _ => []) fun _ =>
        []
  | giveType {p k} (name : String) {typeName : String} (h : p → T.writes typeName) :
      T.Made p k (fun _ => True) (Check.giveType name typeName) (Check.giveType name typeName)
        (fun _ => []) fun _ => []
  | introduce {p k} {type : Ty} (hopens : k = 0 →
      T.opens type.symbol.kind) (h : T.AdmitsType type) (loc : Location) :
      T.Made p k (fun _ => True) (Check.introduce type loc) (Check.introduce type loc)
        (fun _ => []) fun _ => []
  | know {p k} {name : String} {info : SessionInfo} (htype : T.Learns (.session name))
      (hinfo : p → ∀ member ∈ info.members, T.Holds member.2.kind) :
      T.Made p k (fun _ => True) (modify fun c => { c with sessions := c.sessions.insert name info })
        (modify fun c => { c with sessions := c.sessions.insert name info }) (fun _ => []) fun _ =>
          []
  | knowRecord {p k} {name : String} {info : RecordInfo} (htype : T.Learns (.record name))
      (hinfo : p → ∀ field ∈ info, T.infers field.2) :
      T.Made p k (fun _ => True) (modify fun c => { c with records := c.records.insert name info })
        (modify fun c => { c with records := c.records.insert name info }) (fun _ => []) fun _ => []
  | inFrame {p k α} {Q : α → Prop} {x y : Check α} {jumps : Context → List (Code × Location)}
      {calls : Checker → List Call} (kind : Frame.Kind) (hx : T.Made p (k + 1) Q x y jumps calls) :
      T.Made p k Q (Check.inFrame kind x) (Check.inFrame kind y) jumps
        fun c => calls { c with scopes := c.scopes.enter kind }
  | inContext {p k α} {Q : α → Prop} {x y : Check α} {jumps : Context → List (Code × Location)}
      {calls : Checker → List Call} {enter : Context → Context} {leave : Context → Context → Context}
      (back : ∀ context, leave context (enter context) = context)
        (hx : T.Made p k Q x y jumps calls) :
      T.Made p k Q (Check.inContext enter leave x) (Check.inContext enter leave y)
        (fun context => jumps (enter context)) fun c => calls { c with context := enter c.context }
  | link {p k} (h : T.links) (path : String) (loc : Location) :
      T.Made p k (fun _ => True) (T.link path loc) (T.link' path loc) (fun _ => []) fun _ => []
  | infer {p k} {Q : Ty → Prop} {e : Expr} {calls : Checker → List Call}
      (hx : T.Made p k Q (Check.infer e) (Check.infer e) (fun _ => []) calls) :
      T.Made p k Q (Check.infer e) (Check.infer e) (fun _ => []) fun c => .infer e c :: calls c
  | induce {p k} {Q : Unit → Prop} {decl : Variable} {calls : Checker → List Call}
      (hx : T.Made p k Q (Check.induce decl) (Check.induce decl) (fun _ => []) calls) :
      T.Made p k Q (Check.induce decl) (Check.induce decl) (fun _ => []) fun c =>
        .induce decl c :: calls c

namespace Terms

variable {α β : Type} {T : Terms} {p : Prop} {k : Nat} {Q : α → Prop} {R : β → Prop}

abbrev Plain (T : Terms) (p : Prop) (k : Nat) (Q : α → Prop) (x : Check α)
    (calls : Checker → List Call) : Prop :=
  T.Made p k Q x x (fun _ => []) calls

/-- A check that reports nothing about jumps and infers no types. -/
abbrev Looks (T : Terms) (p : Prop) (k : Nat) (Q : α → Prop) (x : Check α) :
    Prop := T.Plain p k Q x fun _ => []

abbrev Goes (T : Terms) (p : Prop) (k : Nat) (x : Check α) : Prop := T.Looks p k (fun _ => True) x

namespace Made

variable {x y : Check α} {f g : α → Check β} {jumps jumps' : Context → List (Code × Location)}
  {calls : Checker → List Call} {calls' : α → Checker → List Call}

theorem mono {R : α → Prop} (h : T.Made p k Q x y jumps calls) (hQ : ∀ a, p → Q a → R a) :
    T.Made p k R x y jumps calls := by
  have hpure := h.bind fun a => .pure a fun ha => hQ a ha.1 ha.2
  simpa only [bind_pure, append_nil] using hpure

theorem skip (a : α) : T.Goes p k (Pure.pure a) := .pure a fun _ => trivial

theorem goes (h : T.Made p k Q x y jumps calls) : T.Made p k (fun _ => True) x y jumps calls :=
  h.mono fun _ _ _ => trivial

theorem after (hx : T.Looks p k Q x) (hf : ∀ a, T.Made (p ∧ Q a) k R (f a) (g a) jumps' (calls' a)) :
    T.Made p k R (x >>= f) (x >>= g) jumps' fun c => calls' (x.run c).1 (c.after x) :=
  hx.bind hf

theorem before (hx : T.Made p k Q x y jumps calls) (hf : ∀ a, T.Looks (p ∧ Q a) k R (f a)) :
    T.Made p k R (x >>= f) (y >>= f) jumps calls := by
  have h := hx.bind hf
  simpa only [append_nil] using h

theorem lookAt {f : Checker → Check α} (same : ∀ {c d : Checker}, c.Agrees d → f c = f d)
    (hf : ∀ c, T.Looks (p ∧ T.Sound c) k Q (f c)) : T.Looks p k Q (MonadState.get >>= f) :=
  .look same hf

theorem andThen (hx : T.Plain p k Q x calls)
    (hf : ∀ a, T.Made (p ∧ Q a) k R (f a) (g a) jumps' (calls' a)) :
    T.Made p k R (x >>= f) (x >>= g) jumps' fun c => calls c ++ calls' (x.run c).1 (c.after x) :=
  hx.bind hf

theorem ite {b : Prop} [Decidable b] (hx : b → T.Plain p k Q x calls)
    (hy : ¬b → T.Plain p k Q y calls) : T.Plain p k Q (if b then x else y) calls := by
  split
  · exact hx ‹_›
  · exact hy ‹_›

variable {finding : Finding}

theorem tell (h : finding.code.isJump = false) (loc : Location) :
    T.Goes p k (Check.report finding loc) :=
  .report h loc fun _ _ => trivial

theorem reportIf (cond : Bool) (h : finding.code.isJump = false) (loc : Location) :
    T.Goes p k (Check.reportIf cond finding loc) :=
  .ite (fun _ => .tell h loc) fun _ => .skip ()

theorem fail (h : finding.code.isJump = false) (loc : Location) :
    T.Looks p k T.infers (do Check.report finding loc; return .unknown) :=
  .before (Q := fun _ => T.infers .unknown) (.report h loc fun _ ⟨_, _, hclean⟩ => T.unknown hclean)
    fun _ => .pure _ And.right

theorem forM {σ : Type} {step : σ → Check Unit} {P : σ → Prop} {all : List σ}
    (h : ∀ s ∈ all, ∀ {p : Prop}, T.Looks p k (fun _ => P s) (step s)) :
    T.Looks p k (fun _ => ∀ s ∈ all, P s) (all.forM step) := by
  induction all generalizing p with
  | nil => exact .pure () fun _ => nofun
  | cons s rest ih =>
    obtain ⟨hs, hrest⟩ := forall_mem_cons.1 h
    exact .before hs fun _ => (ih hrest).mono fun _ hP hPs => forall_mem_cons.2 ⟨hP.2, hPs⟩

theorem foldlM {σ : Type} {step : α → σ → Check α} {all : List σ}
    (h : ∀ a, ∀ s ∈ all, ∀ {p : Prop}, (p → Q a) → T.Looks p k Q (step a s)) {a : α}
    (ha : p → Q a) : T.Looks p k Q (all.foldlM step a) := by
  induction all generalizing p a with
  | nil => exact .pure a ha
  | cons s rest ih =>
    rw [foldlM_cons]
    exact .before (h a s mem_cons_self ha) fun a' =>
      ih (fun b t ht _ hb => h b t (mem_cons_of_mem _ ht) hb) And.right

end Made

end Terms

end Trance
