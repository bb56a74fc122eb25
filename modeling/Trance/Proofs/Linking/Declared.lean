import Trance.Proofs.Linking.Gathering
import Trance.Proofs.Linking.Reports
import Trance.Proofs.Running.Visits
import Trance.Proofs.Typing.Sound

/-!
# What the checker takes names for

Before the checker comes to the bodies of a program, it has bound the names that the program
declares, types before suggestions, and then the names of the files that it links. The bodies add
variables and labels. A name that is taken is an error, unless it comes from a linked file. So as
long as there is no error, each name of a program has one declaration there, and the order of the
declarations does not matter; what a name means is what it is first declared to be, with the links
behind the other statements. -/

namespace Trance

open List Option

/-! ## Names and their meanings -/

/-- What a symbol stands for. -/
def Symbol.meaning (symbol : Symbol) : Meaning :=
  match symbol.kind, symbol.value with
  | .suggestion, some (.suggestion decl) => .suggestion decl
  | _, _ => .other

def Symbol.meaning? (name : String) (symbol : Symbol) : Option Meaning :=
  if symbol.name = name then some symbol.meaning else none

/-- What a symbol lets a name mean in files that link the one where it is bound. Labels stay behind.
-/
def Symbol.lasting? (name : String) (symbol : Symbol) : Option Meaning :=
  if symbol.kind = .label then none else symbol.meaning? name

/-- What a name stands for among the bindings of a frame. -/
def Bindings.meaning? (bindings : Bindings) (name : String) : Option Meaning :=
  (bindings.find? name).map Symbol.meaning

def Bindings.lasting? (bindings : Bindings) (name : String) : Option Meaning :=
  List.findSome? (Symbol.lasting? name) bindings

theorem Symbol.meaning_of_kind {symbol : Symbol} (h : symbol.kind ≠ .suggestion) :
    symbol.meaning = .other := by
  unfold meaning
  split
  · rename_i hkind _
    exact absurd hkind h
  · rfl

theorem Symbol.lasting?_eq_some_iff {symbol : Symbol} {name : String} {meaning : Meaning} :
    symbol.lasting? name = some meaning ↔ symbol.kind ≠ .label ∧ symbol.name = name ∧
    symbol.meaning = meaning := by
  simp [lasting?, meaning?]

namespace Bindings

variable {bindings bindings' : Bindings} {symbol : Symbol} {name : String}

theorem lasting?_append (symbol : Symbol) : Bindings.lasting? (bindings ++ [symbol]) name =
    (bindings.lasting? name).or (symbol.lasting? name) := by
  simp only [lasting?, findSome?_append, findSome?_cons_eq_or, findSome?_nil, or_none]

theorem lasting?_filter (symbols : List Symbol) :
    Bindings.lasting? (symbols.filter (·.kind ≠ .label)) name = Bindings.lasting? symbols name := by
  induction symbols with
  | nil => rfl
  | cons symbol rest ih =>
    unfold lasting? at ih ⊢
    by_cases hkind : symbol.kind = .label
    · simpa [hkind, Symbol.lasting?] using ih
    · simp only [filter_cons, ne_eq, hkind, not_false_eq_true, decide_true, if_true, findSome?_cons,
        ih]

theorem eq_append_of_add? (h : bindings.add? symbol = some bindings') :
    bindings' = bindings ++ [symbol] := by
  unfold add? at h
  split at h
  · exact nomatch h
  · exact (Option.some.inj h).symm

theorem lasting?_of_add?_eq_some (h : bindings.add? symbol = some bindings') :
    bindings.lasting? symbol.name = none := by
  have hfree : bindings.has symbol.name = false := by
    unfold add? at h
    split at h
    · exact nomatch h
    · rename_i hfree
      exact Bool.not_eq_true _ |>.mp hfree
  refine findSome?_eq_none_iff.2 fun other hother => ?_
  have hname : other.name ≠ symbol.name := by
    have hnone : bindings.find? symbol.name = none := by simpa [has] using hfree
    simpa using find?_eq_none.1 hnone other hother
  simp [Symbol.lasting?, Symbol.meaning?, hname]

theorem exists_of_add?_eq_none (h : bindings.add? symbol = none) :
    ∃ other ∈ bindings, other.name = symbol.name := by
  have htaken : bindings.has symbol.name = true := by
    unfold add? at h
    split at h
    · assumption
    · exact nomatch h
  obtain ⟨other, hother⟩ := isSome_iff_exists.1 htaken
  exact ⟨other, mem_of_find?_eq_some hother, name_of_find? hother⟩

theorem find?_eq_some_iff (h : (bindings.map Symbol.name).Nodup) :
    bindings.find? name = some symbol ↔ symbol ∈ bindings ∧ symbol.name = name := by
  constructor
  · exact fun hfind => ⟨mem_of_find?_eq_some hfind, name_of_find? hfind⟩
  · rintro ⟨hmem, rfl⟩
    obtain ⟨other, hother⟩ := isSome_iff_exists.1
      ((find?_isSome (p := fun other : Symbol => other.name == symbol.name)).2
        ⟨symbol, hmem, beq_self_eq_true symbol.name⟩)
    rw [find?, hother, inj_on_of_nodup_map h hmem (mem_of_find?_eq_some hother)
      (name_of_find? hother).symm]

theorem lasting?_eq_some_iff (h : (bindings.map Symbol.name).Nodup) {meaning : Meaning} :
    bindings.lasting? name = some meaning ↔
    ∃ symbol ∈ bindings, symbol.lasting? name = some meaning := by
  refine ⟨exists_of_findSome?_eq_some, ?_⟩
  rintro ⟨symbol, hmem, hsymbol⟩
  obtain ⟨found, hfound⟩ := isSome_iff_exists.1
    (findSome?_isSome_iff.2 ⟨symbol, hmem, isSome_of_eq_some hsymbol⟩)
  obtain ⟨symbol', hmem', hsymbol'⟩ := exists_of_findSome?_eq_some hfound
  have hnames : symbol'.name = symbol.name :=
    (Symbol.lasting?_eq_some_iff.1 hsymbol').2.1.trans
      (Symbol.lasting?_eq_some_iff.1 hsymbol).2.1.symm
  obtain rfl := inj_on_of_nodup_map h hmem' hmem hnames
  rw [lasting?, hfound, ← hsymbol', hsymbol]

theorem lasting?_perm {symbols : List Symbol} (hperm : symbols.Perm bindings)
    (h : (bindings.map Symbol.name).Nodup) :
    Bindings.lasting? symbols name = bindings.lasting? name := by
  ext meaning
  rw [lasting?_eq_some_iff ((hperm.map Symbol.name).nodup_iff.2 h), lasting?_eq_some_iff h]
  simp only [hperm.mem_iff]

theorem meaning?_eq_suggestion_iff (h : (bindings.map Symbol.name).Nodup) {decl : Suggestion} :
    bindings.meaning? name = some (.suggestion decl) ↔
    bindings.lasting? name = some (.suggestion decl) := by
  rw [meaning?, map_eq_some_iff, lasting?_eq_some_iff h]
  refine exists_congr fun symbol => ?_
  rw [find?_eq_some_iff h, Symbol.lasting?_eq_some_iff, and_assoc]
  refine and_congr_right fun _ =>
    ⟨fun ⟨hname, hmeaning⟩ => ⟨fun hlabel => ?_, hname, hmeaning⟩, And.right⟩
  rw [Symbol.meaning_of_kind (by simp [hlabel])] at hmeaning
  cases hmeaning

end Bindings

theorem Scopes.define?_of_frames_eq_nil {s : Scopes} (h : s.frames = []) (symbol : Symbol) :
    s.define? symbol = s.defineGlobal? symbol := by
  obtain ⟨frames, globals⟩ := s
  obtain rfl : frames = [] := h
  rfl

/-! ## Scopes -/

/-- Scopes with a number of frames, and what a name means among the globals, labels apart. The kinds
of symbols that are bound there may be limited. -/
structure Scopes.Means (allowed : Symbol.Kind → Prop) (name : String) (meaning : Option Meaning)
    (depth : Nat) (s : Scopes) : Prop where
  frames : s.frames.length = depth
  kinds : ∀ symbol ∈ s.globals, allowed symbol.kind
  distinct : (s.globals.map Symbol.name).Nodup
  lasting : s.globals.lasting? name = meaning

namespace Scopes

variable {allowed : Symbol.Kind → Prop} {name : String} {u : Option Meaning} {k : Nat}
  {s t : Scopes} {symbol : Symbol} {globals : Bindings}

theorem globals_update? {change : Symbol → Symbol} (h : s.update? name change = some t) :
    t.frames.length = s.frames.length ∧
    (t.globals = s.globals ∨ t.globals = s.globals.update name change) := by
  obtain ⟨_, -, ⟨-, rfl⟩ | ⟨above, frame, below, hframes, -, rfl⟩⟩ := update?_eq_some h
  · exact ⟨rfl, .inr rfl⟩
  · exact ⟨by simp [hframes], .inl rfl⟩

namespace Means

theorem empty : Scopes.empty.Means allowed name none 0 := ⟨rfl, nofun, nodup_nil, rfl⟩

theorem unlimited (h : s.Means allowed name u k) : s.Means (fun _ => True) name u k :=
  { h with kinds := fun _ _ => trivial }

theorem add (h : s.Means allowed name u k) (hkind : allowed symbol.kind)
    (hadd : s.globals.add? symbol = some globals) :
    Means allowed name (u.or (symbol.lasting? name)) k { s with globals } where
  frames := h.frames
  kinds := by
    obtain rfl := Bindings.eq_append_of_add? hadd
    intro other hother
    obtain hother | hother := mem_append.1 hother
    · exact h.kinds other hother
    · rwa [mem_singleton.1 hother]
  distinct := Bindings.nodup_add? hadd h.distinct
  lasting := by
    obtain rfl := Bindings.eq_append_of_add? hadd
    exact (Bindings.lasting?_append symbol).trans (by rw [h.lasting])

theorem fresh (h : s.Means allowed name u k) (hadd : s.globals.add? symbol = some globals)
    (hname : symbol.lasting? name ≠ none) : u = none := by
  obtain ⟨meaning, hmeaning⟩ := ne_none_iff_exists'.1 hname
  obtain ⟨-, rfl, -⟩ := Symbol.lasting?_eq_some_iff.1 hmeaning
  exact h.lasting.symm.trans (Bindings.lasting?_of_add?_eq_some hadd)

theorem taken (h : s.Means (· ≠ .label) name u k) (hadd : s.globals.add? symbol = none) :
    u.or (symbol.lasting? name) = u := by
  by_cases hname : symbol.name = name
  · obtain ⟨other, hmem, hother⟩ := Bindings.exists_of_add?_eq_none hadd
    have hmeaning := (Bindings.lasting?_eq_some_iff h.distinct).2
      ⟨other, hmem, Symbol.lasting?_eq_some_iff.2 ⟨h.kinds other hmem, hother.trans hname, rfl⟩⟩
    rw [← h.lasting, hmeaning, some_or]
  · simp [Symbol.lasting?, Symbol.meaning?, hname]

theorem defineGlobal (h : s.Means (· ≠ .label) name u k) (hkind : symbol.kind ≠ .label) :
    ((s.defineGlobal? symbol).getD s).Means (· ≠ .label) name (u.or (symbol.lasting? name)) k := by
  unfold Scopes.defineGlobal?
  cases hadd : s.globals.add? symbol with
  | none => exact (h.taken hadd).symm ▸ h
  | some globals => exact h.add hkind hadd

theorem define (h : s.Means (fun _ => True) name u k) (hdefine : s.define? symbol = some t)
    (hkind : k = 0 → symbol.kind = .label) : t.Means (fun _ => True) name u k := by
  unfold define? at hdefine
  split at hdefine
  · rename_i hframes
    obtain ⟨globals, hadd, rfl⟩ := map_eq_some_iff.1 hdefine
    have hlabel := hkind (by rw [← h.frames, hframes, length_nil])
    have hadded := h.add trivial hadd
    rwa [Symbol.lasting?, if_pos hlabel, or_none] at hadded
  · rename_i frame below hframes
    obtain ⟨bindings, -, rfl⟩ := map_eq_some_iff.1 hdefine
    refine { h with frames := ?_ }
    rw [← h.frames, hframes, length_cons, length_cons]

theorem retype (h : s.Means (fun _ => True) name u k) (other typeName : String) :
    ((s.update? other fun symbol => { symbol with typeName := some typeName }).getD s).Means
      (fun _ => True) name u k := by
  cases hupdate : s.update? other fun symbol => { symbol with typeName := some typeName } with
  | none => exact h
  | some t =>
    obtain ⟨hframes, hglobals | hglobals⟩ := globals_update? hupdate
    · exact ⟨hframes.trans h.frames, fun _ _ => trivial, hglobals ▸ h.distinct, hglobals ▸ h.lasting⟩
    have hnames : t.globals.map Symbol.name = s.globals.map Symbol.name := by
      rw [hglobals, Bindings.update, List.map_map]
      refine map_congr_left fun symbol _ => ?_
      simp only [Function.comp]
      split <;> rfl
    have hlasting : t.globals.lasting? name = s.globals.lasting? name := by
      rw [hglobals, Bindings.lasting?, Bindings.update, findSome?_map, Bindings.lasting?]
      congr 1
      funext symbol
      simp only [Function.comp]
      split <;> rfl
    exact ⟨hframes.trans h.frames, fun _ _ => trivial, hnames.symm ▸ h.distinct,
      hlasting.trans h.lasting⟩

end Means

end Scopes

/-- Steps that bind only labels among the globals leave the meanings of names alone. -/
def Likeness.means (name : String) (u : Option Meaning) : Likeness where
  rel k c d := c = d ∧ d.scopes.Means (fun _ => True) name u k
  opens kind := kind = .label
  resolve? := by rintro _ c _ ⟨rfl, _⟩ _; rfl
  session? := by rintro _ c _ ⟨rfl, _⟩ _; rfl
  record? := by rintro _ c _ ⟨rfl, _⟩ _; rfl
  context := by rintro _ c _ ⟨rfl, _⟩; rfl
  report := by rintro _ c _ ⟨rfl, h⟩ _; exact ⟨rfl, h⟩
  define := by
    rintro _ c _ ⟨rfl, h⟩ symbol hkind
    cases hdefine : c.scopes.define? symbol with
    | none => exact .inl ⟨rfl, rfl⟩
    | some s => exact .inr ⟨s, s, rfl, rfl, rfl, h.define hdefine hkind⟩
  retype := by rintro _ c _ ⟨rfl, h⟩ other typeName; exact ⟨rfl, h.retype other typeName⟩
  know := by rintro _ c _ ⟨rfl, h⟩ _ _; exact ⟨rfl, h⟩
  knowRecord := by rintro _ c _ ⟨rfl, h⟩ _ _; exact ⟨rfl, h⟩
  enter := by rintro _ c _ ⟨rfl, h⟩ kind; exact ⟨rfl,
    { h with frames := congrArg Nat.succ h.frames }⟩
  exit := by
    rintro _ c _ ⟨rfl, h⟩
    refine ⟨rfl, { h with frames := ?_ }⟩
    rw [Scopes.exit, List.length_tail, h.frames, Nat.add_sub_cancel]
  move := by rintro _ c _ ⟨rfl, h⟩ _; exact ⟨rfl, h⟩

/-! ## Steps without errors -/

namespace Check

/-- `Introduces allowed name x v`: unless it reports an error, the step `x` lets a name mean `v`,
which then has meant nothing before. Without `v`, it leaves the name alone. -/
structure Introduces {α : Type} (allowed : Symbol.Kind → Prop) (name : String) (x : Check α)
    (v : Option Meaning) : Prop where
  clean : ∀ {c}, (x.run c).2.report.errors = [] → c.report.errors = []
  means : ∀ {u c}, c.scopes.Means allowed name u 0 → (x.run c).2.report.errors = [] →
    (x.run c).2.scopes.Means allowed name (u.or v) 0
  fresh : ∀ {u c}, c.scopes.Means allowed name u 0 → (x.run c).2.report.errors = [] → v ≠ none →
      u = none

/-- A declaration: bind a name and go on with a step, or report that the name is taken. -/
def bindOr (symbol : Symbol) (step : Check Unit) (finding : Finding) (loc : Location) :
    Check Unit := do
  if ← define symbol then step else report finding loc

theorem bindOr_of_clean {symbol : Symbol} {step : Check Unit} {finding : Finding} {loc : Location}
    (hfinding : finding.code.severity = .error) {c : Checker}
    (h : ((bindOr symbol step finding loc).run c).2.report.errors = []) :
    ∃ s, c.scopes.define? symbol = some s ∧
      (bindOr symbol step finding loc).run c = step.run { c with scopes := s } := by
  unfold bindOr at h ⊢
  rw [StateT.run_bind] at h ⊢
  cases hdefine : c.scopes.define? symbol with
  | none =>
    rw [run_define_none hdefine] at h
    have herrors : (c.report.add (finding.diagnose loc)).errors = [] := h
    simp [Report.add, Diagnostic.severity, Finding.diagnose, hfinding] at herrors
  | some s =>
    rw [run_define_some hdefine]
    exact ⟨s, rfl, rfl⟩

namespace Introduces

variable {α β : Type} {allowed : Symbol.Kind → Prop} {name : String} {v w : Option Meaning}
  {x : Check α}

theorem of_made (link : Follower) {Q : α → Prop} {calls : Checker → List Call}
    {jumps : Context → List (Code × Location)}
    (h : (unlinked (fun kind => kind = .label) link link).Made False 0 Q x x jumps calls) :
    Introduces (fun _ => True) name x none where
  clean {c} hclean := by
    have := h.growing False.elim
    exact prefix_nil.1 (hclean ▸ (grows x c).errors)
  means {u c} hc _ := by
    rw [or_none]
    exact (h.alike (L := .means name u) rfl False.elim c c ⟨rfl, hc⟩).2.2
  fresh _ _ hnone := absurd rfl hnone

theorem pure (a : α) : Introduces allowed name (Pure.pure a) none where
  clean := id
  means {u c} h _ := by rwa [or_none]
  fresh _ _ hnone := absurd rfl hnone

theorem bind {y : α → Check β} (hx : Introduces allowed name x v)
    (hy : ∀ a, Introduces allowed name (y a) w) : Introduces allowed name (x >>= y) (v.or w) where
  clean h := hx.clean ((hy _).clean h)
  means hc h := by
    rw [← Option.or_assoc]
    exact (hy _).means (hx.means hc ((hy _).clean h)) h
  fresh {u c} hc h hsome := by
    have hfirst := (hy _).clean h
    cases v with
    | some meaning => exact hx.fresh hc hfirst nofun
    | none => simpa using (hy _).fresh (hx.means hc hfirst) h hsome

theorem forM {σ : Type} {f : σ → Option Meaning} {step : σ → Check Unit} {all : List σ}
    (h : ∀ s ∈ all, Introduces allowed name (step s) (f s)) :
    Introduces allowed name (all.forM step) (all.findSome? f) := by
  induction all with
  | nil => exact pure ()
  | cons s rest ih =>
    obtain ⟨hs, hrest⟩ := forall_mem_cons.1 h
    rw [findSome?_cons_eq_or]
    exact hs.bind fun _ => ih hrest

theorem inContext (enter : Context → Context) (leave : Context → Context → Context)
    (hx : Introduces allowed name x v) :
    Introduces allowed name (Check.inContext enter leave x) v where
  clean {c} h := hx.clean (c := { c with context := enter c.context }) h
  means {_ c} hc h := hx.means (c := { c with context := enter c.context }) hc h
  fresh {_ c} hc h := hx.fresh (c := { c with context := enter c.context }) hc h

theorem bindOr (symbol : Symbol) {step : Check Unit} {finding : Finding} (loc : Location)
    (hkind : allowed symbol.kind) (hfinding : finding.code.severity = .error)
    (hstep : ∀ c : Checker, (step.run c).2.scopes = c.scopes ∧ (step.run c).2.report = c.report) :
    Introduces allowed name (Check.bindOr symbol step finding loc) (symbol.lasting? name) := by
  have hglobal : ∀ {u} {c : Checker} {s}, c.scopes.Means allowed name u 0 →
      c.scopes.define? symbol = some s →
      ∃ globals, c.scopes.globals.add? symbol = some globals ∧ s = { c.scopes with globals } := by
    intro u c s hc hdefine
    rw [Scopes.define?_of_frames_eq_nil (length_eq_zero_iff.1 hc.frames)] at hdefine
    obtain ⟨globals, hadd, hs⟩ := map_eq_some_iff.1 hdefine
    exact ⟨globals, hadd, hs.symm⟩
  constructor
  · intro c h
    obtain ⟨s, -, hrun⟩ := bindOr_of_clean hfinding h
    rwa [hrun, (hstep _).2] at h
  · intro u c hc h
    obtain ⟨s, hdefine, hrun⟩ := bindOr_of_clean hfinding h
    obtain ⟨globals, hadd, rfl⟩ := hglobal hc hdefine
    rw [hrun, (hstep _).1]
    exact hc.add hkind hadd
  · intro u c hc h hsome
    obtain ⟨s, hdefine, -⟩ := bindOr_of_clean hfinding h
    obtain ⟨globals, hadd, -⟩ := hglobal hc hdefine
    exact hc.fresh hadd hsome

end Introduces

end Check

/-! ## Statements -/

namespace Stmt

def meaningIf (kind : Stmt → Bool) (name : String) (s : Stmt) : Option Meaning :=
  if kind s then s.meaning? name else none

def isType : Stmt → Bool
  | .session _ | .tranceify _ => true
  | _ => false

def isSuggestion : Stmt → Bool
  | .suggestion _ => true
  | _ => false

def isVariable : Stmt → Bool
  | .induce _ => true
  | _ => false

variable {kind before after : Stmt → Bool} {name : String} {s : Stmt} {body : List Stmt}

theorem meaning?_eq (symbol : Symbol) (hname : s.declaredName? = some symbol.name)
    (hmeaning : symbol.meaning = s.declared) : s.meaning? name = symbol.meaning? name := by
  simp [meaning?, hname, Symbol.meaning?, hmeaning]

theorem meaningIf_eq (symbol : Symbol) (hkind : kind s = true)
    (hname : s.declaredName? = some symbol.name)
    (hmeaning : symbol.meaning = s.declared) : s.meaningIf kind name = symbol.meaning? name := by
  rw [meaningIf, if_pos hkind, meaning?_eq symbol hname hmeaning]

theorem meaningIf_or (hkind : s.declaredName? = some name → kind s = (before s || after s)) :
    s.meaningIf kind name = (s.meaningIf before name).or (s.meaningIf after name) := by
  by_cases hname : s.declaredName? = some name
  · simp only [meaningIf, hkind hname]
    cases before s <;> cases after s <;> simp [meaning?, hname]
  · simp [meaningIf, meaning?, hname]

theorem findSome?_congr {f g : Stmt → Option Meaning} (h : ∀ s ∈ body, f s = g s) :
    body.findSome? f = body.findSome? g := by
  induction body with
  | nil => rfl
  | cons s rest ih =>
    obtain ⟨hs, hrest⟩ := forall_mem_cons.1 h
    rw [findSome?_cons_eq_or, findSome?_cons_eq_or, hs, ih hrest]

theorem findSome?_meaningIf_or (hkind : ∀ s : Stmt, s.declaredName? = some name →
      kind s = (before s || after s))
    (hfresh : body.findSome? (meaningIf after name) ≠ none →
      body.findSome? (meaningIf before name) = none) :
    body.findSome? (meaningIf kind name) =
      (body.findSome? (meaningIf before name)).or (body.findSome? (meaningIf after name)) := by
  by_cases hafter : body.findSome? (meaningIf after name) = none
  · rw [hafter, or_none]
    refine findSome?_congr fun s hs => ?_
    rw [meaningIf_or (hkind s), findSome?_eq_none_iff.1 hafter s hs, or_none]
  · rw [hfresh hafter, none_or]
    refine findSome?_congr fun s hs => ?_
    rw [meaningIf_or (hkind s), findSome?_eq_none_iff.1 (hfresh hafter) s hs, none_or]

theorem findSome?_isVariable_ne (decl : Suggestion) :
    body.findSome? (meaningIf isVariable name) ≠ some (.suggestion decl) := by
  intro hfind
  obtain ⟨s, -, hs⟩ := exists_of_findSome?_eq_some hfind
  cases s with
  | induce decl => simp [meaningIf, isVariable, meaning?, declared] at hs
  | _ => cases hs

theorem first_or_eq {links : Option Meaning}
    (hfresh : body.findSome? (meaningIf isVariable name) ≠ none →
      (body.findSome? (meaningIf isDeclaration name)).or links = none) :
    ((body.findSome? (meaningIf isDeclaration name)).or links).or
        (body.findSome? (meaningIf isVariable name)) = (first name body).or links := by
  have hkind : ∀ s : Stmt, s.declaredName? = some name →
      true = (s.isDeclaration || s.isVariable) := by
    intro s hname
    cases s with
    | suggestion | session | tranceify | induce => rfl
    | _ => cases hname
  have hfirst : first name body = (body.findSome? (meaningIf isDeclaration name)).or
      (body.findSome? (meaningIf isVariable name)) :=
    findSome?_meaningIf_or hkind fun hsome => (or_eq_none_iff.1 (hfresh hsome)).1
  rw [hfirst]
  by_cases hvariable : body.findSome? (meaningIf isVariable name) = none
  · rw [hvariable, or_none, or_none]
  · obtain ⟨hdeclared, hlinks⟩ := or_eq_none_iff.1 (hfresh hvariable)
    rw [hdeclared, hlinks, none_or, none_or, or_none]

end Stmt

/-! ## Programs -/

namespace Check

variable (name : String)

theorem introduces_declareTypeName (s : Stmt) :
    Introduces (· ≠ .label) name (declareTypeName s) (s.meaningIf Stmt.isType name) := by
  cases s with
  | session decl =>
    rw [Stmt.meaningIf_eq ⟨decl.name, .session, some decl.name, none⟩ rfl rfl rfl]
    exact .bindOr _ decl.location nofun rfl fun c => ⟨rfl, rfl⟩
  | tranceify decl =>
    rw [Stmt.meaningIf_eq ⟨decl.name, .record, some decl.name, none⟩ rfl rfl rfl]
    exact .bindOr _ decl.location nofun rfl fun c => ⟨rfl, rfl⟩
  | _ => exact .pure ()

theorem introduces_declareSuggestionName (s : Stmt) :
    Introduces (· ≠ .label) name (declareSuggestionName s) (s.meaningIf Stmt.isSuggestion name) := by
  cases s with
  | suggestion decl =>
    rw [Stmt.meaningIf_eq ⟨decl.name, .suggestion, none, some (.suggestion decl)⟩ rfl rfl rfl]
    exact .bindOr _ decl.location nofun rfl fun c => ⟨rfl, rfl⟩
  | _ => exact .pure ()

/-- **The names that a program declares mean what they are declared to be.** -/
theorem introduces_names (p : Program) : Introduces (· ≠ .label) name (names p)
    (p.statements.findSome? (Stmt.meaningIf Stmt.isDeclaration name)) := by
  have htypes : Introduces (· ≠ .label) name (p.statements.forM declareTypeName) _ :=
    .forM fun s _ => introduces_declareTypeName name s
  have hsuggestions : Introduces (· ≠ .label) name (p.statements.forM declareSuggestionName) _ :=
    .forM fun s _ => introduces_declareSuggestionName name s
  have hall := htypes.bind fun _ => hsuggestions
  -- without an error, no name is that of a type and of a suggestion
  have hown : ∀ {u} {c : Checker}, c.scopes.Means (· ≠ .label) name u 0 →
      ((names p).run c).2.report.errors = [] →
      p.statements.findSome? (Stmt.meaningIf Stmt.isDeclaration name) =
        (p.statements.findSome? (Stmt.meaningIf Stmt.isType name)).or
          (p.statements.findSome? (Stmt.meaningIf Stmt.isSuggestion name)) := by
    intro u c hc h
    refine Stmt.findSome?_meaningIf_or (fun s _ => by cases s <;> rfl) fun hsome => ?_
    exact (or_eq_none_iff.1 (hsuggestions.fresh (htypes.means hc (hsuggestions.clean h)) h hsome)).2
  constructor
  · exact hall.clean
  · intro u c hc h
    rw [hown hc h]
    exact hall.means hc h
  · intro u c hc h hsome
    rw [hown hc h] at hsome
    exact hall.fresh hc h hsome

section

variable (link : Follower)

theorem introduces_mainEffect {s : Stmt} {reach : Reach} (h : LinkFree (mainSites reach s)) :
    Introduces (fun _ => True) name (mainEffect link s) (s.meaningIf Stmt.isVariable name) := by
  cases s with
  | induce decl =>
    show Introduces _ name (induce decl) _
    rw [induce_eq]
    have htype : Introduces (fun _ => True) name (inducedType decl) none :=
      .of_made link (Terms.plain_inducedType (admits_unlinked (.induce decl)).1)
    refine htype.bind (w := (Stmt.induce decl).meaningIf Stmt.isVariable name) fun type => ?_
    rw [Stmt.meaningIf_eq ⟨decl.name, .variable, type.map Ty.name, none⟩ rfl rfl rfl]
    exact .bindOr _ decl.location trivial rfl fun c => ⟨rfl, rfl⟩
  | _ =>
    refine .of_made link (Terms.made_mainEffect (.of_linkFree h)
      (admits_unlinked _) fun _ _ kind hkind => ?_)
    cases hkind <;> first | rfl | contradiction

/-- **The bodies of a program give meanings only to its variables.** -/
theorem introduces_bodies {p : Program} (h : LinkFree p.sites) : Introduces (fun _ => True) name
    (bodies link p) (p.statements.findSome? (Stmt.meaningIf Stmt.isVariable name)) := by
  have htop : ∀ s ∈ p.statements, LinkFree (s.topSites (Reach.fresh.within p.statements)) :=
    fun s hs site hsite => h site (mem_flatMap.2 ⟨s, hs, hsite⟩)
  simp only [topSites_eq] at htop
  have hcollect : Introduces (fun _ => True) name (p.statements.forM collectType) none :=
    .of_made link (.forM (P := fun _ => True) fun s _ _ =>
      Terms.looks_collectType (admits_unlinked s).1)
  have hentrances : Introduces (fun _ => True) name (p.statements.forM (entrance link)) none :=
    .of_made link (.forAll fun s hs _ =>
      Terms.made_entrance (.of_linkFree (htop s hs).append.1.append.1) (admits_unlinked s))
  have hdeclarations : Introduces (fun _ => True) name
      (p.statements.forM (declarationBody link)) none :=
    .of_made link (.forAll fun s hs _ =>
      Terms.made_declarationBody (.of_linkFree (htop s hs).append.2) (admits_unlinked s))
  have hmain : Introduces (fun _ => True) name
      (withLabels (labelsOf p.statements) (p.statements.forM (mainEffect link))) _ :=
    .inContext _ _ (.forM fun s hs => introduces_mainEffect name link (htop s hs).append.1.append.2)
  have hall := hcollect.bind fun _ => hentrances.bind fun _ => hmain.bind fun _ => hdeclarations
  rw [none_or, none_or, or_none] at hall
  exact hall

end

end Check

/-! ## Links -/

namespace Check

variable {name : String} {u : Option Meaning} {c : Checker}

theorem scopes_merge (nested : Checker) (path : String) (loc : Location) (symbol : Symbol)
    (c : Checker) :
    ((merge nested path loc symbol).run c).2.scopes =
      (c.scopes.defineGlobal? symbol).getD c.scopes := by
  unfold merge
  simp only [StateT.run_bind, StateT.run_get, pure_bind]
  cases c.scopes.defineGlobal? symbol with
  | none => rfl
  | some scopes =>
    cases symbol.kind with
    | session => cases nested.sessions.find? symbol.name <;> rfl
    | record => cases nested.records.find? symbol.name <;> rfl
    | _ => rfl

theorem means_merges (nested : Checker) (path : String) (loc : Location) {symbols : List Symbol}
    (hkinds : ∀ symbol ∈ symbols, symbol.kind ≠ .label) (hc : c.scopes.Means (· ≠ .label) name u 0) :
    ((symbols.forM (merge nested path loc)).run c).2.scopes.Means (· ≠ .label) name
      (u.or (Bindings.lasting? symbols name)) 0 := by
  induction symbols generalizing u c with
  | nil => exact (or_none (o := u)).symm ▸ hc
  | cons symbol rest ih =>
    obtain ⟨hkind, hrest⟩ := forall_mem_cons.1 hkinds
    have hfirst : ((merge nested path loc symbol).run c).2.scopes.Means (· ≠ .label) name
        (u.or (symbol.lasting? name)) 0 := by
      rw [scopes_merge]
      exact hc.defineGlobal hkind
    rw [Bindings.lasting?, findSome?_cons_eq_or, ← Option.or_assoc]
    exact ih hrest hfirst

theorem means_mergeAll (nested : Checker) (symbols : List Symbol) (path : String) (loc : Location)
    (hc : c.scopes.Means (· ≠ .label) name u 0) :
    ((mergeAll nested symbols path loc).run c).2.scopes.Means (· ≠ .label) name
      (u.or (Bindings.lasting? symbols name)) 0 := by
  rw [← Bindings.lasting?_filter symbols]
  exact means_merges nested path loc (fun symbol hsymbol => by simpa using (mem_filter.1 hsymbol).2)
    (c := { c with
      report := nested.report.all.foldl (fun report d => report.add (d.within path)) c.report
      linked := nested.linked }) hc

end Check

namespace Linker

variable {linker : Linker} {bound : Nat} {name : String} {u : Option Meaning} {c : Checker}

/-- `Declares bound name`: without an error, a link lets a name mean what the linked files declare
first, with the links of each file behind its other statements. -/
def Declares (linker : Linker) (bound : Nat) (name : String) : Prop :=
  ∀ path loc {u : Option Meaning} {c : Checker}, c.scopes.Means (· ≠ .label) name u 0 →
    ((linker.link bound path loc).run c).2.report.errors = [] →
    ((linker.link bound path loc).run c).2.scopes.Means (· ≠ .label) name
      (u.or (Stmt.first name (linker.gather Stmt.linksLast bound c.linked
        (Path.join c.baseDir path)))) 0

theorem Declares.followLinks (h : linker.Declares bound name) (body : List Stmt)
    (hc : c.scopes.Means (· ≠ .label) name u 0)
    (hclean : ((body.forM (Check.followLink (linker.link bound))).run c).2.report.errors = []) :
    ((body.forM (Check.followLink (linker.link bound))).run c).2.scopes.Means (· ≠ .label) name
      (u.or (Stmt.first name (expand (linker.visit bound)
        (linker.gather Stmt.linksLast bound) c.baseDir
        c.linked (body.filter (·.isLink))))) 0 := by
  induction body generalizing u c with
  | nil => exact (or_none (o := u)).symm ▸ hc
  | cons s rest ih =>
    cases s with
    | mindLink path loc =>
      have hgrows := Check.grows (rest.forM (Check.followLink (linker.link bound)))
        ((linker.link bound path loc).run c).2
      have hfirst := h path loc hc (prefix_nil.1 (hclean ▸ hgrows.errors))
      have hrest := ih hfirst hclean
      rw [link_linked, (Check.grows (linker.link bound path loc) c).baseDir, Option.or_assoc,
        ← Stmt.first_append] at hrest
      exact hrest
    | _ =>
      rw [filter_cons_of_neg (by simp [Stmt.isLink])]
      exact ih hc hclean

variable {p : Program}

theorem Declares.program (h : linker.Declares bound name) (hp : LinkFree p.sites)
    (hc : c.scopes.Means (· ≠ .label) name none 0) (hnone : c.deferred = [])
    (hclean : ((Check.program (linker.link bound) p).run c).2.report.errors = []) :
    ((Check.program (linker.link bound) p).run c).2.scopes.Means (fun _ => True) name
      (((p.statements.findSome? (Stmt.meaningIf Stmt.isDeclaration name)).or
          (Stmt.first name (expand (linker.visit bound)
            (linker.gather Stmt.linksLast bound) c.baseDir
            c.linked (p.statements.filter (·.isLink))))).or
        (p.statements.findSome? (Stmt.meaningIf Stmt.isVariable name))) 0 ∧
    (p.statements.findSome? (Stmt.meaningIf Stmt.isVariable name) ≠ none →
      (p.statements.findSome? (Stmt.meaningIf Stmt.isDeclaration name)).or
        (Stmt.first name (expand (linker.visit bound) (linker.gather Stmt.linksLast bound) c.baseDir
          c.linked (p.statements.filter (·.isLink)))) = none) := by
  have hafter : ((Check.program (linker.link bound) p).run c).2 = _ :=
    Check.after_program_of_nil (linker.link bound) p hnone
  rw [hafter] at hclean ⊢
  have hsilent := Check.silent_names p c
  have hnames := Check.introduces_names name p
  have hbodies := Check.introduces_bodies name (linker.link bound) hp
  have hlinked := hbodies.clean hclean
  have hnamed := prefix_nil.1 (hlinked ▸
    (Check.grows (p.statements.forM (Check.followLink (linker.link bound)))
      ((Check.names p).run c).2).errors)
  have hfollowed := h.followLinks p.statements (hnames.means hc hnamed) hlinked
  rw [hsilent.stays, hsilent.baseDir, none_or] at hfollowed
  exact ⟨hbodies.means hfollowed.unlimited hclean, hbodies.fresh hfollowed.unlimited hclean⟩

theorem Declares.nested (h : linker.Declares bound name) (hp : LinkFree p.sites) {target : String}
    {linked : List FileKey} (hclean : (linker.nested bound target linked p).report.errors = []) :
    (linker.nested bound target linked p).scopes.Means (fun _ => True) name
      (Stmt.first name (expand (linker.visit bound) (linker.gather Stmt.linksLast bound)
        (Path.parent target) (linker.files.key target :: linked)
        (Stmt.linksLast p.statements))) 0 := by
  obtain ⟨hmeans, hfresh⟩ := h.program hp
    (c := { Checker.new (Path.parent target) with linked := linker.files.key target :: linked })
    Scopes.Means.empty rfl hclean
  rw [first_expand_linksLast]
  rw [Stmt.first_or_eq hfresh] at hmeans
  exact hmeans

/-- **A link lets a name mean what the linked files declare first**, with the links of each file
behind its other statements. -/
theorem declares_link (harrange : ∀ key symbols, (linker.arrange key symbols).Perm symbols)
    (bound : Nat) (name : String) : linker.Declares bound name := by
  induction bound with
  | zero => exact fun path loc u c hc _ => (or_none (o := u)).symm ▸ hc
  | succ bound ih =>
    intro path loc u c hc hclean
    generalize htarget : Path.join c.baseDir path = target
    rw [gather]
    by_cases hnew : linker.files.key target ∈ c.linked
    · rw [if_pos hnew, link_known bound loc htarget hnew]
      exact (or_none (o := u)).symm ▸ hc
    rw [if_neg hnew]
    cases hload : linker.load? target with
    | none =>
      obtain ⟨finding, hfailed⟩ := exists_link_failed path loc hload
      rw [hfailed bound c htarget hnew]
      exact (or_none (o := u)).symm ▸ hc
    | some p =>
      obtain ⟨source, -, hparse⟩ := load?_eq_some hload
      have hp := Program.linkFree_sites hparse
      rw [link_merged bound loc htarget hnew hload] at hclean ⊢
      rw [Check.errors_mergeAll (sorted_nested hp bound _), append_eq_nil_iff, map_eq_nil_iff]
        at hclean
      have hmeans := ih.nested hp hclean.2
      have hmerged := Check.means_mergeAll (linker.nested bound target c.linked p)
        (linker.arrange (linker.files.key target)
          (linker.nested bound target c.linked p).scopes.globals)
        path loc (c := { c with linked := linker.files.key target :: c.linked }) hc
      rw [Bindings.lasting?_perm (harrange _ _) hmeans.distinct, hmeans.lasting] at hmerged
      exact hmerged

/-- **Which suggestion a name is once a program has been checked without an error**: the one that
the program declares, or else the one that the linked files do. -/
theorem check_suggestion_iff (harrange : ∀ key symbols, (linker.arrange key symbols).Perm symbols)
    (hp : LinkFree p.sites) {dir : String}
    (hclean : (linker.check p (Checker.new dir)).report.errors = []) (name : String)
    (decl : Suggestion) :
    (linker.check p (Checker.new dir)).scopes.globals.meaning? name = some (.suggestion decl) ↔
      (p.statements.findSome? (Stmt.meaningIf Stmt.isDeclaration name)).or
        (Stmt.first name (expand (linker.visit linker.bound)
          (linker.gather Stmt.linksLast linker.bound) dir
          [] (p.statements.filter (·.isLink)))) = some (.suggestion decl) := by
  obtain ⟨hmeans, -⟩ := (declares_link harrange linker.bound name).program hp (c := Checker.new dir)
    Scopes.Means.empty rfl hclean
  refine (Bindings.meaning?_eq_suggestion_iff hmeans.distinct).trans ?_
  -- a variable of the program is no suggestion
  rw [hmeans.lasting, or_eq_some_iff]
  exact ⟨fun h => h.resolve_right fun hvariable =>
    Stmt.findSome?_isVariable_ne decl hvariable.2, .inl⟩

end Linker

end Trance
