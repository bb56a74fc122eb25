import Mathlib.Data.List.Nodup
import Trance.Proofs.Running.Alike

/-!
# Scopes that are alike

Scopes are compared from the innermost frame outwards, down to a number of frames that are hidden.
What is below may differ altogether: as long as a call stands above it, or nothing is hidden, no
name leads there. The second scopes may also have a spare frame, a block without names.
-/

namespace Trance

open List Option 

/-! ## Bindings -/

namespace Bindings

variable {bindings bindings' : Bindings} {symbol : Symbol}

theorem name_of_find? {name : String} (h : bindings.find? name = some symbol) :
    symbol.name = name := by
  simpa using find?_some (p := fun symbol : Symbol => symbol.name == name) h

theorem mem_add? (h : bindings.add? symbol = some bindings') {other : Symbol}
    (hother : other ∈ bindings') : other ∈ bindings ∨ other = symbol := by
  unfold add? at h
  split at h
  · cases h
  · cases h
    simpa using hother

theorem find?_add? (h : bindings.add? symbol = some bindings') (name : String) :
    Bindings.find? bindings' name = if symbol.name =
      name then some symbol else bindings.find? name := by
  unfold add? at h
  split at h
  · exact nomatch h
  · rename_i hfree
    obtain rfl := Option.some.inj h
    simp only [has, Bool.not_eq_true, isSome_eq_false_iff, isNone_iff_eq_none] at hfree
    simp only [find?, find?_append, find?_singleton, beq_iff_eq]
    split
    · rename_i hname
      rw [← hname]
      simp only [find?] at hfree
      rw [hfree]
      rfl
    · exact or_none

theorem names_update (bindings : Bindings) (name : String) (change : Symbol → Symbol)
    (hchange : ∀ symbol, (change symbol).name = symbol.name) :
    (bindings.update name change).map Symbol.name = bindings.map Symbol.name := by
  rw [update, List.map_map]
  refine map_congr_left fun symbol _ => ?_
  simp only [Function.comp]
  split
  · exact hchange symbol
  · rfl

theorem nodup_add? (h : bindings.add? symbol = some bindings')
    (hdistinct : (bindings.map Symbol.name).Nodup) : (bindings'.map Symbol.name).Nodup := by
  unfold add? at h
  split at h
  · exact nomatch h
  · rename_i hfree
    obtain rfl := Option.some.inj h
    have hnew : symbol.name ∉ bindings.map Symbol.name := by
      rintro hmem
      obtain ⟨other, hother, hname⟩ := mem_map.1 hmem
      refine hfree (find?_isSome.2 ⟨other, hother, ?_⟩)
      exact beq_iff_eq.2 hname
    rw [map_append, map_singleton]
    exact hdistinct.append (nodup_singleton _) (disjoint_singleton.2 hnew)

theorem find?_update (bindings : Bindings) (name other : String) (change : Symbol → Symbol)
    (hname : ∀ symbol, (change symbol).name = symbol.name) :
    (bindings.update name change).find? other =
      (bindings.find? other).map fun symbol =>
        if symbol.name == name then change symbol else symbol := by
  have hsame : ((fun symbol : Symbol => symbol.name == other) ∘
      fun symbol => if symbol.name == name then change symbol else symbol) =
      fun symbol => symbol.name == other := by
    funext symbol
    simp only [Function.comp]
    split
    · rw [hname]
    · rfl
  rw [update, find?, find?_map, hsame, find?]

section

variable {R : Symbol → Symbol → Prop} (hname : ∀ {a b}, R a b → a.name = b.name) {as bs : Bindings}
  (h : Forall₂ R as bs)
include hname h

theorem alike_find? (name : String) :
    Option.Rel R (Bindings.find? as name) (Bindings.find? bs name) := by
  unfold Bindings.find?
  induction h with
  | nil => exact .none
  | cons hab _ ih =>
    simp only [find?_cons, hname hab]
    split
    · exact .some hab
    · exact ih

theorem alike_has (name : String) : Bindings.has as name = Bindings.has bs name := by
  unfold Bindings.has
  obtain ⟨ha, hb⟩ | ⟨_, _, ha, hb, _⟩ := relates_or_none (alike_find? hname h name)
  · rw [ha, hb]
  · rw [ha, hb]
    rfl

theorem alike_add? {a b : Symbol} (hab : R a b) :
    Option.Rel (Forall₂ R) (Bindings.add? as a) (Bindings.add? bs b) := by
  unfold Bindings.add?
  rw [hname hab, alike_has hname h]
  split
  · exact .none
  · exact .some (rel_append h (.cons hab .nil))

theorem alike_update (name : String) {f g : Symbol → Symbol}
    (hfg : ∀ a ∈ as, ∀ b, R a b → a.name = name → R (f a) (g b)) :
    Forall₂ R (Bindings.update as name f) (Bindings.update bs name g) := by
  unfold Bindings.update
  induction h with
  | nil => exact .nil
  | @cons a b _ _ hab _ ih =>
    obtain ⟨hfirst, hrest⟩ := forall_mem_cons.1 hfg
    refine .cons ?_ (ih hrest)
    simp only [← hname hab, beq_iff_eq]
    split
    · exact hfirst b hab ‹_›
    · exact hab

end

end Bindings

/-- What a name stands for in two runs: nothing, alike symbols, or a symbol that only the first run
`lacks`. -/
inductive Symbol.Found (S : Matching) (lacks : Symbol → Prop) (name : String) :
    Option Symbol → Option Symbol → Prop where
  | neither : Found S lacks name none none
  | both {a b} (symbols : Symbol.Alike S a b) : Found S lacks name (some a) (some b)
  | lacking {b} (lacked : lacks b) (named : b.name = name) : Found S lacks name none (some b)

theorem Symbol.Found.of_rel {S : Matching} {lacks : Symbol → Prop} {name : String}
    {a b : Option Symbol}
    (h : Option.Rel (Symbol.Alike S) a b) : Symbol.Found S lacks name a b := by
  obtain ⟨rfl, rfl⟩ | ⟨_, _, rfl, rfl, hab⟩ := relates_or_none h
  · exact .neither
  · exact .both hab

namespace Bindings

/-- Bindings of the same names to alike symbols, in the same order. If `reorders` allows for it, the
order may be another one, and the first may lack some symbols. -/
def Alike (S : Matching) (reorders : Prop) (lacks : Symbol → Prop) (as bs : Bindings) : Prop :=
  Forall₂ (Symbol.Alike S) as bs ∨
    reorders ∧ ∀ name, Symbol.Found S lacks name (Bindings.find? as name) (Bindings.find? bs name)

namespace Alike

variable {S : Matching} {reorders : Prop} {lacks : Symbol → Prop} {as bs : Bindings}

theorem nil : Alike S reorders lacks [] [] := .inl .nil

theorem find? (h : Alike S reorders lacks as bs) (name : String) :
    Symbol.Found S lacks name (Bindings.find? as name) (Bindings.find? bs name) :=
  h.elim (fun h => .of_rel (alike_find? Symbol.Alike.name h name)) fun h => h.2 name

theorem has (h : Alike S reorders lacks as bs) {name : String}
    (hfound : Bindings.has as name = true) : Bindings.has bs name = true := by
  unfold Bindings.has at hfound ⊢
  have hname := h.find? name
  generalize Bindings.find? as name = a at hname hfound
  generalize Bindings.find? bs name = b at hname
  cases hname with
  | neither | lacking => exact nomatch hfound
  | both => rfl

theorem has_eq (h : Alike S reorders lacks as bs) (hlacks : ∀ symbol, ¬lacks symbol)
    (name : String) : Bindings.has as name = Bindings.has bs name := by
  unfold Bindings.has
  have hname := h.find? name
  generalize Bindings.find? as name = a at hname
  generalize Bindings.find? bs name = b at hname
  cases hname with
  | neither | both => rfl
  | lacking lacked => exact absurd lacked (hlacks _)

theorem add? {a b : Symbol} (h : Alike S reorders lacks as bs) (hab : Symbol.Alike S a b) :
    (∃ symbol, lacks symbol ∧ Bindings.add? bs b = none) ∨
      Option.Rel (Alike S reorders lacks) (Bindings.add? as a) (Bindings.add? bs b) := by
  obtain hlist | ⟨hreorders, hfind⟩ := h
  · right
    obtain ⟨ha, hb⟩ | ⟨_, _, ha, hb, hall⟩ :=
      relates_or_none (alike_add? Symbol.Alike.name hlist hab) <;> rw [ha, hb]
    · exact .none
    · exact .some (.inl hall)
  have hname := hfind a.name
  unfold Bindings.add? Bindings.has
  rw [← hab.name]
  generalize ha : Bindings.find? as a.name = found at hname
  generalize hb : Bindings.find? bs a.name = found' at hname
  cases hname with
  | lacking lacked => exact .inl ⟨_, lacked, rfl⟩
  | both => exact .inr .none
  | neither =>
    refine .inr (.some (.inr ⟨hreorders, fun name => ?_⟩))
    simp only [Bindings.find?, find?_append, find?_singleton, ← hab.name, beq_iff_eq]
    by_cases hname : a.name = name
    · subst hname
      simp only [Bindings.find?] at ha hb
      rw [ha, hb, if_pos rfl, if_pos rfl]
      exact .both hab
    · rw [if_neg hname, if_neg hname, or_none, or_none]
      exact hfind name

theorem assign (h : Alike S reorders lacks as bs) {name : String}
    (hfound : Bindings.has as name = true) {v w : Value} (hvw : Value.Alike S v w) :
    Alike S reorders lacks (Bindings.update as name fun symbol => { symbol with value := some v })
      (Bindings.update bs name fun symbol => { symbol with value := some w }) := by
  have hsymbol : ∀ {a b : Symbol}, Symbol.Alike S a b →
      Symbol.Alike S { a with value := some v } { b with value := some w } :=
    fun hab => ⟨hab.name, hab.kind, hab.typeName, .some hvw⟩
  obtain hlist | ⟨hreorders, hfind⟩ := h
  · exact .inl (alike_update Symbol.Alike.name hlist name fun _ _ _ hab _ => hsymbol hab)
  · refine .inr ⟨hreorders, fun other => ?_⟩
    rw [find?_update as name other _ (by intro; rfl), find?_update bs name other _ (by intro; rfl)]
    have hother := hfind other
    generalize ha : Bindings.find? as other = found at hother
    generalize Bindings.find? bs other = found' at hother
    cases hother with
    | neither => exact .neither
    | @both a b hab =>
      simp only [map_some, beq_iff_eq]
      by_cases hname : a.name = name
      · rw [if_pos hname, if_pos (hab.name.symm.trans hname)]
        exact .both (hsymbol hab)
      · rw [if_neg hname, if_neg (hab.name ▸ hname)]
        exact .both hab
    | @lacking b lacked named =>
      have hname : b.name ≠ name := by
        rintro rfl
        simp [Bindings.has, named, ha] at hfound
      simp only [map_some, map_none, beq_iff_eq, if_neg hname]
      exact .lacking lacked named

end Alike

end Bindings

/-! ## Frames -/

/-- Frames of the given kinds with related bindings, above hidden ones. If there is a spare frame,
the kinds are those of the frames above it. -/
inductive Frames.Alike (B : Bindings → Bindings → Prop) (hidden₁ hidden₂ : List Frame) :
    Bool → List Frame.Kind → List Frame → List Frame → Prop where
  | hidden : Alike B hidden₁ hidden₂ false [] hidden₁ hidden₂
  | frame (kind : Frame.Kind) {spare as bs kinds fs gs} (bindings : B as bs)
      (below : Alike B hidden₁ hidden₂ spare kinds fs gs) :
      Alike B hidden₁ hidden₂ spare (kind :: kinds) (⟨kind, as⟩ :: fs) (⟨kind, bs⟩ :: gs)
  | spare {kinds fs gs} (below : Alike B hidden₁ hidden₂ false kinds fs gs) :
      Alike B hidden₁ hidden₂ true [] fs (⟨.block, []⟩ :: gs)

theorem Frames.Alike.eq_hidden {B : Bindings → Bindings → Prop} {hidden₁ hidden₂ fs gs : List Frame}
    {spare : Bool} (h : Frames.Alike B hidden₁ hidden₂ spare [] fs gs) (hspare : spare = false) :
    fs = hidden₁ ∧ gs = hidden₂ := by
  subst hspare
  cases h
  exact ⟨rfl, rfl⟩

/-- No name leads to what is hidden below frames of some kinds: there is a call among them, or
nothing is hidden. -/
def Sealed (hidden₁ hidden₂ : List Frame) (kinds : List Frame.Kind) : Prop :=
  .call ∈ kinds ∨ (hidden₁ = [] ∧ hidden₂ = [])

namespace Sealed

variable {hidden₁ hidden₂ : List Frame} {kinds : List Frame.Kind}

theorem call (kinds : List Frame.Kind) : Sealed hidden₁ hidden₂ (.call :: kinds) :=
  .inl mem_cons_self

theorem cons (h : Sealed hidden₁ hidden₂ kinds) (kind : Frame.Kind) :
    Sealed hidden₁ hidden₂ (kind :: kinds) :=
  h.imp_left (mem_cons_of_mem kind)

theorem of_block (h : Sealed hidden₁ hidden₂ (.block :: kinds)) : Sealed hidden₁ hidden₂ kinds := by
  simpa [Sealed] using h

theorem nil (h : Sealed hidden₁ hidden₂ []) : hidden₁ = [] ∧ hidden₂ = [] := by
  simpa [Sealed] using h

end Sealed

/-! ## Scopes -/

/-- Scopes whose frames above the hidden ones have related bindings and are of the given kinds, and
whose globals are related in their own way. -/
structure Scopes.Alike (B G : Bindings → Bindings → Prop) (hidden₁ hidden₂ : List Frame)
    (spare : Bool) (kinds : List Frame.Kind) (s t : Scopes) : Prop where
  frames : Frames.Alike B hidden₁ hidden₂ spare kinds s.frames t.frames
  globals : G s.globals t.globals

namespace Scopes.Alike

variable {B G : Bindings → Bindings → Prop} {hidden₁ hidden₂ : List Frame} {spare : Bool}
  {kinds : List Frame.Kind} {s t : Scopes}

theorem enter (hnil : B [] []) (h : Scopes.Alike B G hidden₁ hidden₂ spare kinds s t)
    (kind : Frame.Kind) :
    Scopes.Alike B G hidden₁ hidden₂ spare (kind :: kinds) (s.enter kind) (t.enter kind) :=
  ⟨.frame kind hnil h.frames, h.globals⟩

theorem exit {kind : Frame.Kind} (h : Scopes.Alike B G hidden₁ hidden₂ spare (kind :: kinds) s t) :
    Scopes.Alike B G hidden₁ hidden₂ spare kinds s.exit t.exit := by
  obtain ⟨fs, as⟩ := s
  obtain ⟨gs, bs⟩ := t
  obtain ⟨hframes, hglobals⟩ := h
  cases hframes with
  | frame _ _ below => exact ⟨below, hglobals⟩

variable {name : String}

theorem resolve? {R : Symbol → Symbol → Prop} {Q : Option Symbol → Option Symbol → Prop}
    (hfind : ∀ {as bs}, B as bs → Option.Rel R (Bindings.find? as name) (Bindings.find? bs name))
    (hsome : ∀ {a b}, R a b → Q (some a) (some b))
    (hglobal : Q (Bindings.find? s.globals name) (Bindings.find? t.globals name))
    (h : Scopes.Alike B G hidden₁ hidden₂ spare kinds s t)
    (hsealed : Sealed hidden₁ hidden₂ kinds) : Q (s.resolve? name) (t.resolve? name) := by
  obtain ⟨fs, as⟩ := s
  obtain ⟨gs, bs⟩ := t
  obtain ⟨hframes, -⟩ := h
  simp only [Scopes.resolve?] at hframes hglobal ⊢
  -- from the innermost frame outwards, to the first one that has the name or ends the search
  induction hframes with
  | hidden =>
    obtain ⟨rfl, rfl⟩ := hsealed.nil
    exact hglobal
  | frame kind bindings _ ih =>
    simp only [Scopes.resolveIn]
    obtain ⟨ha, hb⟩ | ⟨_, _, ha, hb, hab⟩ := relates_or_none (hfind bindings) <;> rw [ha, hb]
    · cases kind with
      | call => exact hglobal
      | block => exact ih hsealed.of_block
    · exact hsome hab
  | spare _ ih => exact ih (.inr hsealed.nil)

theorem define? {a b : Symbol} (hadd : ∀ {as bs}, B as bs →
      Option.Rel B (Bindings.add? as a) (Bindings.add? bs b))
    (hglobal : kinds = [] → Option.Rel G (Bindings.add? s.globals a) (Bindings.add? t.globals b))
    (h : Scopes.Alike B G hidden₁ hidden₂ spare kinds s t) (hsealed : Sealed hidden₁ hidden₂ kinds)
    (hspare : spare = true → kinds ≠ []) :
    Option.Rel (Scopes.Alike B G hidden₁ hidden₂ spare kinds) (s.define? a) (t.define? b) := by
  obtain ⟨fs, as⟩ := s
  obtain ⟨gs, bs⟩ := t
  obtain ⟨hframes, hglobals⟩ := h
  simp only [Scopes.define?] at hframes hglobals hglobal ⊢
  cases hframes with
  | hidden =>
    obtain ⟨rfl, rfl⟩ := hsealed.nil
    obtain ⟨ha, hb⟩ | ⟨_, _, ha, hb, hall⟩ := relates_or_none (hglobal rfl) <;> rw [ha, hb]
    · exact .none
    · exact .some ⟨.hidden, hall⟩
  | frame kind bindings below =>
    simp only
    obtain ⟨ha, hb⟩ | ⟨_, _, ha, hb, hall⟩ := relates_or_none (hadd bindings) <;> rw [ha, hb]
    · exact .none
    · exact .some ⟨.frame kind hall below, hglobals⟩
  | spare => exact absurd rfl (hspare rfl)

theorem update? {f g : Symbol → Symbol}
    (hhas : ∀ {as bs}, B as bs → Bindings.has as name = Bindings.has bs name)
    (h : Scopes.Alike B G hidden₁ hidden₂ spare kinds s t) (hsealed : Sealed hidden₁ hidden₂ kinds)
    (hupdate : ∀ {as bs}, B as bs → Bindings.has as name = true →
      Bindings.find? as name = s.resolve? name → B (Bindings.update as name f)
      (Bindings.update bs name g))
    (hglobal : Bindings.find? s.globals name = s.resolve? name →
      Bindings.has s.globals name = Bindings.has t.globals name ∧
      (Bindings.has s.globals name = true → G (Bindings.update s.globals name f)
      (Bindings.update t.globals name g))) :
    Option.Rel (Scopes.Alike B G hidden₁ hidden₂ spare kinds) (s.update? name f)
      (t.update? name g) := by
  obtain ⟨fs, as⟩ := s
  obtain ⟨gs, bs⟩ := t
  obtain ⟨hframes, hglobals⟩ := h
  simp only [Scopes.update?, Scopes.resolve?] at hframes hglobals hupdate hglobal ⊢
  induction hframes with
  | hidden =>
    obtain ⟨rfl, rfl⟩ := hsealed.nil
    obtain ⟨hsame, hchanged⟩ := hglobal rfl
    simp only [Scopes.updateIn, hsame]
    split
    · rename_i hfound
      exact .some ⟨.hidden, hchanged (hsame.trans hfound)⟩
    · exact .none
  | frame kind bindings below ih =>
    simp only [Scopes.updateIn, hhas bindings]
    split
    · rename_i hfound
      rw [← hhas bindings] at hfound
      refine .some ⟨.frame kind (hupdate bindings hfound ?_) below, hglobals⟩
      obtain ⟨symbol, hsymbol⟩ := isSome_iff_exists.1 hfound
      simp only [Scopes.resolveIn, hsymbol]
    · rename_i hmissing
      rw [← hhas bindings, Bindings.has, Bool.not_eq_true, isSome_eq_false_iff,
        isNone_iff_eq_none] at hmissing
      simp only [Scopes.resolveIn, hmissing] at hupdate hglobal
      cases kind with
      | call =>
        obtain ⟨hsame, hchanged⟩ := hglobal rfl
        simp only [hsame]
        split
        · rename_i hfound
          exact .some ⟨.frame .call bindings below, hchanged (hsame.trans hfound)⟩
        · exact .none
      | block =>
        obtain ⟨ha, hb⟩ | ⟨_, _, ha, hb, hall⟩ :=
          relates_or_none (ih hsealed.of_block hupdate hglobal) <;> simp only [ha, hb]
        · exact .none
        · exact .some ⟨.frame .block bindings hall.frames, hall.globals⟩
  | spare _ ih =>
    obtain ⟨ha, hb⟩ | ⟨_, _, ha, hb, hall⟩ :=
      relates_or_none (ih (.inr hsealed.nil) hupdate hglobal) <;>
      simp only [Scopes.updateIn, Bindings.has, Bindings.find?, find?_nil, ha, hb]
    · exact .none
    · exact .some ⟨.spare hall.frames, hall.globals⟩

theorem assign {S : Matching} {reorders : Prop} {lacks : Symbol → Prop}
    (h : Scopes.Alike (Forall₂ (Symbol.Alike S))
      (Bindings.Alike S reorders lacks) hidden₁ hidden₂ spare kinds s t)
    (hsealed : Sealed hidden₁ hidden₂ kinds) (hfound : (s.resolve? name).isSome = true)
    {v w : Value} (hvw : Value.Alike S v w) :
    Scopes.Alike (Forall₂ (Symbol.Alike S)) (Bindings.Alike S reorders lacks) hidden₁ hidden₂
      spare kinds ((s.assign? name v).getD s) ((t.assign? name w).getD t) := by
  have hassign : Option.Rel (Scopes.Alike (Forall₂ (Symbol.Alike S))
      (Bindings.Alike S reorders lacks) hidden₁ hidden₂ spare kinds) (s.assign? name v)
        (t.assign? name w) := by
    refine h.update? (Bindings.alike_has Symbol.Alike.name · name) hsealed
      (fun hbindings _ _ => Bindings.alike_update Symbol.Alike.name hbindings name
        fun _ _ _ hab _ => ⟨hab.name, hab.kind, hab.typeName, .some hvw⟩) fun hglobal => ?_
    have hhas : Bindings.has s.globals name = true := by rwa [Bindings.has, hglobal]
    exact ⟨hhas.trans (h.globals.has hhas).symm, fun _ => h.globals.assign hhas hvw⟩
  obtain ⟨ha, hb⟩ | ⟨_, _, ha, hb, hall⟩ := relates_or_none hassign <;> rw [ha, hb]
  · exact h
  · exact hall

end Scopes.Alike

/-! ## Something is true of all symbols -/

/-- Something is true of all symbols. -/
structure Scopes.All (ok : Symbol → Prop) (s : Scopes) : Prop where
  frames : ∀ frame ∈ s.frames, ∀ symbol ∈ frame.bindings, ok symbol
  globals : ∀ symbol ∈ s.globals, ok symbol

namespace Scopes

variable {s t : Scopes} {ok ok' : Symbol → Prop}

theorem All.imp (h : s.All ok) (himp : ∀ symbol, ok symbol → ok' symbol) : s.All ok' :=
  ⟨fun frame hframe symbol hsymbol => himp _ (h.frames frame hframe symbol hsymbol),
    fun symbol hsymbol => himp _ (h.globals symbol hsymbol)⟩

variable {name : String} {symbol : Symbol}

theorem All.resolveIn {frames : List Frame} {globals : Bindings}
    (h : (⟨frames, globals⟩ : Scopes).All ok)
    (hfound : Scopes.resolveIn frames globals name = some symbol) :
    ok symbol ∧ symbol.name = name := by
  have hglobal : globals.find? name = some symbol → ok symbol ∧ symbol.name = name := fun hfind =>
    ⟨h.globals _ (mem_of_find?_eq_some hfind), Bindings.name_of_find? hfind⟩
  induction frames with
  | nil => exact hglobal hfound
  | cons frame below ih =>
    obtain ⟨hframe, hbelow⟩ := forall_mem_cons.1 h.frames
    rw [Scopes.resolveIn] at hfound
    split at hfound
    · rename_i hfind
      cases hfound
      exact ⟨hframe _ (mem_of_find?_eq_some hfind), Bindings.name_of_find? hfind⟩
    · split at hfound
      · exact hglobal hfound
      · exact ih ⟨hbelow, h.globals⟩ hfound

theorem All.resolve? (h : s.All ok) (hfound : s.resolve? name = some symbol) :
    ok symbol ∧ symbol.name = name :=
  h.resolveIn hfound

theorem All.define? (h : s.All ok) (hsymbol : ok symbol) (hdefine : s.define? symbol = some t) :
    t.All ok := by
  obtain ⟨frames, globals⟩ := s
  cases frames with
  | nil =>
    obtain ⟨after, hadd, rfl⟩ := map_eq_some_iff.1 hdefine
    refine ⟨h.frames, fun other hother => ?_⟩
    obtain hold | rfl := Bindings.mem_add? hadd hother
    · exact h.globals other hold
    · exact hsymbol
  | cons frame below =>
    obtain ⟨hframe, hbelow⟩ := forall_mem_cons.1 h.frames
    obtain ⟨after, hadd, rfl⟩ := map_eq_some_iff.1 hdefine
    refine ⟨forall_mem_cons.2 ⟨fun other hother => ?_, hbelow⟩, h.globals⟩
    obtain hold | rfl := Bindings.mem_add? hadd hother
    · exact hframe other hold
    · exact hsymbol

variable {change : Symbol → Symbol}

theorem all_update {bindings : Bindings} (h : ∀ symbol ∈ bindings, ok symbol)
    (hchange : ∀ symbol, symbol.name = name → ok symbol → ok (change symbol)) :
    ∀ symbol ∈ bindings.update name change, ok symbol := by
  intro symbol hsymbol
  obtain ⟨old, hold, rfl⟩ := mem_map.1 hsymbol
  split
  · rename_i hname
    exact hchange old (by simpa using hname) (h old hold)
  · exact h old hold

/-- **A change is made where the name is found**, in the global frame or in another one. -/
theorem update?_eq_some (h : s.update? name change = some t) :
    ∃ symbol, s.resolve? name = some symbol ∧
      (s.globals.find? name = some symbol ∧ t = { s with globals := s.globals.update name change } ∨
      ∃ above frame below, s.frames = above ++ frame :: below ∧
        frame.bindings.find? name = some symbol ∧
        t = { s with frames := above ++
          { frame with bindings := frame.bindings.update name change } :: below }) := by
  obtain ⟨frames, globals⟩ := s
  simp only [Scopes.update?, Scopes.resolve?] at h ⊢
  induction frames generalizing t with
  | nil =>
    simp only [updateIn, ite_none_right_eq_some, Option.some.injEq] at h
    obtain ⟨symbol, hfind⟩ := isSome_iff_exists.1 h.1
    exact ⟨symbol, hfind, .inl ⟨hfind, h.2.symm⟩⟩
  | cons frame below ih =>
    rw [updateIn, Bindings.has] at h
    rw [Scopes.resolveIn]
    cases hframe : frame.bindings.find? name with
    | some symbol =>
      rw [hframe] at h
      exact ⟨symbol, rfl, .inr ⟨[], frame, below, rfl, hframe, (Option.some.inj h).symm⟩⟩
    | none =>
      simp only [hframe, isSome_none, Bool.false_eq_true, if_false] at h
      cases hkind : frame.kind with
      | call =>
        simp only [hkind, ite_none_right_eq_some, Option.some.injEq] at h
        obtain ⟨symbol, hfind⟩ := isSome_iff_exists.1 h.1
        exact ⟨symbol, hfind, .inl ⟨hfind, h.2.symm⟩⟩
      | block =>
        simp only [hkind, map_eq_some_iff] at h
        obtain ⟨u, hu, rfl⟩ := h
        obtain ⟨symbol, hsymbol, ⟨hfind, rfl⟩ | ⟨above, holder, rest, rfl, hfind, rfl⟩⟩ := ih hu
        · exact ⟨symbol, hsymbol, .inl ⟨hfind, rfl⟩⟩
        · exact ⟨symbol, hsymbol, .inr ⟨frame :: above, holder, rest, rfl, hfind, rfl⟩⟩

theorem All.update? (h : s.All ok)
    (hchange : ∀ symbol, symbol.name = name → ok symbol → ok (change symbol))
    (hupdate : s.update? name change = some t) : t.All ok := by
  obtain ⟨_, -, ⟨-, rfl⟩ | ⟨above, frame, below, hframes, -, rfl⟩⟩ := update?_eq_some hupdate
  · exact ⟨h.frames, all_update h.globals hchange⟩
  · obtain ⟨habove, hbelow⟩ := forall_mem_append.1 (hframes ▸ h.frames)
    obtain ⟨hframe, hbelow⟩ := forall_mem_cons.1 hbelow
    exact ⟨forall_mem_append.2 ⟨habove, forall_mem_cons.2 ⟨all_update hframe hchange, hbelow⟩⟩,
      h.globals⟩

theorem All.enter (h : s.All ok) (kind : Frame.Kind) : (s.enter kind).All ok :=
  ⟨forall_mem_cons.2 ⟨by simp, h.frames⟩, h.globals⟩

theorem All.exit (h : s.All ok) : s.exit.All ok :=
  ⟨fun frame hframe => h.frames frame (mem_of_mem_tail hframe), h.globals⟩

end Scopes

end Trance
