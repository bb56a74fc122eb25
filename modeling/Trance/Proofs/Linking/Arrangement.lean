import Mathlib.Data.Option.Basic
import Trance.Proofs.Linking.Declared
import Trance.Proofs.Running.Shadowing

/-!
# The order in which declarations are taken over

The symbols of a linked file are taken over in no particular order. Each of them is bound if its
name is still free, and is skipped with a warning if it is not; since the names of one file are
distinct, no symbol decides about another one. So whatever the order is, in each linked file, at
each level of links, the same names are bound to the same symbols, the same is known about types,
and the same errors are reported. Only the warnings about names that one link brings and that are
taken can change places. -/

namespace Trance

open List Checker

/-! ## Warnings in another order -/

/-- A link as a report tells it: the paths of the links that led to the file it stands in, the
outermost first, the path of the link itself, and its position. -/
structure LinkSite where
  through : List String
  path : String
  location : Location

namespace LinkSite

/-- The warning that a name from a linked file is taken, as it is passed on by the files in between.
-/
def collision (site : LinkSite) (name : String) : Diagnostic :=
  site.through.foldr (fun path d => d.within path)
    ((Finding.linkCollision name site.path).diagnose site.location)

def within (site : LinkSite) (path : String) :
    LinkSite := { site with through := path :: site.through }

@[simp] theorem collision_within (site : LinkSite) (path name : String) :
    (site.within path).collision name = (site.collision name).within path := rfl

end LinkSite

namespace Report

/-- Diagnostics in the same order, but for the collisions of one link, which stand next to each
other in any order. -/
inductive Reordered : List Diagnostic → List Diagnostic → Prop where
  | nil : Reordered [] []
  | cons (d : Diagnostic) {rest rest' : List Diagnostic} (h : Reordered rest rest') :
      Reordered (d :: rest) (d :: rest')
  | link (site : LinkSite) {names names' : List String} (perm : names.Perm names')
      {rest rest' : List Diagnostic} (h : Reordered rest rest') :
      Reordered (names.map site.collision ++ rest) (names'.map site.collision ++ rest')

namespace Reordered

variable {as as' bs bs' : List Diagnostic}

theorem refl : ∀ all : List Diagnostic, Reordered all all
  | [] => .nil
  | d :: rest => .cons d (refl rest)

theorem append (h : Reordered as as') (hb : Reordered bs bs') :
    Reordered (as ++ bs) (as' ++ bs') := by
  induction h with
  | nil => exact hb
  | cons d _ ih => exact .cons d ih
  | link site perm _ ih =>
    rw [append_assoc, append_assoc]
    exact .link site perm ih

theorem within (h : Reordered as as') (path : String) :
    Reordered (as.map (·.within path)) (as'.map (·.within path)) := by
  induction h with
  | nil => exact .nil
  | cons d _ ih => exact .cons _ ih
  | link site perm _ ih =>
    have hpassed : ∀ names : List String, (names.map site.collision).map (·.within path) =
        names.map (site.within path).collision := fun names => by simp
    rw [map_append, map_append, hpassed, hpassed]
    exact .link (site.within path) perm ih

end Reordered

theorem foldl_within (path : String) (passed : List Diagnostic) (r : Report) :
    passed.foldl (fun report d => report.add (d.within path)) r =
      ⟨r.errors ++ (passed.filter (·.severity = .error)).map (·.within path),
        r.warnings ++ (passed.filter (·.severity = .warning)).map (·.within path)⟩ := by
  induction passed generalizing r with
  | nil => simp
  | cons d rest ih =>
    rw [foldl_cons, ih, add, show (d.within path).severity = d.severity from rfl]
    cases hd : d.severity <;> simp [hd]

theorem Sorted.passed_eq {nested : Report} (h : nested.Sorted) (path : String) (r : Report) :
    nested.all.foldl (fun report d => report.add (d.within path)) r =
      ⟨r.errors ++ nested.errors.map (·.within path),
        r.warnings ++ nested.warnings.map (·.within path)⟩ := by
  have herrors : nested.all.filter (·.severity = .error) = nested.errors := by
    rw [all, filter_append, filter_eq_self.2 fun d hd => by simp [h.errors d hd],
      filter_eq_nil_iff.2 fun d hd => by simp [h.warnings d hd], append_nil]
  have hwarnings : nested.all.filter (·.severity = .warning) = nested.warnings := by
    rw [all, filter_append, filter_eq_nil_iff.2 fun d hd => by simp [h.errors d hd],
      filter_eq_self.2 fun d hd => by simp [h.warnings d hd], nil_append]
  rw [foldl_within, herrors, hwarnings]

end Report

/-! ## Bindings in another order -/

namespace Bindings

variable {as bs : Bindings} {name : String} {symbol : Symbol}

theorem find?_perm (hperm : as.Perm bs) (h : (bs.map Symbol.name).Nodup) (name : String) :
    as.find? name = bs.find? name := by
  ext symbol
  rw [find?_eq_some_iff ((hperm.map Symbol.name).nodup_iff.2 h), find?_eq_some_iff h, hperm.mem_iff]

theorem has_perm (hperm : as.Perm bs) (name : String) : as.has name = bs.has name := by
  have hmem : ∀ all : Bindings, all.has name = true ↔ ∃ symbol ∈ all, (symbol.name == name) = true :=
    fun all => find?_isSome
  rw [Bool.eq_iff_iff, hmem, hmem]
  simp only [hperm.mem_iff]

theorem has_append_of_ne (h : symbol.name ≠ name) :
    Bindings.has (as ++ [symbol]) name = as.has name := by
  have hlast : List.find? (fun other : Symbol => other.name == name) [symbol] = none := by simp [h]
  simp only [has, find?, List.find?_append, hlast, Option.or_none]

theorem find?_eq_none_of_notMem (h : name ∉ as.map Symbol.name) : as.find? name = none := by
  refine find?_eq_none.2 fun symbol hsymbol hname => h (mem_map.2 ⟨symbol, hsymbol, ?_⟩)
  exact beq_iff_eq.1 hname

end Bindings

namespace Scopes

variable {frames : List Frame} {globals globals' : Bindings}

theorem resolveIn_perm (hperm : globals.Perm globals') (h : (globals'.map Symbol.name).Nodup)
    (name : String) : resolveIn frames globals name = resolveIn frames globals' name := by
  induction frames with
  | nil => exact Bindings.find?_perm hperm h name
  | cons frame below ih =>
    rw [resolveIn, resolveIn, ih, Bindings.find?_perm hperm h name]

/-- Scopes with the same frames over the same globals, perhaps in another order. -/
def Rearranged (s t : Scopes) : Prop := s.frames = t.frames ∧ s.globals.Perm t.globals

theorem updateIn_perm (hperm : globals.Perm globals') (name : String) (change : Symbol → Symbol) :
    Option.Rel Rearranged (updateIn frames globals name change)
      (updateIn frames globals' name change) := by
  have hglobal : ∀ upper : List Frame, Option.Rel Rearranged
      (if globals.has name then some ⟨upper, globals.update name change⟩ else none)
      (if globals'.has name then some ⟨upper, globals'.update name change⟩ else none) := by
    intro upper
    rw [Bindings.has_perm hperm name]
    split
    · exact .some ⟨rfl, hperm.map _⟩
    · exact .none
  induction frames with
  | nil => exact hglobal []
  | cons frame below ih =>
    rw [updateIn, updateIn]
    split
    · exact .some ⟨rfl, hperm⟩
    · cases frame.kind with
      | call => exact hglobal (frame :: below)
      | block =>
        obtain ⟨hs, ht⟩ | ⟨s, t, hs, ht, hframes, hglobals⟩ := relates_or_none ih
        · simp only [hs, ht]
          exact .none
        · simp only [hs, ht]
          exact .some ⟨congrArg (frame :: ·) hframes, hglobals⟩

end Scopes

/-! ## Checks that differ in an order -/

/-- Checks that differ only in the order in which global names were bound and types became known,
and in the order of warnings about collisions of one link. -/
structure Checker.Rearranged (c d : Checker) : Prop where
  frames : c.scopes.frames = d.scopes.frames
  globals : c.scopes.globals.Perm d.scopes.globals
  distinct : (d.scopes.globals.map Symbol.name).Nodup
  sessions : ∀ name, c.sessions.find? name = d.sessions.find? name
  records : ∀ name, c.records.find? name = d.records.find? name
  errors : c.report.errors = d.report.errors
  warnings : Report.Reordered c.report.warnings d.report.warnings
  baseDir : c.baseDir = d.baseDir
  linked : c.linked = d.linked
  context : c.context = d.context

namespace Checker.Rearranged

variable {c d : Checker}

theorem start (dir : String) (linked : List FileKey) :
    Rearranged { Checker.new dir with linked } { Checker.new dir with linked } :=
  ⟨rfl, .refl _, nodup_nil, fun _ => rfl, fun _ => rfl, rfl, .nil, rfl, rfl, rfl⟩

theorem resolve? (h : Rearranged c d) (name : String) :
    c.scopes.resolve? name = d.scopes.resolve? name := by
  rw [Scopes.resolve?, Scopes.resolve?, h.frames]
  exact Scopes.resolveIn_perm h.globals h.distinct name

theorem add (h : Rearranged c d) (diagnostic : Diagnostic) :
    Rearranged { c with report := c.report.add diagnostic }
      { d with report := d.report.add diagnostic } := by
  unfold Report.add
  cases diagnostic.severity with
  | error => exact { h with errors := by simp only [h.errors] }
  | warning => exact { h with warnings := h.warnings.append (.refl [diagnostic]) }

theorem define (h : Rearranged c d) (symbol : Symbol) :
    (c.scopes.define? symbol = none ∧ d.scopes.define? symbol = none) ∨
    ∃ s t, c.scopes.define? symbol = some s ∧ d.scopes.define? symbol = some t ∧
      Rearranged { c with scopes := s } { d with scopes := t } := by
  unfold Scopes.define?
  rw [h.frames]
  cases d.scopes.frames with
  | nil =>
    simp only [Bindings.add?, Bindings.has_perm h.globals symbol.name]
    cases hfree : d.scopes.globals.has symbol.name with
    | true => exact .inl ⟨rfl, rfl⟩
    | false =>
      have hadd : d.scopes.globals.add? symbol = some (d.scopes.globals ++ [symbol]) := by
        simp [Bindings.add?, hfree]
      exact .inr ⟨_, _, rfl, rfl, { h with
        frames := rfl
        globals := h.globals.append_right [symbol]
        distinct := Bindings.nodup_add? hadd h.distinct }⟩
  | cons frame below =>
    simp only
    cases frame.bindings.add? symbol with
    | none => exact .inl ⟨rfl, rfl⟩
    | some bindings => exact .inr ⟨_, _, rfl, rfl, { h with frames := rfl }⟩

theorem retype (h : Rearranged c d) (name typeName : String) : Rearranged
    { c with scopes := (c.scopes.update? name fun symbol =>
          { symbol with typeName := some typeName }).getD c.scopes }
      { d with scopes := (d.scopes.update? name fun symbol =>
          { symbol with typeName := some typeName }).getD d.scopes } := by
  unfold Scopes.update?
  rw [h.frames]
  obtain ⟨hs, ht⟩ | ⟨s, t, hs, ht, hframes, hglobals⟩ :=
    relates_or_none (Scopes.updateIn_perm h.globals name fun symbol =>
      { symbol with typeName := some typeName })
  · rw [hs, ht]
    exact h
  · rw [hs, ht]
    refine { h with frames := hframes, globals := hglobals, distinct := ?_ }
    obtain ⟨-, hsame | hchanged⟩ := Scopes.globals_update? ht
    · exact hsame ▸ h.distinct
    · rw [Option.getD_some, hchanged, Bindings.names_update _ name _ fun _ => by rfl]
      exact h.distinct

end Checker.Rearranged

def Likeness.rearranged : Likeness where
  rel _ c d := c.Rearranged d
  opens _ := True
  resolve? h := h.resolve?
  session? h := h.sessions
  record? h := h.records
  context h := h.context
  report h := h.add
  define h symbol _ := h.define symbol
  retype h := h.retype
  know h name info :=
    { h with sessions := fun other => by simp only [Table.find?_insert, h.sessions] }
  knowRecord h name info :=
    { h with records := fun other => by simp only [Table.find?_insert, h.records] }
  enter h kind := { h with frames := congrArg (Frame.mk kind [] :: ·) h.frames }
  exit h := { h with frames := congrArg List.tail h.frames }
  move h context := { h with context := rfl }

/-! ## What is taken over -/

/-- The table with the entry of a name set, if there is one to set. -/
def Table.learn {α : Type} (table : Table α) (name : String) : Option α → Table α
  | some entry => table.insert name entry
  | none => table

theorem Table.find?_learn {α : Type} (table : Table α) (name other : String) (entry : Option α) :
    (table.learn name entry).find? other = (if name = other then entry else none).or
    (table.find? other) := by
  cases entry with
  | none => simp [learn]
  | some entry =>
    rw [learn, Table.find?_insert]
    split <;> rfl

namespace Checker

/-- What a check knows about the session that a symbol stands for. -/
def sessionOf? (nested : Checker) (symbol : Symbol) : Option SessionInfo :=
  if symbol.kind = .session then nested.sessions.find? symbol.name else none

/-- What a check knows about the record type that a symbol stands for. -/
def recordOf? (nested : Checker) (symbol : Symbol) : Option RecordInfo :=
  if symbol.kind = .record then nested.records.find? symbol.name else none

/-- The check once a symbol of a linked file has been bound, with what is known about it. -/
def takeOver (nested c : Checker) (symbol : Symbol) : Checker :=
  { c with
    scopes := { c.scopes with globals := c.scopes.globals ++ [symbol] }
    sessions := c.sessions.learn symbol.name (nested.sessionOf? symbol)
    records := c.records.learn symbol.name (nested.recordOf? symbol) }

def free (c : Checker) (symbols : List Symbol) : List Symbol :=
  symbols.filter fun symbol => !c.scopes.globals.has symbol.name

def taken (c : Checker) (symbols : List Symbol) : List String :=
  (symbols.filter fun symbol => c.scopes.globals.has symbol.name).map Symbol.name

/-- The check once all symbols of a linked file have been taken over: those with free names are
bound, and there is a warning about each of the others. -/
def takeOverAll (nested c : Checker) (site : LinkSite) (symbols : List Symbol) : Checker :=
  { c with
    scopes := { c.scopes with globals := c.scopes.globals ++ c.free symbols }
    sessions := (c.free symbols).foldl (fun t s => t.learn s.name (nested.sessionOf? s)) c.sessions
    records := (c.free symbols).foldl (fun t s => t.learn s.name (nested.recordOf? s)) c.records
    report := { c.report with
      warnings := c.report.warnings ++ (c.taken symbols).map site.collision } }

end Checker

theorem Table.find?_foldl_learn {α : Type} (info? : Symbol → Option α) {symbols : List Symbol}
    (h : (symbols.map Symbol.name).Nodup) (table : Table α) (name : String) :
    (symbols.foldl (fun t s => t.learn s.name (info? s)) table).find? name =
      ((Bindings.find? symbols name).bind info?).or (table.find? name) := by
  induction symbols generalizing table with
  | nil => rfl
  | cons symbol rest ih =>
    obtain ⟨hnew, hrest⟩ := nodup_cons.1 h
    rw [foldl_cons, ih hrest, Table.find?_learn]
    by_cases hname : symbol.name = name
    · have hnone : Bindings.find? rest name = none := Bindings.find?_eq_none_of_notMem (hname ▸ hnew)
      have hfirst : Bindings.find? (symbol :: rest) name = some symbol :=
        find?_cons_of_pos (by simpa using hname)
      rw [hnone, hfirst, if_pos hname]
      rfl
    · have hlater : Bindings.find? (symbol :: rest) name = Bindings.find? rest name :=
        find?_cons_of_neg (by simpa using hname)
      rw [hlater, if_neg hname, Option.none_or]

namespace Check

variable {nested nested' c d : Checker} {path : String} {loc : Location}

theorem merge_run (symbol : Symbol) (c : Checker) : ((merge nested path loc symbol).run c).2 =
    if c.scopes.globals.has symbol.name then
      { c with report := c.report.add ((Finding.linkCollision symbol.name path).diagnose loc) }
    else nested.takeOver c symbol := by
  unfold merge Scopes.defineGlobal? Bindings.add?
  simp only [StateT.run_bind, StateT.run_get, pure_bind]
  cases c.scopes.globals.has symbol.name with
  | true => rfl
  | false =>
    unfold takeOver sessionOf? recordOf?
    cases symbol.kind with
    | session => cases nested.sessions.find? symbol.name <;> rfl
    | record => cases nested.records.find? symbol.name <;> rfl
    | _ => rfl

/-- **What is taken over, and what is skipped.** Where the names are distinct, whether a symbol is
bound depends only on the names that were bound before all of them. -/
theorem merges_run {symbols : List Symbol} (h : (symbols.map Symbol.name).Nodup) (c : Checker) :
    ((symbols.forM (merge nested path loc)).run c).2 = nested.takeOverAll c
    ⟨[], path, loc⟩ symbols := by
  induction symbols generalizing c with
  | nil => simp [takeOverAll, free, taken]; rfl
  | cons symbol rest ih =>
    obtain ⟨hnew, hrest⟩ := nodup_cons.1 h
    show ((rest.forM (merge nested path loc)).run ((merge nested path loc symbol).run c).2).2 = _
    rw [ih hrest, merge_run]
    cases htaken : c.scopes.globals.has symbol.name with
    | true =>
      simp only [if_true, takeOverAll, free, taken, htaken, filter_cons,
        Bool.not_true, Bool.false_eq_true, if_false, map_cons]
      simp [Report.add, Diagnostic.severity, Finding.diagnose, Finding.code, Code.severity,
        LinkSite.collision]
    | false =>
      have hsame : ∀ other ∈ rest, (nested.takeOver c symbol).scopes.globals.has other.name =
          c.scopes.globals.has other.name := by
        intro other hother
        refine Bindings.has_append_of_ne fun hname => hnew (mem_map.2 ⟨other, hother, hname.symm⟩)
      have hfree : (nested.takeOver c symbol).free rest = c.free rest :=
        filter_congr fun other hother => by rw [hsame other hother]
      have htakes : (nested.takeOver c symbol).taken rest = c.taken rest :=
        congrArg (List.map Symbol.name) (filter_congr hsame)
      have hfirst : c.free (symbol :: rest) = symbol :: c.free rest := by simp [free, htaken]
      have hnone : c.taken (symbol :: rest) = c.taken rest := by simp [taken, htaken]
      simp only [Bool.false_eq_true, if_false, takeOverAll, hfree, htakes, hfirst, hnone]
      simp [takeOver]

end Check

namespace Checker.Rearranged

variable {nested nested' c d : Checker} {symbols symbols' : List Symbol}

/-- **Symbols of one file, taken over in two orders.** -/
theorem takeOverAll (hnested : nested.Rearranged nested') (h : c.Rearranged d) (site : LinkSite)
    (hperm : symbols.Perm symbols') (hdistinct : (symbols'.map Symbol.name).Nodup) :
    (nested.takeOverAll c site symbols).Rearranged (nested'.takeOverAll d site symbols') := by
  have hhas : ∀ name, c.scopes.globals.has name = d.scopes.globals.has name :=
    Bindings.has_perm h.globals
  have hfree : (c.free symbols).Perm (d.free symbols') := by
    simp only [free, hhas]
    exact hperm.filter _
  have htaken : (c.taken symbols).Perm (d.taken symbols') := by
    simp only [taken, hhas]
    exact (hperm.filter _).map Symbol.name
  have hnames : ((d.free symbols').map Symbol.name).Nodup :=
    hdistinct.sublist (filter_sublist.map Symbol.name)
  have hnames' : ((c.free symbols).map Symbol.name).Nodup :=
    (hfree.map Symbol.name).nodup_iff.2 hnames
  have hfind := Bindings.find?_perm hfree hnames
  refine { h with
    globals := h.globals.append hfree
    distinct := ?_
    sessions := fun name => ?_
    records := fun name => ?_
    warnings := ?_ }
  · -- a symbol that is bound has a name that was free
    rw [Checker.takeOverAll, map_append]
    refine h.distinct.append hnames fun name hname hnew => ?_
    obtain ⟨symbol, hsymbol, rfl⟩ := mem_map.1 hnew
    obtain ⟨other, hother, hsame⟩ := mem_map.1 hname
    have hhas : d.scopes.globals.has symbol.name = true :=
      find?_isSome.2 ⟨other, hother, beq_iff_eq.2 hsame⟩
    have hfree := (mem_filter.1 hsymbol).2
    rw [hhas] at hfree
    cases hfree
  · have hinfo : nested.sessionOf? = nested'.sessionOf? :=
      funext fun symbol => by simp only [sessionOf?, hnested.sessions]
    simp only [Checker.takeOverAll, Table.find?_foldl_learn _ hnames',
      Table.find?_foldl_learn _ hnames, hfind, hinfo, h.sessions]
  · have hinfo : nested.recordOf? = nested'.recordOf? :=
      funext fun symbol => by simp only [recordOf?, hnested.records]
    simp only [Checker.takeOverAll, Table.find?_foldl_learn _ hnames',
      Table.find?_foldl_learn _ hnames, hfind, hinfo, h.records]
  · have hlink := Report.Reordered.link site htaken .nil
    rw [append_nil, append_nil] at hlink
    exact h.warnings.append hlink

end Checker.Rearranged

namespace Check

variable {nested nested' : Checker} {symbols symbols' : List Symbol}

/-- **What a linked file has reported and declared is taken over alike in any order.** -/
theorem rearranged_mergeAll (hnested : nested.Rearranged nested') (hsorted : nested.report.Sorted)
    (hsorted' : nested'.report.Sorted) (hperm : symbols.Perm nested.scopes.globals)
    (hperm' : symbols'.Perm nested'.scopes.globals) (path : String) (loc : Location) (k : Nat) :
    Alike .rearranged k (mergeAll nested symbols path loc) (mergeAll nested' symbols' path loc) := by
  have hsymbols : symbols.Perm symbols' := (hperm.trans hnested.globals).trans hperm'.symm
  have hdistinct : (symbols'.map Symbol.name).Nodup :=
    (hperm'.map Symbol.name).nodup_iff.2 hnested.distinct
  have hkept : ((symbols'.filter (·.kind ≠ .label)).map Symbol.name).Nodup :=
    hdistinct.sublist (filter_sublist.map Symbol.name)
  have hkept' : ((symbols.filter (·.kind ≠ .label)).map Symbol.name).Nodup :=
    ((hsymbols.filter _).map Symbol.name).nodup_iff.2 hkept
  refine .bind (.change fun c d h => ?_) fun _ c d h => ⟨rfl, ?_⟩
  · rw [hsorted.passed_eq, hsorted'.passed_eq]
    exact { (h : c.Rearranged d) with
      errors := by rw [h.errors, hnested.errors]
      warnings := h.warnings.append (hnested.warnings.within path)
      linked := hnested.linked }
  · rw [merges_run hkept', merges_run hkept]
    exact hnested.takeOverAll h _ (hsymbols.filter _) hkept

theorem rearranged_program {link link' : Follower} [∀ path loc, Blind (link path loc)]
    [∀ path loc, Blind (link' path loc)]
    (hlink : ∀ path loc k, Alike .rearranged k (link path loc) (link' path loc)) (p : Program)
    {c d : Checker} (h : c.Rearranged d) (hc : c.deferred = []) (hd : d.deferred = []) :
    (c.after (program link p)).Rearranged (d.after (program link' p)) := by
  have hnames := (alike_names (L := .rearranged) (k := 0) (fun _ => trivial) p c d h).2
  have hlinks : Alike .rearranged 0 (p.statements.forM (followLink link))
      (p.statements.forM (followLink link')) := by
    refine .forM fun s _ => ?_
    cases s with
    | mindLink path loc => exact hlink path loc 0
    | _ => exact .pure ()
  have hbodies : Alike .rearranged 0 (bodies link p) (bodies link' p) :=
    (Terms.made_bodies (T := .lax (fun _ => True) True link link') (q := False) (fun _ _ => trivial)
      (fun _ _ _ => trivial) fun _ _ => .of_forall (Terms.lax_admits _ _ _ _)).alike rfl fun _ =>
        hlink
  rw [after_program_of_nil link p hc, after_program_of_nil link' p hd]
  exact (hbodies _ _ (hlinks _ _ hnames).2).2

end Check

namespace Linker

section

variable (files : Store) {arrange arrange' : FileKey → List Symbol → List Symbol}
  (h : ∀ key symbols, (arrange key symbols).Perm symbols)
  (h' : ∀ key symbols, (arrange' key symbols).Perm symbols)
include h h'

/-- **Links keep checks alike, in whatever order declarations are taken over.** By induction on the
nesting of links. -/
theorem rearranged_link (bound : Nat) (path : String) (loc : Location) (k : Nat) :
    Check.Alike .rearranged k (link ⟨files, arrange⟩ bound path loc)
      (link ⟨files, arrange'⟩ bound path loc) := by
  induction bound generalizing path loc k with
  | zero => exact .pure ()
  | succ bound ih =>
    refine .get fun c d hcd => ?_
    have hbase : c.baseDir = d.baseDir := hcd.baseDir
    have hlinked : c.linked = d.linked := hcd.linked
    simp only [hbase, hlinked]
    refine .ite (.pure ()) (.bind (.change fun c d hcd => ?_) fun _ => ?_)
    · exact { (hcd : c.Rearranged d) with linked := congrArg (_ :: ·) hcd.linked }
    cases files.read (Path.join d.baseDir path) with
    | error e => exact .report _ loc
    | ok source =>
      simp only
      cases hparse : Program.ofText (files.key (Path.join d.baseDir path)).origin source with
      | error e => exact .report _ loc
      | ok p =>
        have hfree := Program.linkFree_sites hparse
        have hnested := Check.rearranged_program ih p
          (.start (Path.parent (Path.join d.baseDir path))
          (files.key (Path.join d.baseDir path) :: d.linked)) rfl rfl
        exact Check.rearranged_mergeAll hnested (sorted_nested hfree bound d.linked)
          (sorted_nested hfree bound d.linked) (h _ _) (h' _ _) path loc k

theorem rearranged_checks (programs : List Program) {c d : Checker} (hcd : c.Rearranged d)
    (hc : c.deferred = [])
    (hd : d.deferred = []) : (programs.foldl (fun c p => check ⟨files, arrange⟩ p c) c).Rearranged
      (programs.foldl (fun d p => check ⟨files, arrange'⟩ p d) d) := by
  induction programs generalizing c d with
  | nil => exact hcd
  | cons p rest ih =>
    exact ih (Check.rearranged_program (rearranged_link files h h' _) p hcd hc hd)
      (Check.deferred_program _ p c) (Check.deferred_program _ p d)

end

/-- **The order in which declarations of linked files are taken over makes no difference.** Let one
checker check any programs, one after the other, and let another one do the same that takes over the
declarations of each linked file in another order. Then every name stands for the same, in the same
frames, and the same global symbols are there; the same is known about sessions and record types;
the same errors have been reported in the same order. The warnings are the same too, and in the same
order, except that warnings about collisions of one link may have changed places. -/
theorem arrangement_makes_no_difference (files : Store)
    {arrange arrange' : FileKey → List Symbol → List Symbol}
    (h : ∀ key symbols, (arrange key symbols).Perm symbols)
    (h' : ∀ key symbols, (arrange' key symbols).Perm symbols) (dir : String)
    (programs : List Program) :
    let c := programs.foldl (fun c p => check ⟨files, arrange⟩ p c) (Checker.new dir)
    let d := programs.foldl (fun d p => check ⟨files, arrange'⟩ p d) (Checker.new dir)
    (c.scopes.frames = d.scopes.frames ∧ c.scopes.globals.Perm d.scopes.globals ∧
      ∀ name, c.scopes.resolve? name = d.scopes.resolve? name) ∧
    (∀ name, c.sessions.find? name = d.sessions.find? name) ∧
    (∀ name, c.records.find? name = d.records.find? name) ∧
    c.report.errors = d.report.errors ∧
    Report.Reordered c.report.warnings d.report.warnings := by
  have hchecked := rearranged_checks files h h' programs (.start dir []) rfl rfl
  exact ⟨⟨hchecked.frames, hchecked.globals, hchecked.resolve?⟩, hchecked.sessions,
    hchecked.records, hchecked.errors, hchecked.warnings⟩

end Linker

/-! ## An example of two collisions -/

def Program.couple : Program :=
  ⟨[.induce ⟨"x", none, .value (.text "1" ⟨1, 18⟩), ⟨1, 7⟩⟩,
    .induce ⟨"y", none, .value (.text "2" ⟨1, 34⟩), ⟨1, 23⟩⟩]⟩

def Suggestion.idle (name : String) (column : Nat) : Suggestion :=
  ⟨name, [], none, [], false, false, ⟨1, column⟩, .file ["a.hyp"]⟩

/-- The program in `a.hyp` declares two suggestions, and links a file with variables of the same
names. -/
def Program.rivals : Program :=
  ⟨[.suggestion (Suggestion.idle "x" 7), .suggestion (Suggestion.idle "y" 25),
    .mindLink "b.hyp" ⟨1, 43⟩]⟩

def Store.rivals : Store :=
  .pair "Focus suggestion x() \x7b\x7d suggestion y() \x7b\x7d mindLink \"b.hyp\"; Relax"
    "Focus induce x = \"1\"; induce y = \"2\"; Relax"

def Checker.rivals : Checker :=
  { Checker.new (Path.parent "a.hyp") with
    scopes := ⟨[], [⟨"x", .suggestion, none, some (.suggestion (Suggestion.idle "x" 7))⟩,
      ⟨"y", .suggestion, none, some (.suggestion (Suggestion.idle "y" 25))⟩]⟩
    linked := [Store.rivals.key "a.hyp"] }

namespace Linker

theorem load?_rivals : (ofFiles .rivals).load? "a.hyp" = some .rivals :=
  load?_pair_first (by with_unfolding_all rfl)

theorem load?_couple : (ofFiles .rivals).load? "b.hyp" = some .couple :=
  load?_pair_second (by with_unfolding_all rfl)

variable (arrange : FileKey → List Symbol → List Symbol)

theorem nested_rivals : nested ⟨.rivals, arrange⟩ 2 "a.hyp" [] .rivals =
    ((Check.bodies (link ⟨.rivals, arrange⟩ 2) .rivals).run
      ((link ⟨.rivals, arrange⟩ 2 "b.hyp" ⟨1, 43⟩).run .rivals).2).2 :=
  Check.after_program_of_nil (link ⟨.rivals, arrange⟩ 2) .rivals rfl

theorem link_couple : ((link ⟨.rivals, arrange⟩ 2 "b.hyp" ⟨1, 43⟩).run .rivals).2 =
    ((Check.mergeAll (nested ⟨.rivals, arrange⟩ 1 "b.hyp" [Store.rivals.key "a.hyp"] .couple)
      (arrange (Store.rivals.key "b.hyp") [⟨"x", .variable, some Ty.text.name, none⟩,
        ⟨"y", .variable, some Ty.text.name, none⟩]) "b.hyp" ⟨1, 43⟩).run
      { rivals with linked := [Store.rivals.key "b.hyp", Store.rivals.key "a.hyp"] }).2 :=
  @link_merged ⟨.rivals, arrange⟩ _ _ .rivals _ 1
    ⟨1, 43⟩ Path.join_parent_pair Store.key_pair_notMem load?_couple

theorem check_rivals : check ⟨.rivals, arrange⟩ ⟨[.mindLink "a.hyp" ⟨1, 7⟩]⟩ (Checker.new "") =
    ((Check.mergeAll (nested ⟨.rivals, arrange⟩ 2 "a.hyp" [] .rivals)
      (arrange (Store.rivals.key "a.hyp")
        (nested ⟨.rivals, arrange⟩ 2 "a.hyp" [] .rivals).scopes.globals)
      "a.hyp" ⟨1, 7⟩).run { Checker.new "" with linked := [Store.rivals.key "a.hyp"] }).2 :=
  (check_eq_after ⟨[.mindLink "a.hyp" ⟨1, 7⟩]⟩ rfl).trans
    (@link_merged ⟨.rivals, arrange⟩ _ _ (Checker.new "") _ 2 ⟨1, 7⟩
      (Path.join_empty "a.hyp") not_mem_nil load?_rivals)

/-- Two warnings, that come from a link inside a linked file, change places; nothing else does. -/
theorem reversal_makes_no_difference :
    let c := check (ofFiles .rivals) ⟨[.mindLink "a.hyp" ⟨1, 7⟩]⟩ (Checker.new "")
    let d := check ⟨.rivals, fun _ => List.reverse⟩ ⟨[.mindLink "a.hyp" ⟨1, 7⟩]⟩ (Checker.new "")
    let site : LinkSite := ⟨["a.hyp"], "b.hyp", ⟨1, 43⟩⟩
    c.report.warnings = [site.collision "x", site.collision "y"] ∧
    d.report.warnings = [site.collision "y", site.collision "x"] ∧
    c.scopes.globals = d.scopes.globals.reverse ∧ c.scopes.globals.length = 2 ∧
    (∀ name, c.scopes.resolve? name = d.scopes.resolve? name) ∧ c.report.errors = d.report.errors ∧
    Report.Reordered c.report.warnings d.report.warnings := by
  have h := arrangement_makes_no_difference .rivals (fun _ symbols => .refl symbols)
    (fun _ symbols => symbols.reverse_perm) "" [⟨[.mindLink "a.hyp" ⟨1, 7⟩]⟩]
  refine ⟨?_, ?_, ?_, ?_, h.1.2.2, h.2.2.2⟩
  · rw [ofFiles, check_rivals, nested_rivals, link_couple]
    rfl
  · rw [check_rivals, nested_rivals, link_couple]
    rfl
  · rw [ofFiles, check_rivals, check_rivals, nested_rivals, nested_rivals, link_couple, link_couple]
    rfl
  · rw [ofFiles, check_rivals, nested_rivals, link_couple]
    rfl

end Linker

end Trance
