import Trance.Proofs.Running.Shadowing

/-!
# Paths into values

Reading a part of a value and changing it are two recursions over a path. Here they are one pair: a
path leads to a part if each of its steps leads to a part of a record or an array, and a write puts
a new part where the path leads. The laws of such pairs are proved for one step and then for a path:
what has been put is read back, the last of two writes counts, and a path that goes another way
reads what it read before, errors included. -/

namespace Trance

open Option Place

/-! ## Tables -/

namespace Table

variable {α ε : Type}

theorem insert_insert (table : Table α) (name : String) (first second : α) :
    (table.insert name first).insert name second = table.insert name second := by
  induction table with
  | nil => simp [insert]
  | cons head rest ih =>
    obtain ⟨key, entry⟩ := head
    by_cases hkey : key = name
    · simp [insert, hkey]
    · simp [insert, hkey, ih]

end Table

namespace Value

/-! ## One step -/

/-- The position that an index selects, in arrays that are long enough. -/
def selects? (index : Value) : Option Nat :=
  (index.number?.bind Number.whole?).bind fun whole =>
    if Number.saturate whole < 0 then none else some (Number.saturate whole).toNat

theorem position_eq_ok_iff {index : Value} {length i : Nat} {loc : Location} :
    index.position length loc = .ok i ↔ index.selects? = some i ∧ i < length := by
  unfold position selects? asNumber
  cases index.number? with
  | none => simp [Attempt.fail, bind, Except.bind]
  | some raw =>
    simp only [bind, Except.bind, bind_some]
    cases Number.whole? raw with
    | none => simp [Attempt.fail]
    | some whole =>
      simp only [bind_some]
      by_cases hneg : Number.saturate whole < 0
      · simp [hneg, Attempt.fail]
      · by_cases hlong : length ≤ (Number.saturate whole).toNat
        · simp only [hneg, hlong, Attempt.fail, decide_true, Bool.or_true, if_true, if_false]
          simp only [reduceCtorEq, Option.some.injEq, false_iff]
          omega
        · simp only [hneg, hlong, decide_false, Bool.or_self, Bool.false_eq_true, if_false,
            Except.ok.injEq, Option.some.injEq]
          omega

def part? : Step → Value → Option Value
  | .field name, .record _ fields => Table.find? fields name
  | .index index, .array items => index.selects?.bind (items[·]?)
  | _, _ => none

def replace (part : Value) : Step → Value → Value
  | .field name, .record typeName fields => .record typeName (Table.insert fields name part)
  | .index index, .array items => .array ((index.selects?.map (items.set · part)).getD items)
  | _, value => value

section

variable {s : Step} {v part new : Value}

theorem part?_eq_some (h : part? s v = some part) :
    (∃ name typeName fields, s = .field name ∧ v = .record typeName fields ∧
      Table.find? fields name = some part) ∨
    ∃ index items i, s = .index index ∧ v = .array items ∧ index.selects? = some i ∧
      i < items.length ∧ items[i]? = some part := by
  cases s with
  | field name =>
    cases v with
    | record typeName fields => exact .inl ⟨name, typeName, fields, rfl, rfl, h⟩
    | _ => cases h
  | index index =>
    cases v with
    | array items =>
      obtain ⟨i, hi, hpart⟩ := bind_eq_some_iff.1 h
      exact .inr ⟨index, items, i, rfl, rfl, hi, (List.getElem?_eq_some_iff.1 hpart).1, hpart⟩
    | _ => cases h

theorem part?_replace (h : part? s v = some part) : part? s (replace new s v) = some new := by
  obtain ⟨name, typeName, fields, rfl, rfl, -⟩ | ⟨index, items, i, rfl, rfl, hi, hbound, -⟩ :=
    part?_eq_some h
  · simp [part?, replace, Table.find?_insert]
  · simp [part?, replace, hi, hbound]

theorem replace_replace (h : part? s v = some part) (last : Value) :
    replace last s (replace new s v) = replace last s v := by
  obtain ⟨name, typeName, fields, rfl, rfl, -⟩ | ⟨index, items, i, rfl, rfl, hi, -⟩ :=
    part?_eq_some h
  · simp [replace, Table.insert_insert]
  · simp [replace, hi]

theorem askType_of_selects {index : Value} {i : Nat} (h : index.selects? = some i)
    (held : Option SessionRef) : index.askType held = .ok () := by
  cases index with
  | session => cases h
  | _ => rfl

theorem modifyAt_cons (held : Option SessionRef) (loc : Location) (change : Value → Attempt Value)
    (rest : List Step) (h : part? s v = some part) :
    modifyAt held loc change (s :: rest) v = (modifyAt held loc change rest part).map
      (replace · s v) := by
  obtain ⟨name, typeName, fields, rfl, rfl, hfind⟩ |
      ⟨index, items, i, rfl, rfl, hi, hbound, hpart⟩ :=
    part?_eq_some h
  · simp only [modifyAt, Table.modify?_eq, hfind, map_some]
    cases modifyAt held loc change rest part <;> rfl
  · have hposition : index.position items.length loc = .ok i := position_eq_ok_iff.2 ⟨hi, hbound⟩
    simp only [modifyAt, askType_of_selects hi, hposition, bind, Except.bind, hpart, getD_some,
      replace, hi, map_some]
    cases modifyAt held loc change rest part <;> rfl

end

/-! ## Paths -/

def get? : List Step → Value → Option Value
  | [], v => some v
  | s :: rest, v => (part? s v).bind (get? rest)

def put (new : Value) : List Step → Value → Value
  | [], _ => new
  | s :: rest, v => ((part? s v).map fun part => replace (put new rest part) s v).getD v

section

variable {steps : List Step} {v old : Value}

/-- **A write succeeds wherever a path leads.** -/
theorem modifyAt_eq_put (held : Option SessionRef) (loc : Location) (h : get? steps v = some old)
    (new : Value) : modifyAt held loc (fun _ => .ok new) steps v = .ok (put new steps v) := by
  induction steps generalizing v with
  | nil => rfl
  | cons s rest ih =>
    obtain ⟨part, hpart, hrest⟩ := bind_eq_some_iff.1 h
    rw [modifyAt_cons held loc _ rest hpart, ih hrest, put, hpart]
    rfl

theorem get?_put (h : get? steps v = some old) (new : Value) :
    get? steps (put new steps v) = some new := by
  induction steps generalizing v with
  | nil => rfl
  | cons s rest ih =>
    obtain ⟨part, hpart, hrest⟩ := bind_eq_some_iff.1 h
    simp only [put, hpart, map_some, getD_some, get?, part?_replace hpart, bind_some]
    exact ih hrest

theorem put_put (h : get? steps v = some old) (new last : Value) :
    put last steps (put new steps v) = put last steps v := by
  induction steps generalizing v with
  | nil => rfl
  | cons s rest ih =>
    obtain ⟨part, hpart, hrest⟩ := bind_eq_some_iff.1 h
    simp only [put, hpart, map_some, getD_some, part?_replace hpart, replace_replace hpart, ih hrest]

end

end Value

/-! ## Paths that go another way -/

namespace Place.Step

/-- Two steps that lead to the same part of every value: indices count by the position that they
select. -/
def Same : Step → Step → Prop
  | .field a, .field b => a = b
  | .index a, .index b => a.selects? = b.selects?
  | _, _ => False

/-- A path leads into another one: it comes first in it, step by step. -/
def Leads : List Step → List Step → Prop
  | [], _ => True
  | _ :: _, [] => False
  | s :: p, t :: q => s.Same t ∧ Leads p q

/-- Neither path leads into the other. -/
def Apart (p q : List Step) : Prop := ¬Leads p q ∧ ¬Leads q p

variable {s t : Step} {p q : List Step}

theorem Same.symm (h : s.Same t) : t.Same s := by
  cases s with
  | field => cases t with
    | field => exact Eq.symm h
    | index => exact h
  | index => cases t with
    | field => exact h
    | index => exact Eq.symm h

theorem Apart.of_cons (h : Apart (s :: p) (t :: q)) : ¬s.Same t ∨ s.Same t ∧ Apart p q := by
  by_cases hsame : s.Same t
  · exact .inr ⟨hsame, fun hleads => h.1 ⟨hsame, hleads⟩, fun hleads => h.2 ⟨hsame.symm, hleads⟩⟩
  · exact .inl hsame

theorem Apart.ne_nil (h : Apart p q) : p ≠ [] ∧ q ≠ [] :=
  ⟨fun hp => h.1 (hp ▸ trivial), fun hq => h.2 (hq ▸ trivial)⟩

end Place.Step

/-! ## Accesses -/

/-- An access to a part of a value, as an expression spells it: to a field, or to the item at a
number. -/
inductive Access where
  | field (name : String) (loc : Location)
  | item (index : Float) (indexLoc loc : Location)

namespace Access

def of (object : Expr) : Access → Expr
  | .field name loc => .field object name loc
  | .item index indexLoc loc => .index object (.number index indexLoc) loc

def step : Access → Step
  | .field name _ => .field name
  | .item index _ _ => .index (.number index)

/-- What an access reads from a value that is no session. -/
def read (v : Value) : Access → Attempt Value
  | .field name loc =>
    match v with
    | .record typeName fields =>
      match Table.find? fields name with
      | some part => .ok part
      | none => Attempt.fail (.missingMember typeName name) loc
    | other => Attempt.fail (.typeError "record or session" other.typeName) loc
  | .item index _ loc => v.at? (.number index) loc

end Access

namespace Value

def isContainer : Value → Bool
  | record .. | array _ => true
  | _ => false

def isSession : Value → Bool
  | session _ => true
  | _ => false

def walk : List Access → Value → Attempt Value
  | [], v => .ok v
  | a :: rest, v => do walk rest (← a.read v)

/-- Every access of a path, as far as the path can be read, goes on from a value of this kind. -/
def Passes (kind : Value → Bool) : List Access → Value → Prop
  | [], _ => True
  | a :: rest, v => kind v ∧ ∀ part, a.read v = .ok part → Passes kind rest part

section

variable {a : Access} {s : Step} {v part new : Value} {path : List Access}

theorem read_of_part? (h : part? a.step v = some part) : a.read v = .ok part := by
  cases a with
  | field name loc =>
    obtain ⟨_, typeName, fields, ⟨⟩, rfl, hfind⟩ | ⟨_, _, _, ⟨⟩, _⟩ := part?_eq_some h
    simp [Access.read, hfind]
  | item index indexLoc loc =>
    obtain ⟨_, _, _, ⟨⟩, _⟩ | ⟨_, items, i, ⟨⟩, rfl, hi, hbound, hpart⟩ := part?_eq_some h
    have hposition : (Value.number index).position items.length loc = .ok i :=
      position_eq_ok_iff.2 ⟨hi, hbound⟩
    simp [Access.read, at?, hposition, hpart, bind, Except.bind, pure, Except.pure]

theorem part?_of_read (hv : v.isContainer = true) (h : a.read v = .ok part) :
    part? a.step v = some part := by
  cases a with
  | field name loc =>
    cases v with
    | record typeName fields =>
      show Table.find? fields name = some part
      simp only [Access.read] at h
      cases hfind : Table.find? fields name with
      | none => rw [hfind] at h; cases h
      | some found => rw [hfind] at h; cases h; rfl
    | array => cases h
    | _ => cases hv
  | item index indexLoc loc =>
    cases v with
    | array items =>
      simp only [Access.read, at?, bind, Except.bind] at h
      cases hposition : (Value.number index).position items.length loc with
      | error e => rw [hposition] at h; cases h
      | ok i =>
        obtain ⟨hi, hbound⟩ := position_eq_ok_iff.1 hposition
        rw [hposition] at h
        cases h
        simp [part?, Access.step, hi, hbound]
    | record => cases h
    | _ => cases hv

theorem isContainer_of_part? (h : part? s v = some part) : v.isContainer = true := by
  obtain ⟨_, _, _, -, rfl, -⟩ | ⟨_, _, _, -, rfl, -⟩ := part?_eq_some h <;> rfl

theorem not_isSession_of_isContainer (h : v.isContainer = true) : (!v.isSession) = true := by
  cases v with
  | session => cases h
  | _ => rfl

theorem part?_of_same (h : s.Same a.step) (v : Value) : part? a.step v = part? s v := by
  cases s with
  | field name =>
    cases a with
    | field other loc => obtain rfl : name = other := h; rfl
    | item => cases h
  | index index =>
    cases a with
    | field => cases h
    | item other otherLoc loc =>
      have hsame : index.selects? = (Value.number other).selects? := h
      cases v <;> simp [part?, Access.step, hsame]

/-- **An access that makes another step reads what it has read before**, also where it fails. -/
theorem read_replace (h : part? s v = some part) (hother : ¬s.Same a.step) :
    a.read (replace new s v) = a.read v := by
  obtain ⟨name, typeName, fields, rfl, rfl, -⟩ | ⟨index, items, i, rfl, rfl, hi, hbound, -⟩ :=
    part?_eq_some h
  · cases a with
    | field other loc =>
      have hne : name ≠ other := hother
      simp [Access.read, replace, Table.find?_insert, hne]
    | item => rfl
  · cases a with
    | field => rfl
    | item other otherLoc loc =>
      have hne : index.selects? ≠ (Value.number other).selects? := hother
      simp only [Access.read, at?, replace, hi, map_some, getD_some, List.length_set, bind,
        Except.bind]
      cases hposition : (Value.number other).position items.length loc with
      | error e => rfl
      | ok j =>
        have hij : i ≠ j := fun hij => hne (by rw [hi, (position_eq_ok_iff.1 hposition).1, hij])
        simp [List.getElem?_set_ne hij]

/-! ## The laws of reading and writing -/

theorem walk_of_get? (h : get? (path.map Access.step) v = some part) :
    walk path v = .ok part ∧ Passes isContainer path v := by
  induction path generalizing v with
  | nil => exact ⟨congrArg Except.ok (Option.some.inj h), trivial⟩
  | cons a rest ih =>
    obtain ⟨first, hfirst, hrest⟩ := bind_eq_some_iff.1 h
    have hread := read_of_part? hfirst
    refine ⟨?_, isContainer_of_part? hfirst, fun next hnext => ?_⟩
    · simp only [walk, hread, bind, Except.bind]
      exact (ih hrest).1
    · cases hread.symm.trans hnext
      exact (ih hrest).2

theorem get?_of_walk (hpasses : Passes isContainer path v) (h : walk path v = .ok part) :
    get? (path.map Access.step) v = some part := by
  induction path generalizing v with
  | nil => exact congrArg some (Except.ok.inj h)
  | cons a rest ih =>
    simp only [walk, bind, Except.bind] at h
    cases hread : a.read v with
    | error e => rw [hread] at h; cases h
    | ok first =>
      rw [hread] at h
      simp only [List.map_cons, get?, part?_of_read hpasses.1 hread, bind_some]
      exact ih (hpasses.2 first hread) h

/-- **A path that goes another way reads what it has read before.** -/
theorem walk_put_of_apart {steps : List Step} {old : Value} (h : get? steps v = some old)
    (new : Value)
    (hapart : Step.Apart steps (path.map Access.step)) (hpasses : Passes (!isSession ·) path v) :
    walk path (put new steps v) = walk path v ∧ Passes (!isSession ·) path (put new steps v) := by
  induction steps generalizing v path with
  | nil => exact absurd rfl hapart.ne_nil.1
  | cons s rest ih =>
    cases path with
    | nil => exact absurd rfl hapart.ne_nil.2
    | cons a others =>
      obtain ⟨part, hpart, hrest⟩ := bind_eq_some_iff.1 h
      have hcontainer : (!(put new (s :: rest) v).isSession) = true := by
        simp only [put, hpart, map_some, getD_some]
        exact not_isSession_of_isContainer (isContainer_of_part? (part?_replace hpart))
      obtain hother | ⟨hsame, hbehind⟩ := hapart.of_cons
      · -- the paths part here: what is read from now on has not changed
        have hread : a.read (put new (s :: rest) v) = a.read v := by
          simp only [put, hpart, map_some, getD_some]
          exact read_replace hpart hother
        refine ⟨by simp only [walk, hread], hcontainer, ?_⟩
        rw [hread]
        exact hpasses.2
      · have hold : a.read v = .ok part := read_of_part? ((part?_of_same hsame v).trans hpart)
        have hnew : a.read (put new (s :: rest) v) = .ok (put new rest part) := by
          simp only [put, hpart, map_some, getD_some]
          exact read_of_part? ((part?_of_same hsame _).trans (part?_replace hpart))
        obtain ⟨hwalk, hgoes⟩ := ih hrest hbehind (hpasses.2 part hold)
        refine ⟨?_, hcontainer, fun next hnext => ?_⟩
        · simp only [walk, hold, hnew, bind, Except.bind]
          exact hwalk
        · cases hnew.symm.trans hnext
          exact hgoes

end

end Value

end Trance
