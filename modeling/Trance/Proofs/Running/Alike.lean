import Mathlib.Data.List.Forall2
import Mathlib.Data.Option.Defs
import Trance.Running.Place

/-!
# Values that are alike

Two runs can be compared although the suggestions in them differ in their bodies. Values are alike
if they are equal but for suggestions, and suggestions are alike if they correspond to each
other and have the same signature. No operation on values can tell alike values apart.
-/

namespace Trance

open List

/-! ## Suggestions -/

/-- Which suggestions of two runs correspond to each other. They may differ in their bodies only. -/
structure Matching where
  rel : Suggestion → Suggestion → Prop
  signature : ∀ {a b}, rel a b → b = { a with body := b.body }

namespace Matching

def equal : Matching where
  rel := Eq
  signature h := h ▸ rfl

variable {S : Matching} {a b : Suggestion}

theorem name_eq (h : S.rel a b) : a.name = b.name := by rw [S.signature h]

theorem params_eq (h : S.rel a b) : a.params = b.params := by rw [S.signature h]

theorem imperative_eq (h : S.rel a b) : a.imperative = b.imperative := by rw [S.signature h]

theorem dominant_eq (h : S.rel a b) : a.dominant = b.dominant := by rw [S.signature h]

theorem location_eq (h : S.rel a b) : a.location = b.location := by rw [S.signature h]

theorem origin_eq (h : S.rel a b) : a.origin = b.origin := by rw [S.signature h]

end Matching

/-! ## Options and attempts -/

/-- Whether an error is that of a jump which nothing takes up. No operation on values has one. -/
def RuntimeError.isJump : RuntimeError → Bool
  | .raised (.unresolvedLabel _) _ | .raised (.jumpOutsideLoop _) _ => true
  | _ => false

section

variable {α β : Type} {R : α → β → Prop}

theorem relates_or_none {x : Option α} {y : Option β} (h : Option.Rel R x y) :
    (x = none ∧ y = none) ∨ ∃ a b, x = some a ∧ y = some b ∧ R a b := by
  cases h with
  | none => exact .inl ⟨rfl, rfl⟩
  | some h => exact .inr ⟨_, _, rfl, rfl, h⟩

/-- Attempts with related results, or with the same error. -/
inductive Attempt.Alike (R : α → β → Prop) : Attempt α → Attempt β → Prop where
  | ok {a b} (h : R a b) : Alike R (.ok a) (.ok b)
  | error (e : RuntimeError) (he : e.isJump = false) : Alike R (.error e) (.error e)

theorem Attempt.Alike.bind {γ δ : Type} {R' : γ → δ → Prop} {x : Attempt α} {y : Attempt β}
    {f : α → Attempt γ} {g : β → Attempt δ} (h : Attempt.Alike R x y)
    (hfg : ∀ a b, R a b → Attempt.Alike R' (f a) (g b)) : Attempt.Alike R' (x >>= f) (y >>= g) := by
  cases h with
  | ok h => exact hfg _ _ h
  | error e he => exact .error e he

theorem Attempt.Alike.map {γ δ : Type} {R' : γ → δ → Prop} {x : Attempt α} {y : Attempt β}
    {f : α → γ} {g : β → δ} (h : Attempt.Alike R x y) (hfg : ∀ a b, R a b → R' (f a) (g b)) :
    Attempt.Alike R' (x.map f) (y.map g) := by
  cases h with
  | ok h => exact .ok (hfg _ _ h)
  | error e he => exact .error e he

end

/-! ## Tables -/

/-- Tables with the same names in the same order whose entries are related. -/
inductive Table.Alike {α β : Type} (R : α → β → Prop) : Table α → Table β → Prop where
  | nil : Alike R [] []
  | cons (name : String) {a b as bs} (entry : R a b) (rest : Alike R as bs) :
      Alike R ((name, a) :: as) ((name, b) :: bs)

namespace Table.Alike

variable {α β : Type} {R : α → β → Prop} {as : Table α} {bs : Table β}

theorem find? (h : Table.Alike R as bs) (name : String) :
    Option.Rel R (Table.find? as name) (Table.find? bs name) := by
  induction h with
  | nil => exact .none
  | cons key entry _ ih =>
    simp only [Table.find?]
    split
    · exact .some entry
    · exact ih

theorem of_forall₂ (h : Forall₂ (fun a b => a.1 = b.1 ∧ R a.2 b.2) as bs) : Table.Alike R as bs := by
  induction h with
  | nil => exact .nil
  | @cons a b _ _ hab _ ih =>
    obtain ⟨name, v⟩ := a
    obtain ⟨_, w⟩ := b
    obtain ⟨rfl, hvw⟩ := hab
    exact .cons name hvw ih

theorem has (h : Table.Alike R as bs) (name : String) : Table.has as name = Table.has bs name := by
  unfold Table.has
  obtain ⟨ha, hb⟩ | ⟨_, _, ha, hb, _⟩ := relates_or_none (h.find? name) <;>
    simp only [ha, hb, Option.isSome_none, Option.isSome_some]

theorem insert (h : Table.Alike R as bs) (name : String) {a : α} {b : β} (hab : R a b) :
    Table.Alike R (Table.insert as name a) (Table.insert bs name b) := by
  induction h with
  | nil => exact .cons name hab .nil
  | cons key entry rest ih =>
    simp only [Table.insert]
    split
    · exact .cons key hab rest
    · exact .cons key entry ih

theorem modify? (h : Table.Alike R as bs) (name : String) {f : α → Attempt α} {g : β → Attempt β}
    (hfg : ∀ a b, R a b → Attempt.Alike R (f a) (g b)) :
    Option.Rel (Attempt.Alike (Table.Alike R)) (Table.modify? as name f)
      (Table.modify? bs name g) := by
  induction h with
  | nil => exact .none
  | @cons key a b as bs entry rest ih =>
    simp only [Table.modify?]
    split
    · exact .some ((hfg a b entry).map fun _ _ h => .cons key h rest)
    · obtain ⟨ha, hb⟩ | ⟨_, _, ha, hb, h⟩ := relates_or_none ih <;> rw [ha, hb]
      · exact .none
      · exact .some (h.map fun _ _ h => .cons key entry h)

theorem refl {R : α → α → Prop} (hR : ∀ a, R a a) (as : Table α) : Table.Alike R as as := by
  induction as with
  | nil => exact .nil
  | cons entry _ ih => exact .cons entry.1 (hR entry.2) ih

end Table.Alike

/-! ## Values -/

/-- Values that are equal but for corresponding suggestions. -/
inductive Value.Alike (S : Matching) : Value → Value → Prop where
  | number (n : Float) : Alike S (.number n) (.number n)
  | text (s : String) : Alike S (.text s) (.text s)
  | boolean (b : Bool) : Alike S (.boolean b) (.boolean b)
  | array {as bs} (items : Forall₂ (Alike S) as bs) : Alike S (.array as) (.array bs)
  | record (typeName : String) {as bs} (fields : Table.Alike (Alike S) as bs) :
      Alike S (.record typeName as) (.record typeName bs)
  | session (ref : SessionRef) : Alike S (.session ref) (.session ref)
  | suggestion {a b} (h : S.rel a b) : Alike S (.suggestion a) (.suggestion b)
  | null : Alike S .null .null

namespace Value.Alike

variable {S : Matching} {v w v' w' : Value}

theorem typeName (h : Value.Alike S v w) : v.typeName = w.typeName := by
  cases h <;> rfl

theorem number? (h : Value.Alike S v w) : v.number? = w.number? := by
  cases h <;> rfl

theorem truthy (h : Value.Alike S v w) : v.truthy = w.truthy := by
  cases h <;> rfl

mutual

theorem toText : ∀ {v w : Value}, Value.Alike S v w → v.toText = w.toText
  | .number _, _, .number _ | .text _, _, .text _ | .boolean _, _, .boolean _
  | .session _, _, .session _ | .null, _, .null => rfl
  | .array as, _, .array items => by simp only [Value.toText, itemTexts items]
  | .record name as, _, .record _ fields => by simp only [Value.toText, fieldTexts fields]
  | .suggestion _, _, .suggestion h => by simp only [Value.toText, Matching.name_eq h]

theorem itemTexts : ∀ {as bs : List Value}, Forall₂ (Value.Alike S) as bs →
    Value.itemTexts as = Value.itemTexts bs
  | [], _, .nil => rfl
  | a :: as, _, .cons h rest => by simp only [Value.itemTexts, toText h, itemTexts rest]

theorem fieldTexts : ∀ {as bs : List (String × Value)}, Table.Alike (Value.Alike S) as bs →
    Value.fieldTexts as = Value.fieldTexts bs
  | [], _, .nil => rfl
  | (name, a) :: as, _, .cons _ h rest => by simp only [Value.fieldTexts, toText h, fieldTexts rest]

end

mutual

theorem same : ∀ {v w v' w' : Value}, Value.Alike S v w → Value.Alike S v' w' → v.same v' = w.same w'
  | .array _, _, _, _, .array items, h' => by
    cases h' with
    | array items' => simp only [Value.same, sameItems items items']
    | _ => rfl
  | .record _ _, _, _, _, .record _ fields, h' => by
    cases h' with
    | record _ fields' => simp only [Value.same, sameFields fields fields']
    | _ => rfl
  | .suggestion _, _, _, _, .suggestion h, h' => by
    cases h' with
    | suggestion h' =>
      simp only [Value.same, SuggestionOf.isSame, Matching.origin_eq h, Matching.origin_eq h',
        Matching.location_eq h, Matching.location_eq h']
    | _ => rfl
  | .number _, _, _, _, .number _, h' | .text _, _, _, _, .text _, h'
  | .boolean _, _, _, _, .boolean _, h' | .session _, _, _, _, .session _, h'
  | .null, _, _, _, .null, h' => by cases h' <;> rfl

theorem sameItems : ∀ {as bs as' bs' : List Value}, Forall₂ (Value.Alike S) as bs →
    Forall₂ (Value.Alike S) as' bs' → Value.sameItems as as' = Value.sameItems bs bs'
  | [], _, _, _, .nil, h' => by cases h' <;> rfl
  | a :: as, _, _, _, .cons h rest, .nil => rfl
  | a :: as, _, _, _, .cons h rest, .cons h' rest' => by
    simp only [Value.sameItems, same h h', sameItems rest rest']

theorem sameFields : ∀ {as bs as' bs' : List (String × Value)}, Table.Alike (Value.Alike S) as bs →
    Table.Alike (Value.Alike S) as' bs' → Value.sameFields as as' = Value.sameFields bs bs'
  | [], _, _, _, .nil, h' => by cases h' <;> rfl
  | (name, a) :: as, _, _, _, .cons _ h rest, .nil => rfl
  | (name, a) :: as, _, _, _, .cons _ h rest, .cons _ h' rest' => by
    simp only [Value.sameFields, same h h', sameFields rest rest']

end

/-! ## Equality -/

mutual

theorem refl (hS : ∀ a, S.rel a a) : ∀ v : Value, Value.Alike S v v
  | .number n => .number n
  | .text s => .text s
  | .boolean b => .boolean b
  | .array as => .array (refl_items hS as)
  | .record name as => .record name (refl_fields hS as)
  | .session ref => .session ref
  | .suggestion a => .suggestion (hS a)
  | .null => .null

theorem refl_items (hS : ∀ a, S.rel a a) : ∀ as : List Value, Forall₂ (Value.Alike S) as as
  | [] => .nil
  | a :: as => .cons (refl hS a) (refl_items hS as)

theorem refl_fields (hS : ∀ a, S.rel a a) : ∀ as :
    List (String × Value), Table.Alike (Value.Alike S) as as
  | [] => .nil
  | (name, a) :: as => .cons name (refl hS a) (refl_fields hS as)

end

mutual

theorem eq (hS : ∀ {a b}, S.rel a b → a = b) : ∀ {v w : Value}, Value.Alike S v w → v = w
  | .number _, _, .number _ | .text _, _, .text _ | .boolean _, _, .boolean _
  | .session _, _, .session _ | .null, _, .null => rfl
  | .array _, _, .array items => by rw [eq_items hS items]
  | .record _ _, _, .record _ fields => by rw [eq_fields hS fields]
  | .suggestion _, _, .suggestion h => by rw [hS h]

theorem eq_items (hS : ∀ {a b}, S.rel a b → a = b) :
    ∀ {as bs : List Value}, Forall₂ (Value.Alike S) as bs → as = bs
  | [], _, .nil => rfl
  | _ :: _, _, .cons h rest => by rw [eq hS h, eq_items hS rest]

theorem eq_fields (hS : ∀ {a b}, S.rel a b → a = b) :
    ∀ {as bs : List (String × Value)}, Table.Alike (Value.Alike S) as bs → as = bs
  | [], _, .nil => rfl
  | (_, _) :: _, _, .cons _ h rest => by rw [eq hS h, eq_fields hS rest]

end

/-! ## Operators -/

theorem asNumber (h : Value.Alike S v w) (loc : Location) :
    Attempt.Alike Eq (v.asNumber loc) (w.asNumber loc) := by
  simp only [Value.asNumber, h.number?, h.typeName]
  cases w.number? with
  | none => exact .error _ rfl
  | some n => exact .ok rfl

theorem onNumbers (h : Value.Alike S v w) (h' : Value.Alike S v' w') (loc : Location)
    {f : Float → Float → Attempt Value} (hf : ∀ l r, Attempt.Alike (Value.Alike S) (f l r) (f l r)) :
    Attempt.Alike (Value.Alike S) (BinaryOp.onNumbers v v' loc f)
      (BinaryOp.onNumbers w w' loc f) := by
  refine (h.asNumber loc).bind ?_
  rintro l _ rfl
  refine (h'.asNumber loc).bind ?_
  rintro r _ rfl
  exact hf l r

theorem add (h : Value.Alike S v w) (h' : Value.Alike S v' w') (loc : Location) :
    Attempt.Alike (Value.Alike S) (BinaryOp.add.apply v v' loc) (BinaryOp.add.apply w w' loc) := by
  have htext : Attempt.Alike (Value.Alike S) (.ok (.text (v.toText ++ v'.toText)))
      (.ok (.text (w.toText ++ w'.toText))) := by
    rw [h.toText, h'.toText]
    exact .ok (.text _)
  have hnumbers := h.onNumbers h' loc fun l r => .ok (.number (l + r))
  cases h <;> cases h' <;> first | exact htext | exact hnumbers

theorem divide {f : Float → Float → Float} {loc : Location} (l r : Float) :
    Attempt.Alike (Value.Alike S) (BinaryOp.divide f loc l r) (BinaryOp.divide f loc l r) := by
  unfold BinaryOp.divide
  split
  · exact .error _ rfl
  · exact .ok (.number _)

theorem binary (h : Value.Alike S v w) (h' : Value.Alike S v' w') (op : BinaryOp) (loc : Location) :
    Attempt.Alike (Value.Alike S) (op.apply v v' loc) (op.apply w w' loc) := by
  cases op with
  | add => exact h.add h' loc
  | sub | mul => exact h.onNumbers h' loc fun _ _ => .ok (.number _)
  | div | mod => exact h.onNumbers h' loc divide
  | lt | le | gt | ge => exact h.onNumbers h' loc fun _ _ => .ok (.boolean _)
  | eq | ne => simp only [BinaryOp.apply, h.same h']; exact .ok (.boolean _)
  | conj | disj => simp only [BinaryOp.apply, h.truthy, h'.truthy]; exact .ok (.boolean _)

theorem unary (h : Value.Alike S v w) (op : UnaryOp) (loc : Location) :
    Attempt.Alike (Value.Alike S) (op.apply v loc) (op.apply w loc) := by
  cases op with
  | not => simp only [UnaryOp.apply, h.truthy]; exact .ok (.boolean _)
  | neg | plus =>
    refine (h.asNumber loc).bind ?_
    rintro n _ rfl
    exact .ok (.number _)

/-! ## Items -/

theorem position (h : Value.Alike S v w) (length : Nat) (loc : Location) :
    Attempt.Alike Eq (v.position length loc) (w.position length loc) := by
  refine (h.asNumber loc).bind ?_
  rintro raw _ rfl
  cases Number.whole? raw with
  | none => exact .error _ rfl
  | some whole =>
    simp only
    split
    · exact .error _ rfl
    · exact .ok rfl

theorem getD_null {as bs : List Value} (h : Forall₂ (Value.Alike S) as bs) (i : Nat) :
    Value.Alike S (as[i]?.getD .null) (bs[i]?.getD .null) := by
  induction h generalizing i with
  | nil => exact .null
  | cons first _ ih =>
    cases i with
    | zero => exact first
    | succ i => exact ih i

theorem set {as bs : List Value} (h : Forall₂ (Value.Alike S) as bs) (i : Nat)
    (hvw : Value.Alike S v w) : Forall₂ (Value.Alike S) (as.set i v) (bs.set i w) := by
  induction h generalizing i with
  | nil => exact .nil
  | cons first rest ih =>
    cases i with
    | zero => exact .cons hvw rest
    | succ i => exact .cons first (ih i)

theorem at? (h : Value.Alike S v w) (h' : Value.Alike S v' w') (loc : Location) :
    Attempt.Alike (Value.Alike S) (v.at? v' loc) (w.at? w' loc) := by
  cases h with
  | array items =>
    simp only [Value.at?, items.length_eq]
    refine (h'.position _ loc).bind ?_
    rintro i _ rfl
    exact .ok (getD_null items i)
  | text s =>
    refine (h'.position _ loc).bind ?_
    rintro i _ rfl
    refine .ok ?_
    cases s.toList[i]? with
    | none => exact .null
    | some c => exact .text _
  | number | boolean | record | session | suggestion | null => exact .error _ rfl

end Value.Alike

/-! ## Places -/

/-- Steps of a path that lead to the same part of alike values. -/
inductive Place.Step.Alike (S : Matching) : Place.Step → Place.Step → Prop where
  | field (name : String) : Alike S (.field name) (.field name)
  | index {v w} (h : Value.Alike S v w) : Alike S (.index v) (.index w)

/-- Places with the same root and paths that lead to the same part. -/
structure Place.Alike (S : Matching) (p q : Place) : Prop where
  root : p.root = q.root
  path : Forall₂ (Place.Step.Alike S) p.path q.path

variable {S : Matching} {v w : Value}

theorem Place.Alike.step {p q : Place} (h : Place.Alike S p q) {s t : Place.Step}
    (hst : Place.Step.Alike S s t) : Place.Alike S (p.step s) (q.step t) :=
  ⟨h.root, rel_append h.path (.cons hst .nil)⟩

theorem Value.Alike.askType (h : Value.Alike S v w) (held : Option SessionRef) :
    Attempt.Alike Eq (v.askType held) (w.askType held) := by
  have hsame : v.isHeld held = w.isHeld held := by cases h <;> rfl
  unfold Value.askType
  rw [hsame]
  split
  · exact .error _ rfl
  · exact .ok rfl

theorem Value.Alike.mismatch {α β : Type} {R : α → β → Prop} (h : Value.Alike S v w)
    (held : Option SessionRef) (expected : String) (loc : Location) : Attempt.Alike R
      (do v.askType held; Attempt.fail (.typeError expected v.typeName) loc)
      (do w.askType held; Attempt.fail (.typeError expected w.typeName) loc) := by
  rw [h.typeName]
  exact (h.askType held).bind fun _ _ _ => .error _ rfl

theorem Value.Alike.modifyAt {held : Option SessionRef} {loc : Location}
    {f g : Value → Attempt Value}
    (hfg : ∀ v w, Value.Alike S v w → Attempt.Alike (Value.Alike S) (f v) (g w))
    {path path' : List Place.Step} (hpath : Forall₂ (Place.Step.Alike S) path path')
    (h : Value.Alike S v w) :
    Attempt.Alike (Value.Alike S) (Value.modifyAt held loc f path v)
      (Value.modifyAt held loc g path' w) := by
  induction hpath generalizing v w with
  | nil => exact hfg v w h
  | cons step rest ih =>
    cases step with
    | field name =>
      have hmismatch : Attempt.Alike (Value.Alike S) _ _ := h.mismatch held "record or session" loc
      cases h with
      | record typeName fields =>
        have hmodify := fields.modify? name fun a b hab => ih hab
        simp only [Value.modifyAt]
        obtain ⟨ha, hb⟩ | ⟨_, _, ha, hb, hfields⟩ := relates_or_none hmodify <;> rw [ha, hb]
        · exact .error _ rfl
        · exact hfields.bind fun _ _ h => .ok (.record typeName h)
      | number | text | boolean | array | session | suggestion | null => exact hmismatch
    | index hindex =>
      have hmismatch : Attempt.Alike (Value.Alike S) _ _ := h.mismatch held "array" loc
      cases h with
      | array items =>
        simp only [Value.modifyAt, items.length_eq]
        refine (hindex.askType held).bind fun _ _ _ => (hindex.position _ loc).bind ?_
        rintro i _ rfl
        exact (ih (Value.Alike.getD_null items i)).bind fun _ _ h =>
          .ok (.array (Value.Alike.set items i h))
      | number | text | boolean | record | session | suggestion | null => exact hmismatch

/-! ## Symbols and objects -/

/-- Symbols that differ only in values that are alike. -/
structure Symbol.Alike (S : Matching) (a b : Symbol) : Prop where
  name : a.name = b.name
  kind : a.kind = b.kind
  typeName : a.typeName = b.typeName
  value : Option.Rel (Value.Alike S) a.value b.value

theorem Symbol.Alike.of_value {v w : Option Value} (h : Option.Rel (Value.Alike S) v w)
    (name : String) (kind : Symbol.Kind) (typeName : Option String) :
    Symbol.Alike S ⟨name, kind, typeName, v⟩ ⟨name, kind, typeName, w⟩ :=
  ⟨rfl, rfl, rfl, h⟩

/-- Objects that differ only in values and methods that are alike. -/
structure Instance.Alike (S : Matching) (a b : Instance) : Prop where
  name : a.name = b.name
  fields : Table.Alike (Value.Alike S) a.fields b.fields
  methods : Table.Alike S.rel a.methods b.methods
  concealed : a.concealed = b.concealed

/-- Members that declare the same field, or corresponding methods. -/
inductive MemberDecl.Alike (S : Matching) : MemberDecl → MemberDecl → Prop where
  | field (decl : Variable) : Alike S (.field decl) (.field decl)
  | method {a b} (h : S.rel a b) : Alike S (.method a) (.method b)

/-- Members that declare the same, with the same modifiers. -/
structure Member.Alike (S : Matching) (a b : Member) : Prop where
  decl : MemberDecl.Alike S a.decl b.decl
  exposed : a.exposed = b.exposed
  dominant : a.dominant = b.dominant

/-- Sessions whose members are alike. -/
structure Session.Alike (S : Matching) (a b : Session) : Prop where
  name : a.name = b.name
  members : Forall₂ (Member.Alike S) a.members b.members
  location : a.location = b.location

section

variable {S : Matching}

theorem Member.Alike.name {a b : Member} (h : Member.Alike S a b) : a.name = b.name := by
  unfold MemberOf.name
  obtain ⟨a, _, _⟩ := a
  obtain ⟨b, _, _⟩ := b
  cases h.decl with
  | field decl => rfl
  | method hab => exact Matching.name_eq hab

theorem Session.Alike.constructor? {a b : Session} (h : Session.Alike S a b) :
    Option.Rel S.rel a.constructor? b.constructor? := by
  have hmembers := h.members
  unfold SessionOf.constructor?
  generalize a.members = ms at hmembers ⊢
  generalize b.members = ns at hmembers ⊢
  induction hmembers with
  | nil => exact .none
  | @cons m n ms ns hmn _ ih =>
    obtain ⟨m, _, _⟩ := m
    obtain ⟨n, _, _⟩ := n
    cases hmn.decl with
    | field decl => exact ih
    | @method c d hcd =>
      simp only [findSome?_cons, Matching.name_eq hcd]
      by_cases hname : d.name = constructorName
      · simp only [hname, beq_self_eq_true, if_true]
        exact .some hcd
      · simp only [beq_eq_false_iff_ne.2 hname, Bool.false_eq_true, if_false]
        exact ih

namespace Instance.Alike

variable {a b : Instance}

theorem empty (name : String) : Instance.Alike S (Instance.empty name) (Instance.empty name) :=
  ⟨rfl, .nil, .nil, rfl⟩

theorem conceals (h : Instance.Alike S a b) (member : String) :
    a.conceals member = b.conceals member := by
  simp only [Instance.conceals, h.concealed]

theorem mark (h : Instance.Alike S a b) {m n : Member} (hmn : Member.Alike S m n) :
    Instance.Alike S (a.mark m) (b.mark n) := by
  simp only [Instance.mark, h.conceals, hmn.exposed, hmn.name]
  split
  · exact h
  · exact ⟨h.name, h.fields, h.methods, by simp only [h.concealed]⟩

theorem setField (h : Instance.Alike S a b) (name : String) (hvw : Value.Alike S v w) :
    Instance.Alike S (a.setField name v) (b.setField name w) :=
  ⟨h.name, h.fields.insert name hvw, h.methods, h.concealed⟩

theorem setMethod (h : Instance.Alike S a b) {c d : Suggestion} (hcd : S.rel c d) :
    Instance.Alike S (a.setMethod c) (b.setMethod d) := by
  refine ⟨h.name, h.fields, ?_, h.concealed⟩
  simp only [Instance.setMethod, Matching.name_eq hcd]
  exact h.methods.insert d.name hcd

theorem member? (h : Instance.Alike S a b) (name : String) :
    Option.Rel (Value.Alike S) (a.member? name) (b.member? name) := by
  unfold Instance.member?
  obtain ⟨ha, hb⟩ | ⟨_, _, ha, hb, hvw⟩ := relates_or_none (h.fields.find? name) <;> rw [ha, hb]
  · obtain ⟨ha, hb⟩ | ⟨_, _, ha, hb, hcd⟩ := relates_or_none (h.methods.find? name) <;> rw [ha, hb]
    · exact .none
    · exact .some (.suggestion hcd)
  · exact .some hvw

end Instance.Alike

end

end Trance
