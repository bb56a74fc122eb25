import Trance.Running.Machine
import Trance.Proofs.Running.Parts

/-!
# What statements, values and objects hold

A statement holds expressions and binds names, a value holds other values, and an object has a
shape: everything about it but the values of its fields. The shape of an object can be read off the
declaration of its session before anything is evaluated. -/

namespace Trance

open List

/-! ## Statements inside of statements -/

variable {s child : Stmt} {e : Expr}

theorem mem_listParts {body : List Stmt} : s ∈ listParts body ↔ ∃ top ∈ body, s = top ∨
    s ∈ top.inner := by
  induction body with
  | nil => simp [listParts]
  | cons first rest ih => simp [listParts, ih, or_assoc]

theorem Stmt.mem_inner_of_mem_children (h : child ∈ s.children) : child ∈ s.inner := by
  rw [inner_eq, mem_listParts]
  exact ⟨child, h, .inl rfl⟩

theorem Stmt.mem_inner_of_child {top : Stmt} (h : s ∈ top.inner) (hchild : child ∈ s.children) :
    child ∈ top.inner := by
  induction top using Stmt.induction_children with
  | h top ih =>
    rw [inner_eq, mem_listParts] at h ⊢
    obtain ⟨next, hnext, rfl | hinner⟩ := h
    · exact ⟨s, hnext, .inr (mem_inner_of_mem_children hchild)⟩
    · exact ⟨next, hnext, .inr (ih next hnext hinner)⟩

theorem mem_listParts_of_child {body : List Stmt} (h : s ∈ listParts body)
    (hchild : child ∈ s.children) : child ∈ listParts body := by
  rw [mem_listParts] at h ⊢
  obtain ⟨top, htop, rfl | hinner⟩ := h
  · exact ⟨s, htop, .inr (Stmt.mem_inner_of_mem_children hchild)⟩
  · exact ⟨top, htop, .inr (Stmt.mem_inner_of_child hinner hchild)⟩

/-! ## Expressions of statements -/

mutual

def Expr.inner : Expr → List Expr
  | .number .. | .text .. | .boolean .. | .name .. => []
  | .binary _ left right _ => left :: (Expr.inner left ++ right :: Expr.inner right)
  | .unary _ operand _ => operand :: Expr.inner operand
  | .call callee args _ => callee :: (Expr.inner callee ++ exprParts args)
  | .field object _ _ => object :: Expr.inner object
  | .index object position _ => object :: (Expr.inner object ++ position :: Expr.inner position)
  | .assign target value _ => target :: (Expr.inner target ++ value :: Expr.inner value)
  | .record _ fields _ => givenParts fields
  | .array items _ => exprParts items

/-- The expressions of a list and all expressions inside of them. -/
def exprParts : List Expr → List Expr
  | [] => []
  | first :: rest => first :: (Expr.inner first ++ exprParts rest)

/-- The expressions that fields are given, and all expressions inside of them. -/
def givenParts : List (String × Expr) → List Expr
  | [] => []
  | (_, first) :: rest => first :: (Expr.inner first ++ givenParts rest)

end

theorem givenParts_eq (fields : List (String × Expr)) :
    givenParts fields = exprParts (fields.map Prod.snd) := by
  induction fields with
  | nil => rfl
  | cons first rest ih => rw [givenParts, map_cons, exprParts, ih]

theorem Expr.inner_eq (e : Expr) : e.inner = exprParts e.children := by
  cases e with
  | record typeName fields loc => exact givenParts_eq fields
  | _ => simp [inner, children, exprParts]

theorem mem_exprParts {exprs : List Expr} :
    e ∈ exprParts exprs ↔ ∃ top ∈ exprs, e = top ∨ e ∈ top.inner := by
  induction exprs with
  | nil => simp [exprParts]
  | cons first rest ih => simp [exprParts, ih, or_assoc]

theorem Expr.mem_inner_of_mem_children {child : Expr} (h : child ∈ e.children) :
    child ∈ e.inner := by
  rw [inner_eq, mem_exprParts]
  exact ⟨child, h, .inl rfl⟩

theorem Expr.mem_inner_of_child {top child : Expr} (h : e ∈ top.inner)
    (hchild : child ∈ e.children) : child ∈ top.inner := by
  induction top using Expr.induction_children with
  | h top ih =>
    rw [inner_eq, mem_exprParts] at h ⊢
    obtain ⟨next, hnext, rfl | hinner⟩ := h
    · exact ⟨e, hnext, .inr (mem_inner_of_mem_children hchild)⟩
    · exact ⟨next, hnext, .inr (ih next hnext hinner)⟩

theorem mem_exprParts_of_child {child : Expr} {exprs : List Expr} (h : e ∈ exprParts exprs)
    (hchild : child ∈ e.children) : child ∈ exprParts exprs := by
  rw [mem_exprParts] at h ⊢
  obtain ⟨top, htop, rfl | hinner⟩ := h
  · exact ⟨e, htop, .inr (Expr.mem_inner_of_mem_children hchild)⟩
  · exact ⟨top, htop, .inr (Expr.mem_inner_of_child hinner hchild)⟩

theorem Expr.Every.inner {good : Expr → Prop} {part : Expr} (h : e.Every good)
    (hpart : part ∈ e.inner) : good part := by
  induction e using Expr.induction_children with
  | h e ih =>
    rw [inner_eq, mem_exprParts] at hpart
    obtain ⟨child, hchild, rfl | hinner⟩ := hpart
    · exact (h.inside _ hchild).here
    · exact ih child hchild (h.inside child hchild) hinner

def MemberOf.exprs (member : Member) : List Expr :=
  match member.decl with
  | .field field => field.start.expr?.toList
  | .method _ => []

/-- The expressions directly in a statement, not in the statements inside of it. -/
def Stmt.exprs : Stmt → List Expr
  | .induce decl => decl.start.expr?.toList
  | .branch cond .. | .whileLoop cond .. | .assert cond .. => [cond]
  | .loop _ cond step _ _ => cond.toList ++ step.toList
  | .session decl => decl.members.flatMap MemberOf.exprs
  | .tranceify decl => decl.members.flatMap fun member => member.start.expr?.toList
  | .observe e _ | .expr e _ => [e]
  | .awaken e _ => e.toList
  | .suggestion _ | .snap _ | .sink _ | .sinkTo .. | .label .. | .entrance .. | .mindLink .. => []

/-- All expressions of a program, at any depth. -/
def Program.exprs (p : Program) : List Expr := exprParts (p.parts.flatMap Stmt.exprs)

theorem Program.mem_exprs {p : Program} (hs : s ∈ p.parts) (he : e ∈ exprParts s.exprs) :
    e ∈ p.exprs := by
  obtain ⟨top, htop, hpart⟩ := mem_exprParts.1 he
  exact mem_exprParts.2 ⟨top, List.mem_flatMap.2 ⟨s, hs, htop⟩, hpart⟩

/-- The names of the parameters of what a member of a session declares. -/
def MemberOf.paramNames (member : Member) : List String :=
  match member.decl with
  | .field _ => []
  | .method decl => decl.params.map Param.name

/-- The names that are bound when a statement is run, and when what it declares is called. -/
def Stmt.boundNames : Stmt → List String
  | .induce decl => [decl.name]
  | .suggestion decl => decl.name :: decl.params.map Param.name
  | .session decl => decl.name :: decl.members.flatMap MemberOf.paramNames
  | .tranceify decl => [decl.name]
  | _ => []

def Expr.assignsTo (name : String) : Expr → Bool
  | .assign (.name target _) _ _ => target == name
  | _ => false

/-! ## Values inside of values -/

namespace Value

def children : Value → List Value
  | .array items => items
  | .record _ fields => fields.map Prod.snd
  | .number _ | .text _ | .boolean _ | .session _ | .suggestion _ | .null => []

/-- Something is true of a value and of all values inside of it. -/
inductive Every (ok : Value → Prop) : Value → Prop where
  | intro {v : Value} (here : ok v) (inside : ∀ child ∈ v.children, Every ok child) : Every ok v

variable {ok ok' : Value → Prop} {v : Value}

theorem Every.here (h : v.Every ok) : ok v := by
  cases h
  assumption

theorem Every.inside (h : v.Every ok) : ∀ child ∈ v.children, child.Every ok := by
  cases h
  assumption

theorem Every.imp (himp : ∀ v, ok v → ok' v) (h : v.Every ok) : v.Every ok' := by
  induction h with
  | intro here _ ih => exact .intro (himp _ here) ih

theorem Every.leaf (h : ok v) (hleaf : v.children = []) : v.Every ok :=
  .intro h (by simp [hleaf])

end Value

/-! ## Tables -/

namespace Table

variable {α ε : Type}

variable {name : String}

theorem mem_of_find? {table : Table α} {entry : α} (h : table.find? name = some entry) :
    (name, entry) ∈ table := by
  fun_induction Table.find? table name with
  | case1 => exact nomatch h
  | case2 rest old => exact Option.some.inj h ▸ mem_cons_self
  | case3 key old rest _ ih => exact mem_cons_of_mem _ (ih h)

theorem find?_insert (table : Table α) (name other : String) (entry : α) :
    (table.insert name entry).find? other = if name =
      other then some entry else table.find? other := by
  induction table with
  | nil => rfl
  | cons head rest ih =>
    obtain ⟨key, old⟩ := head
    rw [Table.insert]
    split
    · rename_i hkey
      subst hkey
      simp only [Table.find?]
      split <;> rfl
    · rename_i hkey
      simp only [Table.find?, ih]
      split
      · rename_i hother
        rw [if_neg fun h => hkey (hother.trans h.symm)]
      · rfl

theorem forall_insert {P : String → α → Prop} {table : Table α} {entry : α} (hnew : P name entry)
    (h : ∀ other old, table.find? other = some old → P other old) :
    ∀ other new, (table.insert name entry).find? other = some new → P other new := by
  intro other new hfind
  rw [find?_insert] at hfind
  split at hfind
  · rename_i hname
    exact hname ▸ Option.some.inj hfind ▸ hnew
  · exact h other new hfind

theorem has_insert (table : Table α) (name other : String) (entry : α) :
    (table.insert name entry).has other = (decide (name = other) || table.has other) := by
  rw [has, find?_insert, has]
  by_cases hname : name = other <;> simp [hname]

theorem has_insert_of_has {table : Table α} {other : String} (h : table.has other = true)
    (name : String) (entry : α) : (table.insert name entry).has other = true := by
  rw [has_insert, h, Bool.or_true]

theorem mem_insert {table : Table α} {entry : α} {pair : String × α}
    (h : pair ∈ table.insert name entry) : pair = (name, entry) ∨ pair ∈ table := by
  induction table with
  | nil =>
    simp only [insert, mem_singleton] at h
    exact .inl h
  | cons first rest ih =>
    obtain ⟨key, old⟩ := first
    rw [insert] at h
    split at h
    · rename_i hkey
      obtain rfl | hmem := mem_cons.1 h
      · exact .inl (by rw [hkey])
      · exact .inr (mem_cons_of_mem _ hmem)
    · obtain rfl | hmem := mem_cons.1 h
      · exact .inr (mem_cons_self ..)
      · exact (ih hmem).imp id (mem_cons_of_mem _)

theorem names_insert (table : Table α) (name : String) (entry : α) :
    (table.insert name entry).names =
    if name ∈ table.names then table.names else table.names ++ [name] := by
  induction table with
  | nil => simp [insert, names]
  | cons first rest ih =>
    obtain ⟨key, old⟩ := first
    rw [insert]
    by_cases hkey : key = name
    · simp [names, hkey]
    · simp only [names] at ih
      by_cases hmem : name ∈ List.map (·.1) rest
      · simp [hkey, names, ih, hmem]
      · simp [hkey, names, ih, hmem, Ne.symm hkey]

theorem modify?_eq (table : Table α) (name : String) (change : α → Except ε α) :
    table.modify? name change =
      (table.find? name).map fun entry => (change entry).map (table.insert name) := by
  induction table with
  | nil => rfl
  | cons first rest ih =>
    obtain ⟨key, entry⟩ := first
    simp only [modify?, find?]
    by_cases hkey : key = name
    · cases hchange : change entry <;> simp [insert, Except.map, hkey, hchange]
    · rw [if_neg hkey, if_neg hkey, ih]
      cases find? rest name with
      | none => rfl
      | some found => cases hchange : change found <;> simp [insert, Except.map, hkey, hchange]

theorem names_insert_of_find? {table : Table α} {old : α} (h : table.find? name = some old)
    (entry : α) : (table.insert name entry).names = table.names := by
  have hname : name ∈ table.names := mem_map.2 ⟨_, mem_of_find? h, rfl⟩
  rw [names_insert, if_pos hname]

theorem names_modify? {table fields : Table α} {change : α → Except ε α}
    (h : table.modify? name change = some (.ok fields)) : fields.names = table.names := by
  rw [modify?_eq] at h
  obtain ⟨old, hfound, hchanged⟩ := Option.map_eq_some_iff.1 h
  cases hchange : change old with
  | error e => simp [hchange, Except.map] at hchanged
  | ok new =>
    rw [hchange] at hchanged
    obtain rfl := Except.ok.inj hchanged
    exact names_insert_of_find? hfound new

end Table

/-! ## Shapes of objects -/

/-- Everything about an object but the values of its fields. -/
structure Instance.Shape where
  name : String
  fields : List String
  methods : Table Suggestion
  concealed : List String

def Instance.shape (object : Instance) : Instance.Shape :=
  ⟨object.name, object.fields.names, object.methods, object.concealed⟩

namespace Instance.Shape

def empty (name : String) : Shape := ⟨name, [], [], []⟩

/-- The shape with a member marked as concealed unless it is exposed. -/
def mark (shape : Shape) (member : Member) : Shape :=
  if member.exposed || shape.concealed.contains member.name then shape
  else { shape with concealed := member.name :: shape.concealed }

def addField (shape : Shape) (name : String) : Shape :=
  { shape with fields := if name ∈ shape.fields then shape.fields else shape.fields ++ [name] }

def setMethod (shape : Shape) (decl : Suggestion) : Shape :=
  { shape with methods := shape.methods.insert decl.name decl }

/-- The shape with one more member. Only the object that a session's name stands for can have a
constructor among its methods. -/
def add (shared : Bool) (shape : Shape) (member : Member) : Shape :=
  match member.decl with
  | .field field => (shape.mark member).addField field.name
  | .method decl =>
    if !shared && decl.name == constructorName then shape.mark member
    else (shape.mark member).setMethod decl

end Instance.Shape

/-- The shape that a declaration gives to objects: to the one that the session's name stands for,
which has the dominant members, or to new ones, which have the others. -/
def SessionOf.shape (decl : Session) (shared : Bool) : Instance.Shape :=
  (decl.members.filter (·.dominant == shared)).foldl (.add shared) (.empty decl.name)

namespace Instance

variable (object : Instance)

@[simp] theorem shape_empty (name : String) : (empty name).shape = .empty name := rfl

@[simp] theorem shape_mark (member : Member) :
    (object.mark member).shape = object.shape.mark member := by
  unfold mark Shape.mark conceals
  by_cases hmark : (member.exposed || object.concealed.contains member.name) = true
  · rw [if_pos hmark]
    exact (if_pos hmark).symm
  · rw [if_neg hmark]
    exact (if_neg hmark).symm

@[simp] theorem shape_setField (name : String) (value : Value) :
    (object.setField name value).shape = object.shape.addField name := by
  simp only [setField, shape, Shape.addField, Table.names_insert]
  rfl

@[simp] theorem shape_setMethod (decl : Suggestion) :
    (object.setMethod decl).shape = object.shape.setMethod decl := rfl

@[simp] theorem fields_mark (member : Member) : (object.mark member).fields = object.fields := by
  unfold mark
  split <;> rfl

end Instance

namespace Instance.Shape

variable {shared : Bool} {shape : Shape}

@[simp] theorem name_mark (member : Member) : (shape.mark member).name = shape.name := by
  unfold mark
  split <;> rfl

@[simp] theorem fields_mark (member : Member) : (shape.mark member).fields = shape.fields := by
  unfold mark
  split <;> rfl

@[simp] theorem methods_mark (member : Member) : (shape.mark member).methods = shape.methods := by
  unfold mark
  split <;> rfl

@[simp] theorem name_add (member : Member) : (shape.add shared member).name = shape.name := by
  unfold add
  split
  · simp [addField]
  · split <;> simp [setMethod]

@[simp] theorem name_foldl (members : List Member) :
    (members.foldl (.add shared) shape).name = shape.name := by
  induction members generalizing shape with
  | nil => rfl
  | cons member rest ih => rw [foldl_cons, ih, name_add]

theorem mem_concealed_foldl {members : List Member} {name : String} :
    name ∈ (members.foldl (.add shared) shape).concealed ↔
      name ∈ shape.concealed ∨ ∃ member ∈ members, member.exposed = false ∧ member.name = name := by
  induction members generalizing shape with
  | nil => simp
  | cons member rest ih =>
    have hmark : name ∈ (shape.mark member).concealed ↔
        name ∈ shape.concealed ∨ (member.exposed = false ∧ member.name = name) := by
      unfold mark
      cases hexposed : member.exposed with
      | true => simp
      | false =>
        by_cases hknown : member.name ∈ shape.concealed
        · simp only [Bool.false_or, contains_iff_mem, if_pos hknown, true_and]
          exact ⟨.inl, fun h => h.elim id fun heq => heq ▸ hknown⟩
        · simp [hknown, eq_comm, or_comm]
    have hfirst : (shape.add shared member).concealed = (shape.mark member).concealed := by
      unfold add
      split
      · rfl
      · split <;> rfl
    simp only [foldl_cons, ih, hfirst, hmark, mem_cons, exists_eq_or_imp, or_assoc]

theorem mem_methods_foldl {members : List Member} {name : String} {method : Suggestion}
    (h : (name, method) ∈ (members.foldl (.add shared) shape).methods) :
    (name, method) ∈ shape.methods ∨ ∃ member ∈ members, member.decl = .method method := by
  induction members generalizing shape with
  | nil => exact .inl h
  | cons member rest ih =>
    obtain hadded | ⟨other, hother, hdecl⟩ := ih h
    · unfold add at hadded
      split at hadded
      · exact .inl (by simpa [addField] using hadded)
      · rename_i decl hdecl
        split at hadded
        · exact .inl (by simpa using hadded)
        · obtain hnew | hold := Table.mem_insert hadded
          · cases hnew
            exact .inr ⟨member, mem_cons_self .., hdecl⟩
          · exact .inl (by simpa using hold)
    · exact .inr ⟨other, mem_cons_of_mem _ hother, hdecl⟩

end Instance.Shape

namespace SessionOf

variable (decl : Session) (shared : Bool)

@[simp] theorem shape_name : (decl.shape shared).name = decl.name :=
  Instance.Shape.name_foldl _

theorem mem_shape_concealed {name : String} : name ∈ (decl.shape shared).concealed ↔
    ∃ member ∈ decl.members, member.dominant = shared ∧ member.exposed = false ∧
    member.name = name := by
  simp only [shape, Instance.Shape.mem_concealed_foldl, Instance.Shape.empty, not_mem_nil, false_or,
    mem_filter, beq_iff_eq, and_assoc]

theorem shape_method {name : String} {method : Suggestion}
    (h : (decl.shape shared).methods.find? name = some method) :
    ∃ member ∈ decl.members, member.decl = .method method := by
  obtain hnone | ⟨member, hmember, hdecl⟩ := Instance.Shape.mem_methods_foldl (Table.mem_of_find? h)
  · cases hnone
  · exact ⟨member, (mem_filter.1 hmember).1, hdecl⟩

theorem mem_of_constructor? {init : Suggestion} (h : decl.constructor? = some init) :
    ∃ member ∈ decl.members, member.decl = .method init := by
  obtain ⟨member, hmember, hfound⟩ := exists_of_findSome?_eq_some h
  refine ⟨member, hmember, ?_⟩
  split at hfound
  · rename_i method hmethod
    split at hfound
    · cases hfound
      exact hmethod
    · cases hfound
  · cases hfound

end SessionOf

end Trance
