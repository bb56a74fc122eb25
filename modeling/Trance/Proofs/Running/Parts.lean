import Trance.Stmt

/-!
# Statements inside of statements

What is asked of a whole program is often asked of each statement in it, wherever it stands: in a
block, in a loop, or in the body of a suggestion or a method. In the same way there are expressions
inside of expressions. -/

namespace Trance

open List

/-! ## Expressions inside of expressions -/

namespace Expr

def children : Expr → List Expr
  | .number .. | .text .. | .boolean .. | .name .. => []
  | .binary _ left right _ => [left, right]
  | .unary _ operand _ => [operand]
  | .call callee args _ => callee :: args
  | .field object _ _ => [object]
  | .index object position _ => [object, position]
  | .assign target value _ => [target, value]
  | .record _ fields _ => fields.map Prod.snd
  | .array items _ => items

theorem sizeOf_lt_of_mem_children {e child : Expr} (h : child ∈ e.children) :
    sizeOf child < sizeOf e := by
  cases e with
  | number | text | boolean | name => exact nomatch h
  | binary op left right loc | index left right loc | assign left right loc =>
    simp only [children, mem_cons, not_mem_nil, or_false] at h
    obtain rfl | rfl := h <;> simp <;> omega
  | unary op operand loc | field object member loc =>
    obtain rfl := mem_singleton.1 h
    simp
    omega
  | call callee args loc =>
    rw [call.sizeOf_spec]
    obtain rfl | hmem := mem_cons.1 h
    · omega
    · have hlt : sizeOf child < sizeOf args := sizeOf_lt_of_mem hmem
      omega
  | record typeName fields loc =>
    rw [record.sizeOf_spec]
    obtain ⟨⟨name, e⟩, hmem, rfl⟩ := mem_map.1 h
    have hlt : sizeOf (name, e) < sizeOf fields := sizeOf_lt_of_mem hmem
    rw [Prod.mk.sizeOf_spec] at hlt
    simp only
    omega
  | array items loc =>
    rw [array.sizeOf_spec]
    have hlt : sizeOf child < sizeOf items := sizeOf_lt_of_mem h
    omega

theorem induction_children {motive : Expr → Prop}
    (h : ∀ e, (∀ child ∈ e.children, motive child) → motive e) (e : Expr) : motive e :=
  h e fun child _ => induction_children h child
termination_by sizeOf e
decreasing_by exact sizeOf_lt_of_mem_children ‹_›

/-- Something is true of an expression and of all expressions inside of it. -/
inductive Every (good : Expr → Prop) : Expr → Prop where
  | intro {e : Expr} (here : good e) (inside : ∀ child ∈ e.children, Every good child) : Every good e

variable {good : Expr → Prop} {e : Expr}

theorem Every.here (h : e.Every good) : good e := by
  cases h
  assumption

theorem Every.inside (h : e.Every good) : ∀ child ∈ e.children, child.Every good := by
  cases h
  assumption

end Expr

/-! ## Children of statements -/

def MemberOf.body (member : Member) : List Stmt :=
  match member.decl with
  | .field _ => []
  | .method decl => decl.body

/-- The statements directly inside of a statement. -/
def Stmt.children : Stmt → List Stmt
  | .branch _ yes no _ => yes ++ no.getD []
  | .whileLoop _ body _ => body
  | .loop init _ _ body _ => init.toList ++ body
  | .suggestion decl => decl.body
  | .session decl => decl.members.flatMap MemberOf.body
  | .entrance body _ => body
  | .induce _ | .tranceify _ | .observe .. | .awaken .. | .snap _ | .sink _ | .sinkTo .. | .label ..
  | .assert .. | .mindLink .. | .expr .. => []

theorem Stmt.sizeOf_lt_of_mem_children {stmt child : Stmt} (h : child ∈ stmt.children) :
    sizeOf child < sizeOf stmt := by
  cases stmt with
  | branch cond yes no loc =>
    rw [branch.sizeOf_spec]
    obtain hyes | hno := mem_append.1 h
    · have hlt : sizeOf child < sizeOf yes := sizeOf_lt_of_mem hyes
      omega
    · cases no with
      | none => exact nomatch hno
      | some no =>
        have hlt : sizeOf child < sizeOf no := sizeOf_lt_of_mem hno
        rw [Option.some.sizeOf_spec]
        omega
  | loop init cond step body loc =>
    rw [loop.sizeOf_spec]
    obtain hinit | hbody := mem_append.1 h
    · obtain rfl := Option.mem_toList.1 hinit
      rw [Option.some.sizeOf_spec]
      omega
    · have hlt : sizeOf child < sizeOf body := sizeOf_lt_of_mem hbody
      omega
  | suggestion decl =>
    obtain ⟨_, _, _, body, _, _, _, _⟩ := decl
    have hlt : sizeOf child < sizeOf body := sizeOf_lt_of_mem h
    rw [suggestion.sizeOf_spec, SuggestionOf.mk.sizeOf_spec]
    omega
  | session decl =>
    obtain ⟨_, members, _⟩ := decl
    obtain ⟨⟨decl, _, _⟩, hmember, hbody⟩ := mem_flatMap.1 h
    have hmembers : _ < sizeOf members := sizeOf_lt_of_mem hmember
    cases decl with
    | field => exact nomatch hbody
    | method method =>
      obtain ⟨_, _, _, body, _, _, _, _⟩ := method
      have hlt : sizeOf child < sizeOf body := sizeOf_lt_of_mem hbody
      rw [MemberOf.mk.sizeOf_spec, MemberDeclOf.method.sizeOf_spec,
        SuggestionOf.mk.sizeOf_spec] at hmembers
      rw [session.sizeOf_spec, SessionOf.mk.sizeOf_spec]
      omega
  | whileLoop cond body loc =>
    have hlt : sizeOf child < sizeOf body := sizeOf_lt_of_mem h
    rw [whileLoop.sizeOf_spec]
    omega
  | entrance body loc =>
    have hlt : sizeOf child < sizeOf body := sizeOf_lt_of_mem h
    rw [entrance.sizeOf_spec]
    omega
  | _ => exact nomatch h

theorem Stmt.induction_children {motive : Stmt → Prop}
    (h : ∀ stmt, (∀ child ∈ stmt.children, motive child) → motive stmt) (stmt : Stmt) :
    motive stmt :=
  h stmt fun child _ => induction_children h child
termination_by sizeOf stmt
decreasing_by exact sizeOf_lt_of_mem_children ‹_›

/-! ## Everything inside -/

mutual

/-- All statements inside of a statement, at any depth. -/
def Stmt.inner : Stmt → List Stmt
  | .branch _ yes no _ =>
    listParts yes ++
      match no with
      | some no => listParts no
      | none => []
  | .whileLoop _ body _ => listParts body
  | .loop init _ _ body _ =>
    (match init with
      | some init => init :: Stmt.inner init
      | none => []) ++ listParts body
  | .suggestion decl => suggestionParts decl
  | .session decl => sessionParts decl
  | .entrance body _ => listParts body
  | .induce _ | .tranceify _ | .observe .. | .awaken .. | .snap _ | .sink _ | .sinkTo .. | .label ..
  | .assert .. | .mindLink .. | .expr .. => []

def listParts : List Stmt → List Stmt
  | [] => []
  | first :: rest => first :: (Stmt.inner first ++ listParts rest)

def suggestionParts : Suggestion → List Stmt
  | ⟨_, _, _, body, _, _, _, _⟩ => listParts body

def sessionParts : Session → List Stmt
  | ⟨_, all, _⟩ => membersParts all

def membersParts : List Member → List Stmt
  | [] => []
  | first :: rest => memberParts first ++ membersParts rest

def memberParts : Member → List Stmt
  | ⟨decl, _, _⟩ => memberDeclParts decl

def memberDeclParts : MemberDecl → List Stmt
  | .field _ => []
  | .method decl => suggestionParts decl

end

/-- All statements of a program, at any depth. -/
def Program.parts (p : Program) : List Stmt := listParts p.statements

@[simp] theorem listParts_append (xs ys : List Stmt) :
    listParts (xs ++ ys) = listParts xs ++ listParts ys := by
  induction xs with
  | nil => rfl
  | cons first rest ih => simp only [cons_append, listParts, ih, append_assoc]

theorem suggestionParts_eq (decl : Suggestion) : suggestionParts decl = listParts decl.body := by
  cases decl
  rfl

theorem membersParts_eq (all : List Member) :
    membersParts all = listParts (all.flatMap MemberOf.body) := by
  induction all with
  | nil => rfl
  | cons first rest ih =>
    obtain ⟨decl, _, _⟩ := first
    rw [membersParts, ih, flatMap_cons, listParts_append]
    cases decl with
    | field => rfl
    | method decl => exact congrArg (· ++ _) (suggestionParts_eq decl)

theorem Stmt.inner_eq (stmt : Stmt) : stmt.inner = listParts stmt.children := by
  cases stmt with
  | branch cond yes no loc => cases no <;> simp [inner, children]
  | loop init cond step body loc => cases init <;> simp [inner, children, listParts]
  | suggestion decl => exact suggestionParts_eq decl
  | session decl =>
    cases decl
    exact membersParts_eq _
  | _ => rfl

/-! ## Something is true of every part -/

/-- Something is true of a statement and of all statements inside of it. -/
def Stmt.Every (ok : Stmt → Prop) (stmt : Stmt) : Prop := ok stmt ∧ ∀ part ∈ stmt.inner, ok part

variable {ok : Stmt → Prop}

theorem forall_mem_listParts {body : List Stmt} :
    (∀ part ∈ listParts body, ok part) ↔ ∀ stmt ∈ body, stmt.Every ok := by
  induction body with
  | nil => simp [listParts]
  | cons first rest ih =>
    simp only [listParts, forall_mem_cons, forall_mem_append, ih, Stmt.Every, and_assoc]

namespace Stmt.Every

variable {stmt : Stmt}

theorem child (h : stmt.Every ok) : ∀ part ∈ stmt.children, part.Every ok :=
  forall_mem_listParts.1 (stmt.inner_eq ▸ h.2)

theorem of_child (h : ok stmt) (hchildren : ∀ part ∈ stmt.children, part.Every ok) : stmt.Every ok :=
  ⟨h, stmt.inner_eq ▸ forall_mem_listParts.2 hchildren⟩

theorem of_forall (h : ∀ stmt, ok stmt) : stmt.Every ok := ⟨h stmt, fun part _ => h part⟩

end Stmt.Every

theorem Program.every_of_parts {p : Program} (h : ∀ part ∈ p.parts, ok part) :
    ∀ stmt ∈ p.statements, stmt.Every ok :=
  forall_mem_listParts.1 h

end Trance
