import Trance.Checking.Inference

/-!
# The core of the language and its types

The core has variables of four basic types, operators, branches and loops. Here are its syntax, as a
part of all programs, and its type system, as rules that say nothing about how types are found.

A type system needs to know what names stand for. The scopes of the checker serve for this: a
variable stands in them with the name of its type.
-/

namespace Trance

/-! ## Syntax -/

/-- The expressions of the core: literals, names, operators, and assignments to names. -/
def Expr.isCore : Expr → Bool
  | number .. | text .. | boolean .. | name .. => true
  | binary _ left right _ => left.isCore && right.isCore
  | unary _ operand _ => operand.isCore
  | assign (name ..) value _ => value.isCore
  | assign .. | call .. | field .. | index .. | record .. | array .. => false

def Variable.coreTypes : List String :=
  ["number", "int", "float", "double", "string", "boolean", "bool"]

/-- The declarations of the core: a first value, and perhaps a basic type. -/
def Variable.isCore (decl : Variable) : Bool :=
  decl.typeName.all coreTypes.contains && (decl.start.expr?.map Expr.isCore).getD false

mutual

def Stmt.isCore : Stmt → Bool
  | .induce decl => decl.isCore
  | .branch cond yes no _ =>
    cond.isCore && listIsCore yes &&
      match no with
      | some no => listIsCore no
      | none => true
  | .whileLoop cond body _ => cond.isCore && listIsCore body
  | .loop init cond step body _ =>
    (match init with
      | some init => Stmt.isCore init
      | none => true) && cond.all Expr.isCore && step.all Expr.isCore && listIsCore body
  | .observe expr _ | .expr expr _ | .assert expr _ _ => expr.isCore
  | .awaken value _ => value.all Expr.isCore
  | .snap _ | .sink _ => true
  | .entrance body _ => listIsCore body
  | .suggestion _ | .session _ | .tranceify _ | .sinkTo .. | .label .. | .mindLink .. => false

def listIsCore : List Stmt → Bool
  | [] => true
  | first :: rest => Stmt.isCore first && listIsCore rest

end

theorem Stmt.isCore_branch {cond : Expr} {yes : List Stmt} {no : Option (List Stmt)}
    {loc : Location} (h : (Stmt.branch cond yes no loc).isCore = true) :
    cond.isCore = true ∧ listIsCore yes = true ∧ ∀ body ∈ no, listIsCore body = true := by
  cases no with
  | none =>
    obtain ⟨⟨hcond, hyes⟩, -⟩ := by simpa only [Stmt.isCore, Bool.and_eq_true] using h
    exact ⟨hcond, hyes, fun _ hbody => nomatch hbody⟩
  | some no =>
    obtain ⟨⟨hcond, hyes⟩, hno⟩ := by simpa only [Stmt.isCore, Bool.and_eq_true] using h
    refine ⟨hcond, hyes, ?_⟩
    rintro _ ⟨⟩
    exact hno

/-- Programs of the core: all their statements belong to it. -/
def Program.isCore (p : Program) : Bool := listIsCore p.statements

/-! ## Values -/

namespace Ty

def isBasic : Ty → Bool
  | number | int | text | boolean => true
  | _ => false

/-- The values of a basic type. Whole numbers are not told from other numbers. -/
inductive Has : Ty → Value → Prop where
  | number (n : Float) : Has .number (.number n)
  | int (n : Float) : Has .int (.number n)
  | text (s : String) : Has .text (.text s)
  | boolean (b : Bool) : Has .boolean (.boolean b)

variable {s t : Ty} {value : Value}

theorem builtin?_name (h : t.isBasic = true) : Ty.builtin? t.name = some t := by
  cases t with
  | number | int | text | boolean => rfl
  | _ => exact nomatch h

theorem name_injective (hs : s.isBasic = true) (ht : t.isBasic = true) (h : s.name = t.name) :
    s = t :=
  Option.some.inj (by rw [← builtin?_name hs, ← builtin?_name ht, h])

theorem Has.isBasic (h : t.Has value) : t.isBasic = true := by
  cases h <;> rfl

theorem compatible_self (h : t.isBasic = true) : t.compatible t = true := by
  cases t with
  | number | int | text | boolean => rfl
  | _ => exact nomatch h

theorem Has.of_compatible (h : s.Has value) (ht : t.isBasic = true)
    (hfits : t.compatible s = true) : t.Has value := by
  cases h with
  | number n | int n =>
    cases t with
    | number => exact .number n
    | int => exact .int n
    | text | boolean => exact nomatch hfits
    | _ => exact nomatch ht
  | text s =>
    cases t with
    | text => exact .text s
    | number | int | boolean => exact nomatch hfits
    | _ => exact nomatch ht
  | boolean b =>
    cases t with
    | boolean => exact .boolean b
    | number | int | text => exact nomatch hfits
    | _ => exact nomatch ht

end Ty

/-! ## Expressions -/

/-- The type of an operation on operands of basic types, if there is one. -/
def BinaryOp.type? (op : BinaryOp) (s t : Ty) : Option Ty :=
  let numeric := s.isNumeric && t.isNumeric
  match op with
  | add =>
    if s = .text || t = .text then some .text
    else if numeric then some (Check.arithmeticType op s t) else none
  | sub | mul | div | mod => if numeric then some (Check.arithmeticType op s t) else none
  | eq | ne => some .boolean
  | lt | le | gt | ge => if numeric then some .boolean else none
  | conj | disj => if s.isBoolean && t.isBoolean then some .boolean else none

/-- The type of an operation on an operand of a basic type, if there is one. -/
def UnaryOp.type? (op : UnaryOp) (t : Ty) : Option Ty :=
  match op with
  | not => if t.isBoolean then some .boolean else none
  | neg | plus => if t.isNumeric then some t else none

variable {s t : Ty}

theorem arithmeticType_isBasic (op : BinaryOp) (hs : s.isBasic = true) :
    (Check.arithmeticType op s t).isBasic = true := by
  unfold Check.arithmeticType
  split
  · split <;> rfl
  · exact nomatch hs
  · rfl

theorem BinaryOp.isBasic_of_type? {op : BinaryOp} {u : Ty} (hs : s.isBasic = true)
    (h : op.type? s t = some u) : u.isBasic = true := by
  have harithmetic :
      (if s.isNumeric && t.isNumeric then some (Check.arithmeticType op s t) else none) = some u →
      u.isBasic = true := by
    intro h
    split at h
    · exact Option.some.inj h ▸ arithmeticType_isBasic op hs
    · exact nomatch h
  have hboolean : ∀ cond : Bool, (if cond then some Ty.boolean else none) = some u →
      u.isBasic = true := by
    intro cond h
    split at h
    · exact Option.some.inj h ▸ rfl
    · exact nomatch h
  cases op with
  | eq | ne => exact Option.some.inj h ▸ rfl
  | add =>
    simp only [type?] at h
    split at h
    · exact Option.some.inj h ▸ rfl
    · exact harithmetic h
  | sub | mul | div | mod => exact harithmetic h
  | lt | le | gt | ge | conj | disj => exact hboolean _ h

theorem UnaryOp.isBasic_of_type? {op : UnaryOp} (hs : s.isBasic = true) (h : op.type? s = some t) :
    t.isBasic = true := by
  cases op with
  | not =>
    simp only [type?] at h
    split at h
    · exact Option.some.inj h ▸ rfl
    · exact nomatch h
  | neg | plus =>
    simp only [type?] at h
    split at h
    · exact Option.some.inj h ▸ hs
    · exact nomatch h

/-- A variable of a basic type that scopes know by a name. -/
structure Symbol.IsVariable (symbol : Symbol) (t : Ty) : Prop where
  kind : symbol.kind = .variable
  typeName : symbol.typeName = some t.name
  isBasic : t.isBasic = true

/-- The type of an expression of the core, by the types of the variables in scope. -/
inductive Expr.HasType (Γ : Scopes) : Expr → Ty → Prop where
  | number {n loc} : HasType Γ (.number n loc) .number
  | text {s loc} : HasType Γ (.text s loc) .text
  | boolean {b loc} : HasType Γ (.boolean b loc) .boolean
  | name {name loc symbol t} (found : Γ.resolve? name = some symbol)
      (isVariable : symbol.IsVariable t) : HasType Γ (.name name loc) t
  | binary {op left right loc s t u} (leftType : HasType Γ left s) (rightType : HasType Γ right t)
      (type : op.type? s t = some u) : HasType Γ (.binary op left right loc) u
  | unary {op operand loc s t} (operandType : HasType Γ operand s) (type : op.type? s = some t) :
      HasType Γ (.unary op operand loc) t
  | assign {name nameLoc value loc symbol s t} (valueType : HasType Γ value s)
      (found : Γ.resolve? name = some symbol) (isVariable : symbol.IsVariable t)
      (fits : t.compatible s = true) :
      HasType Γ (.assign (.name name nameLoc) value loc) s

theorem Expr.HasType.isBasic {Γ : Scopes} {expr : Expr} (h : HasType Γ expr t) :
    t.isBasic = true := by
  induction h with
  | number | text | boolean => rfl
  | name _ isVariable => exact isVariable.isBasic
  | binary _ _ type hs _ => exact BinaryOp.isBasic_of_type? hs type
  | unary _ type hs => exact UnaryOp.isBasic_of_type? hs type
  | assign _ _ _ _ hs => exact hs

/-! ## Statements -/

/-- The type that a declaration gives to a variable whose first value is of a type. -/
def Variable.type? (decl : Variable) (actual : Ty) : Option Ty :=
  match decl.typeName with
  | some name => Ty.builtin? name
  | none => some actual

def Scopes.declare? (Γ : Scopes) (name : String) (t : Ty) : Option Scopes :=
  Γ.define? { name, kind := .variable, typeName := some t.name }

mutual

/-- `Stmt.Typed loops Γ stmt Γ'`: with the variables of `Γ` in scope the statement is well typed,
and afterwards the variables of `Γ'` are in scope. Only in loops are there jumps. -/
inductive Stmt.Typed : Bool → Scopes → Stmt → Scopes → Prop where
  | induce {loops Γ Γ' decl init s t} (start : decl.start = .value init)
      (initType : init.HasType Γ s)
      (type : decl.type? s = some t) (isBasic : t.isBasic = true) (fits : t.compatible s = true)
      (declares : Γ.declare? decl.name t = some Γ') : Stmt.Typed loops Γ (.induce decl) Γ'
  | branch {loops Γ Γ' cond yes no loc t} (condType : cond.HasType Γ t)
      (yesTyped : ListTyped loops (Γ.enter .block) yes Γ') (noTyped : ElseTyped loops Γ no) :
      Stmt.Typed loops Γ (.branch cond yes no loc) Γ
  | whileLoop {loops Γ Γ' cond body loc t} (condType : cond.HasType Γ t)
      (bodyTyped : ListTyped true (Γ.enter .block) body Γ') :
      Stmt.Typed loops Γ (.whileLoop cond body loc) Γ
  | loop {loops Γ Γ₁ Γ₂ init cond step body loc}
      (initTyped : InitTyped loops (Γ.enter .block) init Γ₁)
      (condTyped : ∀ expr ∈ cond, ∃ t, expr.HasType Γ₁ t) (stepTyped :
      ∀ expr ∈ step, ∃ t, expr.HasType Γ₁ t)
      (bodyTyped : ListTyped true (Γ₁.enter .block) body Γ₂) :
      Stmt.Typed loops Γ (.loop init cond step body loc) Γ
  | observe {loops Γ expr loc t} (type : expr.HasType Γ t) : Stmt.Typed loops Γ (.observe expr loc) Γ
  | expr {loops Γ expr loc t} (type : expr.HasType Γ t) : Stmt.Typed loops Γ (.expr expr loc) Γ
  | assert {loops Γ cond message loc t} (type : cond.HasType Γ t) :
      Stmt.Typed loops Γ (.assert cond message loc) Γ
  | awaken {loops Γ value loc} (typed : ∀ expr ∈ value, ∃ t, expr.HasType Γ t) :
      Stmt.Typed loops Γ (.awaken value loc) Γ
  | snap {Γ loc} : Stmt.Typed true Γ (.snap loc) Γ
  | sink {Γ loc} : Stmt.Typed true Γ (.sink loc) Γ
  | entrance {loops Γ Γ' body loc} (bodyTyped : ListTyped loops (Γ.enter .block) body Γ') :
      Stmt.Typed loops Γ (.entrance body loc) Γ

/-- Statements one after the other, each in the scope of the declarations before it. -/
inductive ListTyped : Bool → Scopes → List Stmt → Scopes → Prop where
  | nil {loops Γ} : ListTyped loops Γ [] Γ
  | cons {loops Γ Γ₁ Γ₂ first rest} (firstTyped : Stmt.Typed loops Γ first Γ₁)
      (restTyped : ListTyped loops Γ₁ rest Γ₂) : ListTyped loops Γ (first :: rest) Γ₂

/-- The other part of a branch, if there is one. -/
inductive ElseTyped : Bool → Scopes → Option (List Stmt) → Prop where
  | none {loops Γ} : ElseTyped loops Γ none
  | some {loops Γ Γ' body} (bodyTyped : ListTyped loops (Γ.enter .block) body Γ') :
      ElseTyped loops Γ (some body)

/-- What a loop starts with, if anything. -/
inductive InitTyped : Bool → Scopes → Option Stmt → Scopes → Prop where
  | none {loops Γ} : InitTyped loops Γ none Γ
  | some {loops Γ Γ' init} (initTyped : Stmt.Typed loops Γ init Γ') :
      InitTyped loops Γ (some init) Γ'

end

end Trance
