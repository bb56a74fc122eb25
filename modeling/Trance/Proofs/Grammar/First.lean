import Trance.Proofs.Grammar.Clause
import Trance.Proofs.Grammar.Reading

/-!
# The tokens of derivations

What a derivation takes: which operators there are, how many tokens at least, and which token
comes first. A parser tells the forms of the grammar apart by the first token alone, and its
recursion ends because derivations inside of others have fewer tokens.
-/

namespace Trance.Grammar

open List

variable {origin : Origin}

/-! ## Operators -/

def Level.lookup (level : Level) (kind : Token.Kind) : Option BinaryOp :=
  (level.operators.find? (·.1 = kind)).map (·.2)

variable {kind : Token.Kind} {xs ys : List Token} {v : Variable} {s : Stmt}

theorem Level.lookup_eq_some {level : Level} {op : BinaryOp} :
    level.lookup kind = some op ↔ (kind, op) ∈ level.operators := by
  constructor
  · intro h
    obtain ⟨⟨k, o⟩, hfind, rfl⟩ := Option.map_eq_some_iff.1 h
    have hk : k = kind := by simpa using List.find?_some hfind
    exact hk ▸ mem_of_find?_eq_some hfind
  · intro h
    have all : ∀ p ∈ level.operators, level.lookup p.1 = some p.2 := by cases level <;> decide
    exact all (kind, op) h

theorem levels_eq_map_ladder : BinaryOp.levels = Level.ladder.map Level.lookup := by
  simp only [BinaryOp.levels, Level.ladder, map_cons, map_nil, List.cons.injEq, and_true]
  refine ⟨?_, ?_, ?_, ?_, ?_, ?_⟩ <;> funext kind <;> cases kind <;> rfl

theorem Level.ne_eof {level : Level} {op : BinaryOp} (h : (kind, op) ∈ level.operators) :
    kind ≠ .eof := by
  rintro rfl
  cases level <;> simp [operators] at h

theorem signs_ne_eof {op : UnaryOp} (h : (kind, op) ∈ signs) : kind ≠ .eof := by
  rintro rfl
  simp [signs] at h

theorem ofKind?_eq_some {op : UnaryOp} : UnaryOp.ofKind? kind = some op ↔ (kind, op) ∈ signs := by
  cases kind <;> cases op <;> decide

/-! ## What is left -/

theorem suffix_of_cons {t : Token} (h : (t :: ys) <:+ xs) : ys <:+ xs :=
  (suffix_cons t ys).trans h

theorem suffix_cons_of {t : Token} (h : ys <:+ xs) : ys <:+ t :: xs :=
  h.trans (suffix_cons t xs)

section

variable {xs ys : List Token}

attribute [local grind →] suffix_of_cons List.IsSuffix.trans
attribute [local grind ←] suffix_cons_of suffix_refl

attribute [local grind ←] Passes.refl Passes.cons
attribute [local grind →] Passes.trans Passes.past Level.ne_eof signs_ne_eof

theorem Phrase.passes {form : Form} {tree : form.Tree} (d : Phrase form xs tree ys) :
    Passes xs ys := by
  induction d <;> grind

theorem Phrase.suffix {form : Form} {tree : form.Tree} (d : Phrase form xs tree ys) : ys <:+ xs :=
  d.passes.suffix

theorem TypeMark.suffix {type : Option String} (d : TypeMark xs type ys) : ys <:+ xs := by
  cases d <;> grind

theorem Opening.suffix {start : Start} (d : Opening xs start ys) : ys <:+ xs := by
  cases d with
  | value _ expr => exact suffix_cons_of expr.suffix
  | unset | external => grind

theorem VariableDecl.suffix (d : VariableDecl xs v ys) : ys <:+ xs := by
  obtain ⟨_, _, typed, opening, _⟩ := d
  have htyped := typed.suffix
  have hopening := opening.suffix
  grind

theorem ParamDecl.suffix {param : Param} (d : ParamDecl xs param ys) : ys <:+ xs := by
  obtain ⟨_, typed⟩ := d
  exact suffix_cons_of typed.suffix

theorem Listing.suffix {α : Type} {item : List Token → α → List Token → Type}
    (h : ∀ xs a ys, item xs a ys → ys <:+ xs) {as : List α} (d : Listing item xs as ys) :
    ys <:+ xs := by
  induction d with
  | last only => exact h _ _ _ only
  | more first _ _ ih => exact ih.trans (suffix_of_cons (h _ _ _ first))

theorem Series.suffix {α : Type} {item : List Token → α → List Token → Type}
    (h : ∀ xs a ys, item xs a ys → ys <:+ xs) {as : List α} (d : Series item xs as ys) :
    ys <:+ xs := by
  induction d with
  | nil => exact suffix_refl _
  | cons first _ ih => exact ih.trans (h _ _ _ first)

theorem ParamList.suffix {params : List Param} (d : ParamList xs params ys) : ys <:+ xs := by
  cases d with
  | none => grind
  | some _ listing _ =>
    exact suffix_cons_of (suffix_of_cons (listing.suffix fun _ _ _ d => d.suffix))

theorem FieldOpening.suffix {start : Start} (d : FieldOpening xs start ys) : ys <:+ xs := by
  cases d with
  | unset => exact suffix_refl _
  | value _ expr => exact suffix_cons_of expr.suffix

theorem Optional.suffix {b : Bool} (d : Optional kind xs b ys) : ys <:+ xs := by
  cases d <;> grind

theorem FieldDecl.suffix (d : FieldDecl xs v ys) : ys <:+ xs := by
  obtain ⟨induce, _, _, _, opening, _⟩ := d
  have hinduce := induce.suffix
  have hopening := opening.suffix
  grind

theorem TranceifyDecl.suffix {decl : Tranceify} (d : TranceifyDecl xs decl ys) : ys <:+ xs := by
  obtain ⟨_, _, _, members, _⟩ := d
  have hmembers := members.suffix fun _ _ _ d => d.suffix
  grind

theorem OptionalPhrase.suffix {e : Option Expr} (d : OptionalPhrase xs e ys) : ys <:+ xs := by
  cases d with
  | absent => exact suffix_refl _
  | present expr => exact expr.suffix

theorem LoopOpening.suffix {s : Option Stmt} (d : LoopOpening xs s ys) : ys <:+ xs := by
  cases d with
  | none => grind
  | induce decl => exact decl.suffix
  | expr expr _ => exact suffix_of_cons expr.suffix

theorem SuggestionName.suffix {name : String} (d : SuggestionName xs name ys) : ys <:+ xs := by
  cases d <;> grind

theorem Visibility.suffix {b : Bool} (d : Visibility xs b ys) : ys <:+ xs := by
  cases d <;> grind

theorem Message.suffix {m : Option String} (d : Message xs m ys) : ys <:+ xs := by
  cases d <;> grind

end

/-! ## How many tokens -/

def Form.least : Form → Nat
  | arguments | fields => 0
  | _ => 1

theorem Phrase.length_le {form : Form} {tree : form.Tree} (d : Phrase form xs tree ys) :
    ys.length + form.least ≤ xs.length := by
  induction d <;> simp only [Form.least, length_cons] at * <;> omega

theorem Phrase.length_lt {e : Expr} (d : Phrase .expression xs e ys) : ys.length < xs.length :=
  d.length_le

theorem VariableDecl.length_lt (d : VariableDecl xs v ys) : ys.length < xs.length := by
  obtain ⟨_, _, typed, opening, _⟩ := d
  have := typed.suffix.length_le
  have := opening.suffix.length_le
  simp only [length_cons] at *
  omega

theorem ParamDecl.length_lt {param : Param} (d : ParamDecl xs param ys) :
    ys.length < xs.length := by
  obtain ⟨_, typed⟩ := d
  have := typed.suffix.length_le
  simp only [length_cons]
  omega

theorem Listing.length_lt {α : Type} {item : List Token → α → List Token → Type}
    (h : ∀ xs a ys, item xs a ys → ys.length < xs.length) {as : List α}
    (d : Listing item xs as ys) : ys.length < xs.length := by
  induction d with
  | last only => exact h _ _ _ only
  | more first _ _ ih =>
    have := h _ _ _ first
    simp only [length_cons] at this
    omega

theorem Series.length_le {α : Type} {item : List Token → α → List Token → Type}
    (h : ∀ xs a ys, item xs a ys → ys.length < xs.length) {as : List α} (d : Series item xs as ys) :
    ys.length ≤ xs.length := by
  induction d with
  | nil => exact Nat.le_refl _
  | cons first _ ih =>
    have := h _ _ _ first
    omega

theorem ParamList.length_lt {params : List Param} (d : ParamList xs params ys) :
    ys.length < xs.length := by
  cases d with
  | none => simp only [length_cons]; omega
  | some _ listing _ =>
    have := listing.length_lt fun _ _ _ d => d.length_lt
    simp only [length_cons] at *
    omega

theorem FieldDecl.length_lt (d : FieldDecl xs v ys) : ys.length < xs.length := by
  obtain ⟨induce, _, _, _, opening, _⟩ := d
  have := induce.suffix.length_le
  have := opening.suffix.length_le
  simp only [length_cons] at *
  omega

theorem TranceifyDecl.length_lt {decl : Tranceify} (d : TranceifyDecl xs decl ys) :
    ys.length < xs.length := by
  obtain ⟨_, _, _, members, _⟩ := d
  have := members.length_le fun _ _ _ d => d.length_lt
  simp only [length_cons] at *
  omega

theorem SuggestionName.length_lt {name : String} (d : SuggestionName xs name ys) :
    ys.length < xs.length := by
  cases d <;> simp +arith

def Shape.least : Shape → Nat
  | statements | alternative | members => 0
  | _ => 1

theorem Clause.length_le {shape : Shape} {tree : shape.Tree} (d : Clause origin shape xs tree ys) :
    ys.length + shape.least ≤ xs.length := by
  induction d <;> simp only [Shape.least, length_cons] at * <;> try omega
  case branch condition _ _ _ _ _ => have := condition.length_lt; simp only [length_cons] at *; omega
  case induce decl => have := decl.length_lt; omega
  case whileLoop condition _ _ _ => have := condition.length_lt; simp only [length_cons] at *; omega
  case loop opening condition _ stepping _ _ _ =>
    have := opening.suffix.length_le
    have := condition.suffix.length_le
    have := stepping.suffix.length_le
    simp only [length_cons] at *
    omega
  case tranceify declared => have := declared.length_lt; omega
  case observe expr _ => have := expr.length_lt; simp only [length_cons] at *; omega
  case awaken value _ => have := value.suffix.length_le; simp only [length_cons] at *; omega
  case assert condition stated _ =>
    have := condition.length_lt
    have := stated.suffix.length_le
    simp only [length_cons] at *
    omega
  case expr expr _ => have := expr.length_lt; simp only [length_cons] at *; omega
  case signature named parameters typed _ _ =>
    have := named.length_lt
    have := parameters.length_lt
    have := typed.suffix.length_le
    omega
  case field decl => have := decl.length_lt; omega
  case member visibility dominance _ _ =>
    have := visibility.suffix.length_le
    have := dominance.suffix.length_le
    omega

theorem Clause.suffix {shape : Shape} {tree : shape.Tree} (d : Clause origin shape xs tree ys) :
    ys <:+ xs := by
  induction d with
  | nil | noElse | noMembers => exact suffix_refl _
  | cons _ _ first rest | moreMembers _ _ first rest => exact rest.trans first
  | block _ _ _ statements => exact suffix_cons_of (suffix_of_cons statements)
  | branch _ _ condition _ _ _ then_ else_ =>
    exact suffix_cons_of (suffix_cons_of
      (else_.trans (then_.trans (suffix_of_cons condition.suffix))))
  | elseBlock _ _ ih | elseBranch _ _ ih | suggestion _ _ ih | method _ _ ih =>
    exact suffix_cons_of ih
  | branching _ ih | constructor _ _ ih => exact ih
  | induce decl | field decl | tranceify decl => exact decl.suffix
  | whileLoop _ _ condition _ _ block =>
    exact suffix_cons_of (suffix_cons_of (block.trans (suffix_of_cons condition.suffix)))
  | loop _ _ opening condition _ stepping _ _ block =>
    have hheader := (suffix_of_cons condition.suffix).trans opening.suffix
    exact suffix_cons_of (suffix_cons_of
      ((block.trans (suffix_of_cons stepping.suffix)).trans hheader))
  | imperative _ _ _ ih | dominant _ _ _ ih | imperativeMethod _ _ _ ih =>
    exact suffix_cons_of (suffix_cons_of ih)
  | session _ _ _ _ _ body =>
    exact suffix_cons_of (suffix_cons_of (suffix_cons_of (suffix_of_cons body)))
  | observe _ expr _ | awaken _ expr _ => exact suffix_cons_of (suffix_of_cons expr.suffix)
  | snap | sink => exact suffix_cons_of (suffix_cons _ _)
  | sinkTo | label => exact suffix_cons_of (suffix_cons_of (suffix_cons _ _))
  | assert _ condition stated _ =>
    exact suffix_cons_of ((suffix_of_cons stated.suffix).trans condition.suffix)
  | expr expr _ => exact suffix_of_cons expr.suffix
  | signature named parameters typed _ block =>
    exact block.trans (typed.suffix.trans (parameters.suffix.trans named.suffix))
  | member visibility dominance _ declared =>
    exact declared.trans (dominance.suffix.trans visibility.suffix)

theorem Clause.length_lt (d : Clause origin .statement xs s ys) :
    ys.length < xs.length :=
  d.length_le

theorem Top.length_lt (d : Top origin xs s ys) : ys.length < xs.length := by
  cases d with
  | entrance _ d => have := d.length_le; simp only [length_cons, Shape.least] at *; omega
  | mindLink => simp only [length_cons]; omega
  | statement d => exact d.length_lt

/-! ## Which token comes first -/

/-- The kinds of tokens that a primary expression can start with. -/
def primaryOpeners : List Token.Kind :=
  [.number, .text, .trueWord, .falseWord, .identifier, .leftParen, .leftBracket]

def openers : List Token.Kind :=
  primaryOpeners ++ signs.map Prod.fst

/-- The kinds of tokens that a form can start with. Lists that may be empty can be followed by
anything. -/
def Form.Opens : Form → Token.Kind → Prop
  | arguments, _ | fields, _ => True
  | access, kind | primary, kind => kind ∈ primaryOpeners
  | _, kind => kind ∈ openers

theorem Phrase.starts {form : Form} {tree : form.Tree} (d : Phrase form xs tree ys) :
    Starts form.Opens xs := by
  induction d with
  | plain _ ih | assign _ _ _ _ ih _ | operand _ ih | single _ ih | binary _ _ _ ih _
  | base _ ih | call _ _ _ _ ih _ | field _ _ _ ih | index _ _ _ _ ih _
  | lastItem _ ih | moreItems _ _ _ ih _ => exact ih
  | unsigned _ ih => exact ih.mono fun _ h => mem_append_left _ h
  | sign operator _ _ => exact mem_append_right _ (mem_map_of_mem operator)
  | number h _ | text h | yes h | no h | name h | record h _ _ _ | paren h _ _ | array h _ _ =>
    simp [Form.Opens, h, primaryOpeners]
  | noArguments | someArguments _ _ | noFields | lastField _ _ _ _ | moreFields _ _ _ _ _ _ _ =>
    exact trivial

theorem Phrase.starts_openers {e : Expr} (d : Phrase .expression xs e ys) :
    Starts (· ∈ openers) xs :=
  d.starts

theorem VariableDecl.starts (d : VariableDecl xs v ys) : Starts (· = .induce) xs := by
  cases d; assumption

theorem TranceifyDecl.starts {decl : Tranceify} (d : TranceifyDecl xs decl ys) :
    Starts (· = .tranceify) xs := by
  cases d; assumption

theorem Clause.starts_if (d : Clause origin .branch xs s ys) : Starts (· = .ifWord) xs := by
  cases d; assumption

def statementOpeners : List Token.Kind :=
  [.induce, .ifWord, .whileWord, .loop, .suggestion, .imperative, .dominant, .session, .tranceify,
   .observe, .awaken, .snap, .sink, .sinkTo, .label, .assert] ++ openers

theorem Clause.starts (d : Clause origin .statement xs s ys) :
    Starts (· ∈ statementOpeners) xs := by
  cases d with
  | induce decl => exact decl.starts.mono fun _ h => by simp [h, statementOpeners]
  | branching branch => exact branch.starts_if.mono fun _ h => by simp [h, statementOpeners]
  | tranceify declared => exact declared.starts.mono fun _ h => by simp [h, statementOpeners]
  | expr expr _ => exact mem_append_right _ expr.starts
  | whileLoop h | loop h | suggestion h | imperative h | dominant h | session h | observe h | awaken h
  | snap h | sink h | sinkTo h | label h | assert h => simp [h, statementOpeners]

theorem Clause.branch_of_starts (d : Clause origin .statement xs s ys)
    (hif : Starts (· = .ifWord) xs) : Nonempty (Clause origin .branch xs s ys) := by
  cases d with
  | branching branch => exact ⟨branch⟩
  | induce decl => exact absurd (decl.starts.symm.trans hif) (by decide)
  | tranceify declared => exact absurd (declared.starts.symm.trans hif) (by decide)
  | expr expr _ =>
    have hopens : Token.Kind.ifWord ∈ openers := Eq.subst hif expr.starts_openers
    exact absurd hopens (by decide)
  | whileLoop h | loop h | suggestion h | imperative h | dominant h | session h | observe h | awaken h
  | snap h | sink h | sinkTo h | label h | assert h =>
    exact absurd (h.symm.trans hif) (by decide)

end Trance.Grammar
