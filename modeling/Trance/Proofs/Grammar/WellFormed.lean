import Trance.Proofs.Grammar.Sound
import Trance.Proofs.Running.Contents

/-!
# Trees of programs that are read

The tree of a program has room for more than can be written: for entrances inside of bodies, for
assignments to sums, for suggestions that are imperative and dominant. A program that has been read
from tokens has none of this, at any depth.
-/

namespace Trance

open List

/-! ## Well-formed trees -/

/-- An assignment is made to a name, a field or an item. -/
def Expr.AssignsPlace : Expr → Prop
  | .assign (.name ..) .. | .assign (.field ..) .. | .assign (.index ..) .. => True
  | .assign .. => False
  | _ => True

/-- A variable does not start with a value of its own and one from outside as well. No `Start` is
both, so this is true of every variable. -/
def Variable.StartsOnce (v : Variable) : Prop :=
  ¬(v.start.expr?.isSome = true ∧ v.start.isExternal = true)

/-- The first word of a method tells whether its modifiers are those of its member: a constructor
that is written without the word for suggestions has none. -/
def SuggestionOf.ModifiedBy (word : Token.Kind) (dominant : Bool) (method : Suggestion) : Prop :=
  match word with
  | .suggestion => method.imperative = false ∧ method.dominant = dominant
  | .imperative => method.imperative = true ∧ method.dominant = dominant
  | .constructor => method.name = constructorName ∧ method.imperative = false ∧
    method.dominant = false
  | _ => False

/-- What is required of a member of a session that is written with some tokens. -/
def MemberOf.WellFormed (tokens : List Token) (member : Member) : Prop :=
  match member.decl with
  | .field v => v.StartsOnce
  | .method method =>
    ∃ word ∈ tokens, word.location = method.location ∧ method.ModifiedBy word.kind member.dominant

namespace Stmt

/-- Whether a statement can stand at the top level only. -/
def isTopLevel : Stmt → Bool
  | entrance .. | mindLink .. => true
  | _ => false

/-- What is required of the declarations in a statement that is written with some tokens, and of the
opening of a loop. -/
def DeclaresWell (tokens : List Token) : Stmt → Prop
  | induce v => v.StartsOnce
  | loop init _ _ _ _ => ∀ first ∈ init, (∃ v, first = induce v) ∨ ∃ e loc, first = expr e loc
  | suggestion decl => ¬(decl.imperative = true ∧ decl.dominant = true)
  | session decl => ∀ member ∈ decl.members, member.WellFormed tokens
  | tranceify decl => ∀ field ∈ decl.members,
      field.StartsOnce ∧ field.typeName.isSome = true ∧ field.start.isExternal = false
  | _ => True

/-- What is required of a statement that is written with some tokens, and of what is directly inside
of it. -/
structure WellFormed (tokens : List Token) (stmt : Stmt) : Prop where
  nested : ∀ child ∈ stmt.children, child.isTopLevel = false
  places : ∀ e ∈ exprParts stmt.exprs, e.AssignsPlace
  declares : stmt.DeclaresWell tokens

end Stmt

/-- Every statement of a program is well formed, at any depth. -/
def Program.WellFormed (tokens : List Token) (p : Program) : Prop :=
  ∀ part ∈ p.parts, part.WellFormed tokens

theorem Start.startsOnce (start : Start) :
    ¬(start.expr?.isSome = true ∧ start.isExternal = true) := by
  cases start <;> simp [expr?, isExternal]

namespace Grammar

variable {origin : Origin} {xs ys text tokens : List Token}

/-! ## Expressions -/

def Form.exprs : (form : Form) → form.Tree → List Expr
  | expression, e | operation _, e | signed, e | access, e | primary, e => [e]
  | items, es | arguments, es => es
  | fields, given => given.map Prod.snd

abbrev Assigns (e : Expr) : Prop := e.Every Expr.AssignsPlace

/-- **A derivation spells assignments to places only.** -/
theorem Phrase.places {form : Form} {tree : form.Tree} (d : Phrase form xs tree ys) :
    ∀ e ∈ form.exprs tree, Assigns e := by
  induction d with
  | plain _ ih | operand _ ih | single _ ih | unsigned _ ih | base _ ih | paren _ _ _ ih
  | someArguments _ ih | lastItem _ ih => exact ih
  | noArguments | noFields => simp [Form.exprs]
  | number | text | yes | no | name =>
    exact forall_mem_singleton.2 (.intro trivial (forall_mem_nil _))
  | assign _ isPlace _ _ ihl ihr =>
    simp only [Form.exprs, forall_mem_singleton] at ihl ihr ⊢
    refine .intro ?_ (forall_mem_cons.2 ⟨ihl, forall_mem_singleton.2 ihr⟩)
    unfold Expr.isPlace at isPlace
    split at isPlace
    all_goals trivial
  | binary _ _ _ ihl ihr | index _ _ _ _ ihl ihr =>
    simp only [Form.exprs, forall_mem_singleton] at ihl ihr ⊢
    exact .intro trivial (forall_mem_cons.2 ⟨ihl, forall_mem_singleton.2 ihr⟩)
  | sign _ _ ih | field _ _ _ ih | array _ _ _ ih | record _ _ _ _ ih =>
    exact forall_mem_singleton.2 (.intro trivial ih)
  | call _ _ _ _ ihcallee ihargs =>
    exact forall_mem_singleton.2 (.intro trivial (forall_mem_cons.2
      ⟨forall_mem_singleton.1 ihcallee, ihargs⟩))
  | moreItems _ _ _ ihfirst ihrest | moreFields _ _ _ _ _ ihfirst ihrest =>
    exact forall_mem_cons.2 ⟨forall_mem_singleton.1 ihfirst, ihrest⟩
  | lastField _ _ _ ih => exact ih

theorem OptionalPhrase.places {e : Option Expr} (d : OptionalPhrase xs e ys) :
    ∀ part ∈ e.toList, Assigns part := by
  cases d with
  | absent => exact forall_mem_nil _
  | present expr => exact expr.places

theorem VariableDecl.places {v : Variable} (d : VariableDecl xs v ys) :
    ∀ e ∈ v.start.expr?.toList, Assigns e := by
  obtain ⟨_, _, _, opening, _⟩ := d
  cases opening with
  | unset | external => exact forall_mem_nil _
  | value _ expr => exact expr.places

theorem FieldDecl.places {v : Variable} (d : FieldDecl xs v ys) :
    (v.typeName.isSome = true ∧ v.start.isExternal = false) ∧
    ∀ e ∈ v.start.expr?.toList, Assigns e := by
  obtain ⟨_, _, _, _, opening, _⟩ := d
  cases opening with
  | unset => exact ⟨⟨rfl, rfl⟩, forall_mem_nil _⟩
  | value _ expr => exact ⟨⟨rfl, rfl⟩, expr.places⟩

/-! ## Statements -/

/-- A statement that may stand inside of others, with all that is inside of it. -/
def Nested (tokens : List Token) (stmt : Stmt) : Prop :=
  stmt.isTopLevel = false ∧ stmt.Every (Stmt.WellFormed tokens)

theorem every_wellFormed {stmt : Stmt} (hexprs : ∀ e ∈ stmt.exprs, Assigns e)
    (hdeclares : stmt.DeclaresWell tokens) (hinside : ∀ child ∈ stmt.children, Nested tokens child) :
    stmt.Every (Stmt.WellFormed tokens) := by
  refine .of_child ⟨fun child h => (hinside child h).1, fun e he => ?_, hdeclares⟩ fun child h =>
    (hinside child h).2
  obtain ⟨top, htop, rfl | hinner⟩ := mem_exprParts.1 he
  · exact (hexprs e htop).here
  · exact (hexprs top htop).inner hinner

/-- What is known about a member of a session and what is inside of it. -/
structure Membership (tokens : List Token) (member : Member) : Prop where
  wellFormed : member.WellFormed tokens
  places : ∀ e ∈ member.exprs, Assigns e
  nested : ∀ stmt ∈ member.body, Nested tokens stmt

def Shape.WellFormed (tokens : List Token) : (shape : Shape) → shape.Tree → Prop
  | statement, s | branch, s => Nested tokens s
  | statements, body | block, body => ∀ s ∈ body, Nested tokens s
  | alternative, no => ∀ s ∈ no.getD [], Nested tokens s
  | suggestion loc imperative dominant, decl =>
    (decl.location = loc ∧ decl.imperative = imperative ∧ decl.dominant = dominant) ∧
      ∀ s ∈ decl.body, Nested tokens s
  | declared dominant, decl => Membership tokens ⟨decl, true, dominant⟩
  | member, m => Membership tokens m
  | members, ms => ∀ m ∈ ms, Membership tokens m

theorem LoopOpening.nested (tokens : List Token) {init : Option Stmt} (d : LoopOpening xs init ys) :
    (∀ first ∈ init, (∃ v, first = .induce v) ∨ ∃ e loc, first = .expr e loc) ∧
      ∀ first ∈ init.toList, Nested tokens first := by
  cases d with
  | none => exact ⟨nofun, forall_mem_nil _⟩
  | induce decl =>
    refine ⟨fun first h => .inl ⟨_, (Option.mem_some.1 h).symm⟩, forall_mem_singleton.2 ⟨rfl, ?_⟩⟩
    exact every_wellFormed decl.places (Start.startsOnce _) (forall_mem_nil _)
  | expr expr _ =>
    refine ⟨fun first h => .inr ⟨_, _, (Option.mem_some.1 h).symm⟩, forall_mem_singleton.2 ⟨rfl, ?_⟩⟩
    exact every_wellFormed expr.places trivial (forall_mem_nil _)

theorem Series.forall {α : Type} {item : List Token → α → List Token → Type} {P : α → Prop}
    (hleft : ∀ xs a ys, item xs a ys → ys <:+ xs)
    (h : ∀ xs a ys, item xs a ys → xs <:+ text → P a) {as : List α} (d : Series item xs as ys)
    (hxs : xs <:+ text) : ∀ a ∈ as, P a := by
  induction d with
  | nil => exact forall_mem_nil _
  | cons first _ ih =>
    exact forall_mem_cons.2 ⟨h _ _ _ first hxs, ih ((hleft _ _ _ first).trans hxs)⟩

theorem TranceifyDecl.nested {decl : Tranceify} (d : TranceifyDecl xs decl ys) :
    Nested tokens (.tranceify decl) := by
  obtain ⟨_, _, _, members, _⟩ := d
  have hmembers := members.forall (fun _ _ _ d => d.suffix) (fun _ _ _ d _ => d.places)
    (suffix_refl _)
  refine ⟨rfl, every_wellFormed (forall_mem_flatMap.2 fun field h => (hmembers field h).2)
    (fun field h => ⟨field.start.startsOnce, (hmembers field h).1⟩) (forall_mem_nil _)⟩

theorem Clause.name_constructor {loc : Location} {imperative dominant : Bool} {word : Token}
    {decl : Suggestion}
    (d : Clause origin (.suggestion loc imperative dominant) (word :: xs) decl ys)
    (hword : word.kind = .constructor) : decl.name = constructorName := by
  cases d with
  | signature named =>
    cases named with
    | named isName => exact absurd (isName.symm.trans hword) (by decide)
    | constructor => rfl

/-- **A derivation spells a well-formed tree.** -/
theorem Clause.wellFormed {shape : Shape} {tree : shape.Tree} (d : Clause origin shape xs tree ys)
    (htext : text ⊆ tokens) (hxs : xs <:+ text) : shape.WellFormed tokens tree := by
  induction d with
  | nil | noElse | noMembers => exact forall_mem_nil _
  | cons first _ ihfirst ihrest | moreMembers first _ ihfirst ihrest =>
    exact forall_mem_cons.2 ⟨ihfirst hxs, ihrest (first.suffix.trans hxs)⟩
  | block _ _ _ ih | elseBlock _ _ ih => exact ih (suffix_of_cons hxs)
  | elseBranch _ _ ih => exact forall_mem_singleton.2 (ih (suffix_of_cons hxs))
  | branching _ ih => exact ih hxs
  | branch _ _ condition _ then_ _ ihthen ihelse =>
    have hys := (suffix_of_cons condition.suffix).trans (suffix_of_cons (suffix_of_cons hxs))
    exact ⟨rfl, every_wellFormed condition.places trivial
      (forall_mem_append.2 ⟨ihthen hys, ihelse (then_.suffix.trans hys)⟩)⟩
  | induce decl =>
    exact ⟨rfl, every_wellFormed decl.places (Start.startsOnce _) (forall_mem_nil _)⟩
  | whileLoop _ _ condition _ _ ih =>
    have hys := (suffix_of_cons condition.suffix).trans (suffix_of_cons (suffix_of_cons hxs))
    exact ⟨rfl, every_wellFormed condition.places trivial (ih hys)⟩
  | loop _ _ opening condition _ stepping _ _ ih =>
    have hheader := (suffix_of_cons stepping.suffix).trans
      ((suffix_of_cons condition.suffix).trans opening.suffix)
    have hbody := ih (hheader.trans (suffix_of_cons (suffix_of_cons hxs)))
    exact ⟨rfl, every_wellFormed (forall_mem_append.2 ⟨condition.places, stepping.places⟩)
      (opening.nested tokens).1 (forall_mem_append.2 ⟨(opening.nested tokens).2, hbody⟩)⟩
  | suggestion _ _ ih =>
    obtain ⟨⟨_, himperative, _⟩, hbody⟩ := ih (suffix_of_cons hxs)
    refine ⟨rfl, every_wellFormed (forall_mem_nil _) ?_ hbody⟩
    simp [Stmt.DeclaresWell, himperative]
  | imperative _ _ _ ih | dominant _ _ _ ih =>
    obtain ⟨⟨_, himperative, hdominant⟩, hbody⟩ := ih (suffix_of_cons (suffix_of_cons hxs))
    refine ⟨rfl, every_wellFormed (forall_mem_nil _) ?_ hbody⟩
    simp [Stmt.DeclaresWell, himperative, hdominant]
  | session _ _ _ _ _ ih =>
    have hmembers := ih (suffix_of_cons (suffix_of_cons (suffix_of_cons hxs)))
    exact ⟨rfl, every_wellFormed (forall_mem_flatMap.2 fun m h => (hmembers m h).places)
      (fun m h => (hmembers m h).wellFormed) (forall_mem_flatMap.2 fun m h => (hmembers m h).nested)⟩
  | tranceify declared => exact declared.nested
  | observe _ expr _ | awaken _ expr _ | assert _ expr _ _ | expr expr _ =>
    exact ⟨rfl, every_wellFormed expr.places trivial (forall_mem_nil _)⟩
  | snap | sink | sinkTo | label =>
    exact ⟨rfl, every_wellFormed (forall_mem_nil _) trivial (forall_mem_nil _)⟩
  | signature named parameters typed _ ih =>
    have hws := typed.suffix.trans (parameters.suffix.trans named.suffix)
    exact ⟨⟨rfl, rfl, rfl⟩, ih (hws.trans hxs)⟩
  | field decl => exact ⟨Start.startsOnce _, decl.places, forall_mem_nil _⟩
  | method isSuggestion _ ih =>
    obtain ⟨⟨hloc, hmodifiers⟩, hbody⟩ := ih (suffix_of_cons hxs)
    refine ⟨⟨_, htext (hxs.subset mem_cons_self), hloc.symm, ?_⟩, forall_mem_nil _, hbody⟩
    rw [isSuggestion]
    exact hmodifiers
  | imperativeMethod isImperative _ _ ih =>
    obtain ⟨⟨hloc, hmodifiers⟩, hbody⟩ := ih (suffix_of_cons (suffix_of_cons hxs))
    refine ⟨⟨_, htext (hxs.subset mem_cons_self), hloc.symm, ?_⟩, forall_mem_nil _, hbody⟩
    rw [isImperative]
    exact hmodifiers
  | constructor isConstructor declared ih =>
    obtain ⟨⟨hloc, hmodifiers⟩, hbody⟩ := ih hxs
    refine ⟨⟨_, htext (hxs.subset mem_cons_self), hloc.symm, ?_⟩, forall_mem_nil _, hbody⟩
    rw [isConstructor]
    exact ⟨declared.name_constructor isConstructor, hmodifiers⟩
  | member visibility dominance _ ih =>
    have hdeclared := ih ((dominance.suffix.trans visibility.suffix).trans hxs)
    exact ⟨hdeclared.wellFormed, hdeclared.places, hdeclared.nested⟩

/-! ## Programs -/

theorem Top.suffix {s : Stmt} (d : Top origin xs s ys) : ys <:+ xs := by
  cases d with
  | entrance _ block => exact suffix_cons_of block.suffix
  | mindLink => exact suffix_cons_of (suffix_cons_of (suffix_cons _ _))
  | statement statement => exact statement.suffix

theorem Top.wellFormed {s : Stmt} (d : Top origin xs s ys) (htext : text ⊆ tokens)
    (hxs : xs <:+ text) : s.Every (Stmt.WellFormed tokens) := by
  cases d with
  | entrance _ block =>
    exact every_wellFormed (forall_mem_nil _) trivial (block.wellFormed htext (suffix_of_cons hxs))
  | mindLink => exact every_wellFormed (forall_mem_nil _) trivial (forall_mem_nil _)
  | statement statement => exact (statement.wellFormed htext hxs).2

theorem Sentence.wellFormed {p : Program} (d : Sentence origin xs p) (hxs : xs ⊆ tokens) :
    p.WellFormed tokens := by
  have htops : ∀ {ys body zs}, Series (Top origin) ys body zs → ys <:+ xs →
      ∀ s ∈ body, s.Every (Stmt.WellFormed tokens) :=
    fun tops => tops.forall (fun _ _ _ d => d.suffix) fun _ _ _ d => d.wellFormed hxs
  refine forall_mem_listParts.2 ?_
  cases d with
  | bare _ tops => exact htops tops (suffix_cons _ _)
  | braced _ _ tops => exact htops tops (suffix_cons_of (suffix_cons _ _))

end Grammar

namespace Program

variable {origin : Origin}

/-- **Every program that is read is well formed.** -/
theorem wellFormed_of_ofTokens {tokens : List Token} {p : Program}
    (h : Program.ofTokens origin tokens = .ok p) : p.WellFormed tokens := by
  obtain ⟨d⟩ := Grammar.sentence_of_ofTokens h
  exact d.wellFormed (takeWhile_sublist _).subset

/-- A session whose member is dominant, while the constructor that it declares is not. -/
def dominantConstructor : Program :=
  ⟨[.session ⟨"S",
    [⟨.method ⟨constructorName, [], none, [], false, false, ⟨1, 28⟩, .main⟩, true, true⟩], ⟨1, 7⟩⟩]⟩

theorem ofText_dominantConstructor :
    ofText .main "Focus session S \x7b dominant constructor() \x7b \x7d \x7d Relax" =
    .ok dominantConstructor := by
  with_unfolding_all rfl

theorem wellFormed_dominantConstructor :
    ofText .main "Focus session S \x7b dominant constructor() \x7b \x7d \x7d Relax" =
      .ok dominantConstructor ∧
      dominantConstructor.WellFormed
        (Token.lex "Focus session S \x7b dominant constructor() \x7b \x7d \x7d Relax") :=
  ⟨ofText_dominantConstructor, wellFormed_of_ofTokens ofText_dominantConstructor⟩

end Program

end Trance
