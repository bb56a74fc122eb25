import Trance.Proofs.Grammar.Sound
import Trance.Proofs.Grammar.ReadClause
import Trance.Proofs.Grammar.UniquePhrase

/-!
# Derivations of statements are unique

The parser reads every derivation of a program, so its tokens determine the tree. The tree of a
declaration or of a statement tells how it was derived, and where it ends; only modifiers that are
left out leave something to the tokens. -/

namespace Trance.Grammar

variable {origin : Origin} {xs ys zs : List Token}

/-! ## Parts of declarations -/

/-- Derivations of the same tree from the same tokens are the same, and end at the same token. -/
def Determined {α : Type} (D : List Token → α → List Token → Type) : Prop :=
  ∀ ⦃xs a ys zs⦄ (d : D xs a ys) (d' : D xs a zs),
    (⟨ys, d⟩ : (ys : List Token) × D xs a ys) = ⟨zs, d'⟩

theorem determined_optional (kind : Token.Kind) : Determined (Optional kind) := by
  intro xs b ys zs d d'
  cases d <;> cases d' <;> rfl

theorem determined_typeMark : Determined TypeMark := by
  intro xs type ys zs d d'
  cases d <;> cases d' <;> rfl

theorem determined_message : Determined Message := by
  intro xs m ys zs d d'
  cases d <;> cases d' <;> rfl

theorem determined_optionalPhrase : Determined OptionalPhrase := by
  intro xs e ys zs d d'
  cases d with
  | absent => cases d'; rfl
  | present d =>
    cases d' with
    | present d' => cases d.eq_of_tree d'; rfl

theorem determined_opening : Determined Opening := by
  intro xs start ys zs d d'
  cases d with
  | unset | external => cases d'; rfl
  | value _ d =>
    cases d' with
    | value _ d' => cases d.eq_of_tree d'; rfl

theorem determined_fieldOpening : Determined FieldOpening := by
  intro xs start ys zs d d'
  cases d with
  | unset => cases d'; rfl
  | value _ d =>
    cases d' with
    | value _ d' => cases d.eq_of_tree d'; rfl

theorem determined_variable : Determined VariableDecl := by
  intro xs v ys zs d d'
  cases d with
  | mk _ _ typed opening =>
    cases d' with
    | mk _ _ typed' opening' =>
      cases determined_typeMark typed typed'
      cases determined_opening opening opening'
      rfl

theorem determined_param : Determined ParamDecl := by
  intro xs param ys zs d d'
  cases d with
  | mk _ typed =>
    cases d' with
    | mk _ typed' => cases determined_typeMark typed typed'; rfl

theorem determined_suggestionName : Determined SuggestionName := by
  have eq : ∀ {xs name ys name' zs} (d : SuggestionName xs name ys)
      (d' : SuggestionName xs name' zs),
      (⟨name, ys, d⟩ : (name : String) × (ys : List Token) × SuggestionName xs name ys) =
        ⟨name', zs, d'⟩ := by
    intro xs name ys name' zs d d'
    cases d with
    | named h =>
      cases d' with
      | named => rfl
      | constructor h' => exact absurd (h.symm.trans h') (by decide)
    | constructor h =>
      cases d' with
      | named h' => exact absurd (h.symm.trans h') (by decide)
      | constructor => rfl
  intro xs name ys zs d d'
  cases eq d d'
  rfl

theorem determined_loopOpening : Determined LoopOpening := by
  intro xs s ys zs d d'
  cases d with
  | none => cases d'; rfl
  | induce d =>
    cases d' with
    | induce d' => cases determined_variable d d'; rfl
  | expr d =>
    cases d' with
    | expr d' => cases d.eq_of_tree d'; rfl

theorem determined_listing {α : Type} {item : List Token → α → List Token → Type}
    (h : Determined item) : Determined (Listing item) := by
  intro xs as ys zs d d'
  induction d generalizing zs with
  | last d =>
    cases d' with
    | last d' => cases h d d'; rfl
    | more _ _ rest => cases rest
  | more d _ rest ih =>
    cases d' with
    | last => cases rest
    | more d' _ rest' =>
      cases h d d'
      cases ih rest'
      rfl

theorem determined_series {α : Type} {item : List Token → α → List Token → Type}
    (h : Determined item) : Determined (Series item) := by
  intro xs as ys zs d d'
  induction d generalizing zs with
  | nil => cases d'; rfl
  | cons d _ ih =>
    cases d' with
    | cons d' rest' =>
      cases h d d'
      cases ih rest'
      rfl

theorem determined_params : Determined ParamList := by
  intro xs params ys zs d d'
  cases d with
  | none =>
    cases d' with
    | none => rfl
    | some _ d' => cases d'
  | some _ d =>
    cases d' with
    | none => cases d
    | some _ d' => cases determined_listing determined_param d d'; rfl

theorem determined_field : Determined FieldDecl := by
  have eq : ∀ {xs v ys v' zs} (d : FieldDecl xs v ys) (d' : FieldDecl xs v' zs), v = v' →
      (⟨v, ys, d⟩ : (v : Variable) × (ys : List Token) × FieldDecl xs v ys) = ⟨v', zs, d'⟩ := by
    rintro xs v ys v' zs ⟨induce, hname, _, _, opening, _⟩ d' hv
    cases d' with
    | mk induce' hname' _ _ opening' =>
      injection hv with _ _ hstart
      subst hstart
      cases induce with
      | absent =>
        cases induce' with
        | absent => cases determined_fieldOpening opening opening'; rfl
        | present h => exact absurd (hname.symm.trans h) (by decide)
      | present h =>
        cases induce' with
        | absent => exact absurd (hname'.symm.trans h) (by decide)
        | present => cases determined_fieldOpening opening opening'; rfl
  intro xs v ys zs d d'
  cases eq d d' rfl
  rfl

theorem determined_tranceify : Determined TranceifyDecl := by
  intro xs decl ys zs d d'
  cases d with
  | mk _ _ _ members =>
    cases d' with
    | mk _ _ _ members' => cases determined_series determined_field members members'; rfl

theorem Visibility.eq_of_starts {exposed : Bool} (d : Visibility xs exposed ys)
    (d' : Visibility xs exposed zs) (hys : Avoids .expose ys) (hzs : Avoids .expose zs) :
    (⟨ys, d⟩ : (ys : List Token) × Visibility xs exposed ys) = ⟨zs, d'⟩ := by
  cases d with
  | unmarked =>
    cases d' with
    | unmarked => rfl
    | exposed h => exact absurd h hys
  | exposed h =>
    cases d' with
    | unmarked => exact absurd h hzs
    | exposed => rfl
  | concealed => cases d'; rfl

/-! ## Statements -/

/-- **A statement has one derivation of its tree from its tokens.** -/
theorem Clause.determined (shape : Shape) : Determined (Clause origin shape) := by
  intro xs tree ys zs d d'
  induction d generalizing zs with
  -- lists, blocks and branches
  | nil | noElse | noMembers => cases d'; rfl
  | cons _ _ ih ih' =>
    cases d' with
    | cons first rest =>
      cases ih first
      cases ih' rest
      rfl
  | block _ _ _ ih =>
    cases d' with
    | block _ d' => cases ih d'; rfl
  | branch _ _ condition _ _ _ ih ih' =>
    cases d' with
    | branch _ _ condition' _ yes no =>
      cases condition.eq_of_tree condition'
      cases ih yes
      cases ih' no
      rfl
  | elseBlock _ d ih =>
    cases d' with
    | elseBlock _ d' => cases ih d'; rfl
    | elseBranch _ d' => exact absurd (d.starts_brace.symm.trans d'.starts_if) (by decide)
  | elseBranch _ d ih =>
    cases d' with
    | elseBlock _ d' => exact absurd (d'.starts_brace.symm.trans d.starts_if) (by decide)
    | elseBranch _ d' => cases ih d'; rfl
  | branching d ih =>
    cases d' with
    | branching d' => cases ih d'; rfl
    | _ => cases d
  -- statements
  | induce decl =>
    cases d' with
    | induce decl' => cases determined_variable decl decl'; rfl
    | branching d' => cases d'
  | whileLoop _ _ condition _ _ ih =>
    cases d' with
    | whileLoop _ _ condition' _ body =>
      cases condition.eq_of_tree condition'
      cases ih body
      rfl
    | branching d' => cases d'
  | loop _ _ opening condition _ stepping _ _ ih =>
    cases d' with
    | loop _ _ opening' condition' _ stepping' _ body =>
      cases determined_loopOpening opening opening'
      cases determined_optionalPhrase condition condition'
      cases determined_optionalPhrase stepping stepping'
      cases ih body
      rfl
    | branching d' => cases d'
  | tranceify declared =>
    cases d' with
    | tranceify declared' => cases determined_tranceify declared declared'; rfl
    | branching d' => cases d'
  | session _ _ _ _ _ ih =>
    cases d' with
    | session _ _ _ d' => cases ih d'; rfl
    | branching d' => cases d'
  | observe _ e =>
    cases d' with
    | observe _ e' => cases e.eq_of_tree e'; rfl
    | branching d' => cases d'
  | awaken _ e =>
    cases d' with
    | awaken _ e' => cases determined_optionalPhrase e e'; rfl
    | branching d' => cases d'
  | snap =>
    cases d' with
    | snap => rfl
    | branching d' => cases d'
  | sink =>
    cases d' with
    | sink => rfl
    | branching d' => cases d'
  | sinkTo =>
    cases d' with
    | sinkTo => rfl
    | branching d' => cases d'
  | label =>
    cases d' with
    | label => rfl
    | branching d' => cases d'
  | assert _ condition stated =>
    cases d' with
    | assert _ condition' stated' =>
      cases condition.eq_of_tree condition'
      cases determined_message stated stated'
      rfl
    | branching d' => cases d'
  | expr e =>
    cases d' with
    | expr e' => cases e.eq_of_tree e'; rfl
    | branching d' => cases d'
  -- suggestions, which are told apart by their modifiers
  | suggestion hword _ ih =>
    cases d' with
    | suggestion _ d' => cases ih d'; rfl
    | imperative h | dominant h => exact absurd (hword.symm.trans h) (by decide)
    | branching d' => cases d'
  | imperative hmark _ _ ih =>
    cases d' with
    | imperative _ _ d' => cases ih d'; rfl
    | suggestion h | dominant h => exact absurd (hmark.symm.trans h) (by decide)
    | branching d' => cases d'
  | dominant hmark _ _ ih =>
    cases d' with
    | dominant _ _ d' => cases ih d'; rfl
    | suggestion h | imperative h => exact absurd (hmark.symm.trans h) (by decide)
    | branching d' => cases d'
  | signature named parameters typed _ ih =>
    cases d' with
    | signature named' parameters' typed' body =>
      cases determined_suggestionName named named'
      cases determined_params parameters parameters'
      cases determined_typeMark typed typed'
      cases ih body
      rfl
  -- members
  | field decl =>
    cases d' with
    | field decl' => cases determined_variable decl decl'; rfl
  | method hword _ ih =>
    cases d' with
    | method _ d' => cases ih d'; rfl
    | imperativeMethod h | constructor h => exact absurd (hword.symm.trans h) (by decide)
  | imperativeMethod hmark _ _ ih =>
    cases d' with
    | imperativeMethod _ _ d' => cases ih d'; rfl
    | method h | constructor h => exact absurd (hmark.symm.trans h) (by decide)
  | constructor hword _ ih =>
    cases d' with
    | constructor _ d' => cases ih d'; rfl
    | method h | imperativeMethod h => exact absurd (hword.symm.trans h) (by decide)
  | member visibility dominance d ih =>
    have hvisible : ∀ kind ∈ Token.Kind.dominant :: memberOpeners, kind ≠ .expose := by decide
    cases d' with
    | member visibility' dominance' d' =>
      cases visibility.eq_of_starts visibility' ((starts_dominance dominance d).mono hvisible)
        ((starts_dominance dominance' d').mono hvisible)
      cases determined_optional _ dominance dominance'
      cases ih d'
      rfl
  | moreMembers _ _ ih ih' =>
    cases d' with
    | moreMembers first rest =>
      cases ih first
      cases ih' rest
      rfl

/-! ## Programs -/

theorem determined_top : Determined (Top origin) := by
  intro xs s ys zs d d'
  cases d with
  | entrance _ b =>
    cases d' with
    | entrance _ b' => cases Clause.determined _ b b'; rfl
    | statement d' => cases d' with | branching d' => cases d'
  | mindLink =>
    cases d' with
    | mindLink => rfl
    | statement d' => cases d' with | branching d' => cases d'
  | statement d =>
    cases d' with
    | statement d' => cases Clause.determined _ d d'; rfl
    | _ => cases d with | branching d => cases d

/-- **A program has one derivation from its tokens**, if there is no end marker among them. -/
theorem Sentence.unique {p p' : Program} (hxs : ∀ t ∈ xs, t.kind ≠ .eof) (d : Sentence origin xs p)
    (d' : Sentence origin xs p') : (⟨p, d⟩ : (p : Program) × Sentence origin xs p) = ⟨p', d'⟩ := by
  have hpass : Passes xs [] := ⟨xs, (List.append_nil xs).symm, hxs⟩
  obtain rfl : p = p' :=
    (d.reads (Nat.lt_succ_self _)).unique hpass (d'.reads (Nat.lt_succ_self _)) hpass
  cases d with
  | bare _ tops hrelax stop =>
    cases d' with
    | bare _ tops' _ stop' =>
      cases determined_series determined_top tops tops'
      cases stop <;> cases stop' <;> rfl
    | braced _ hl => exact absurd hl (tops.avoids_brace hrelax)
  | braced _ hl tops _ _ stop =>
    cases d' with
    | bare _ tops' hrelax' => exact absurd hl (tops'.avoids_brace hrelax')
    | braced _ _ tops' _ _ stop' =>
      cases determined_series determined_top tops tops'
      cases stop <;> cases stop' <;> rfl

/-! ## Parsing -/

theorem takeWhile_eof {body : List Token} (hbody : ∀ t ∈ body, t.kind ≠ .eof) {last : Token}
    (hlast : last.kind = .eof) : (body ++ [last]).takeWhile (·.kind ≠ .eof) = body := by
  rw [List.takeWhile_append_of_pos (by simpa using hbody)]
  simp [hlast]

/-- **The parser accepts exactly its grammar.** On tokens whose only end marker is the last one, it
returns a program if and only if the program can be derived from the tokens before the end
marker, and they have at most one derivation. -/
theorem ofTokens_eq_ok_iff_sentence (origin : Origin) (body : List Token) (last : Token)
    (hbody : ∀ t ∈ body, t.kind ≠ .eof) (hlast : last.kind = .eof) :
    (∀ p, Program.ofTokens origin (body ++ [last]) = .ok p ↔ Nonempty (Sentence origin body p)) ∧
      Subsingleton ((p : Program) × Sentence origin body p) := by
  have hcount := takeWhile_eof hbody hlast
  refine ⟨fun p => ⟨fun h => ?_, fun ⟨d⟩ => ?_⟩, ⟨fun ⟨_, d⟩ ⟨_, d'⟩ => Sentence.unique hbody d d'⟩⟩
  · have hsentence := sentence_of_ofTokens h
    rwa [hcount] at hsentence
  · exact Sentence.ofTokens (hcount.symm ▸ d)

/-- The tokens of a program that assigns to a name in parentheses. -/
def parenthesized : List Token :=
  [⟨.focus, "Focus", ⟨1, 1⟩⟩, ⟨.leftParen, "(", ⟨1, 7⟩⟩, ⟨.identifier, "x", ⟨1, 8⟩⟩,
   ⟨.rightParen, ")", ⟨1, 9⟩⟩, ⟨.assign, "=", ⟨1, 11⟩⟩, ⟨.trueWord, "true", ⟨1, 13⟩⟩,
   ⟨.semicolon, ";", ⟨1, 17⟩⟩, ⟨.relax, "Relax", ⟨1, 19⟩⟩]

/-- Parentheses leave no node, so that this is an assignment. -/
theorem parenthesized_exact : Program.ofTokens .main (parenthesized ++ [⟨.eof, "", ⟨1, 24⟩⟩]) =
      .ok ⟨[.expr (.assign (.name "x" ⟨1, 8⟩) (.boolean true ⟨1, 13⟩) ⟨1, 11⟩) ⟨1, 7⟩]⟩ ∧
    Nonempty (Sentence .main parenthesized
      ⟨[.expr (.assign (.name "x" ⟨1, 8⟩) (.boolean true ⟨1, 13⟩) ⟨1, 11⟩) ⟨1, 7⟩]⟩) :=
  have hparse : Program.ofTokens .main (parenthesized ++ [⟨.eof, "", ⟨1, 24⟩⟩]) =
      .ok ⟨[.expr (.assign (.name "x" ⟨1, 8⟩) (.boolean true ⟨1, 13⟩) ⟨1, 11⟩) ⟨1, 7⟩]⟩ := by rfl
  ⟨hparse, ((ofTokens_eq_ok_iff_sentence .main parenthesized ⟨.eof, "", ⟨1, 24⟩⟩
    (by decide) rfl).1 _).1 hparse⟩

end Trance.Grammar
