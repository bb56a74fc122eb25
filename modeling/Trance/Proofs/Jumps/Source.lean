import Trance.Proofs.Grammar.Sound
import Trance.Proofs.Jumps.Site

/-!
# Jumps in a text

In a program that has been read from a text, every jump stands at a position of its own, and links
stand at the top level only. Jumps take the positions of their words, which come one after the
other; and the words of a text stand at different positions.
-/

namespace Trance

open List

/-! ## Positions -/

namespace Location

def Before (a b : Location) : Prop := a.line < b.line ∨ (a.line = b.line ∧ a.column < b.column)

theorem Before.trans {a b c : Location} (h : a.Before b) (h' : b.Before c) : a.Before c := by
  unfold Before at *
  omega

theorem Before.ne {a b : Location} (h : a.Before b) : a ≠ b := by
  rintro rfl
  unfold Before at h
  omega

theorem before_next (loc : Location) (c : Char) : loc.Before (loc.next c) := by
  unfold next Before
  split <;> simp

theorem before_after (loc : Location) {text : List Char} (h : text ≠ []) :
    loc.Before (loc.after text) := by
  induction text generalizing loc with
  | nil => exact absurd rfl h
  | cons c rest ih =>
    rw [after_cons]
    cases rest with
    | nil => exact before_next loc c
    | cons d rest => exact (before_next loc c).trans (ih (loc.next c) (cons_ne_nil d rest))

end Location

namespace Token

theorem Piece.first_text_ne_nil (c : Char) (rest : List Char) : (Piece.first c rest).text ≠ [] := by
  have hnumber : Text.isDigit c = true → numberText (c :: rest) ≠ [] := by
    intro hdigit
    unfold numberText
    simp only [takeWhile_cons, hdigit, if_true]
    split <;> simp
  have hsymbol : (symbol c rest).text ≠ [] := by
    unfold symbol
    split
    · split <;> simp [Piece.plain]
    · split
      · split <;> simp [Piece.plain, Piece.gap]
      · split <;> simp [Piece.plain, Piece.gap]
  unfold Piece.first
  split_ifs with _ _ _ _ hdigit
  · exact cons_ne_nil _ _
  · exact cons_ne_nil _ _
  · exact cons_ne_nil _ _
  · exact cons_ne_nil _ _
  · exact hnumber hdigit
  · exact cons_ne_nil _ _
  · exact hsymbol

theorem pieces_text_ne_nil (text : List Char) : ∀ piece ∈ pieces text, piece.text ≠ [] := by
  induction text using pieces.induct with
  | case1 => simp [pieces]
  | case2 c rest _ ih =>
    rw [pieces]
    exact forall_mem_cons.2 ⟨Piece.first_text_ne_nil c rest, ih⟩

theorem tokensFrom_sorted {all : List Piece} (h : ∀ piece ∈ all, piece.text ≠ []) (loc : Location) :
    (tokensFrom loc all).Pairwise (fun s t => s.location.Before t.location) ∧
      ∀ t ∈ tokensFrom loc all, loc = t.location ∨ loc.Before t.location := by
  induction all generalizing loc with
  | nil => simp [tokensFrom]
  | cons piece rest ih =>
    obtain ⟨hpiece, hrest⟩ := forall_mem_cons.1 h
    obtain ⟨hsorted, hbehind⟩ := ih hrest (loc.after piece.text)
    have hafter := loc.before_after hpiece
    have hbehind' : ∀ t ∈ tokensFrom (loc.after piece.text) rest, loc.Before t.location := by
      intro t ht
      obtain heq | hbefore := hbehind t ht
      · exact heq ▸ hafter
      · exact hafter.trans hbefore
    rw [tokensFrom]
    cases piece.content with
    | none => exact ⟨hsorted, fun t ht => .inr (hbehind' t ht)⟩
    | some content =>
      refine ⟨pairwise_cons.2 ⟨hbehind', hsorted⟩, forall_mem_cons.2 ⟨.inl rfl, ?_⟩⟩
      exact fun t ht => .inr (hbehind' t ht)

/-- **The tokens of a text stand at different positions.** -/
theorem lex_locations_nodup (source : String) : ((lex source).map Token.location).Nodup := by
  have hsorted := (tokensFrom_sorted (pieces_text_ne_nil source.toList) Location.start).1
  exact pairwise_map.2 (hsorted.imp Location.Before.ne)

end Token

/-! ## Tokens and sites -/

namespace Grammar

/-- The tokens of `xs` before `ys` spell sites: the sites stand at the positions of some of these
tokens, in order, and are no links. -/
structure Spelled (xs : List Token) (sites : List Site) (ys : List Token) : Prop where
  order : (sites.map (·.stmt.location) ++ ys.map Token.location).Sublist (xs.map Token.location)
  linkFree : LinkFree sites

namespace Spelled

variable {xs ys zs : List Token} {sites sites' : List Site}

theorem nil (h : ys <:+ xs) : Spelled xs [] ys :=
  ⟨h.sublist.map _, fun _ h => nomatch h⟩

theorem append (h : Spelled xs sites ys) (h' : Spelled ys sites' zs) :
    Spelled xs (sites ++ sites') zs := by
  refine ⟨?_, forall_mem_append.2 ⟨h.linkFree, h'.linkFree⟩⟩
  rw [map_append, append_assoc]
  exact (h'.order.append_left _).trans h.order

theorem before (h : ys <:+ xs) (h' : Spelled ys sites zs) : Spelled xs sites zs :=
  (nil h).append h'

theorem after (h : Spelled xs sites ys) (h' : zs <:+ ys) : Spelled xs sites zs := by
  have happend := h.append (nil h')
  rwa [append_nil] at happend

theorem cons (t : Token) (h : Spelled xs sites ys) : Spelled (t :: xs) sites ys :=
  h.before (suffix_cons t xs)

theorem stop {t : Token} (h : Spelled xs sites (t :: ys)) : Spelled xs sites ys :=
  h.after (suffix_cons t ys)

theorem single (reach : Reach) {t : Token} {stmt : Stmt} (hloc : stmt.location = t.location)
    (hlink : stmt.isLink = false) (h : ys <:+ xs) : Spelled (t :: xs) [⟨reach, stmt⟩] ys := by
  refine ⟨?_, by simpa [LinkFree] using hlink⟩
  simpa [hloc] using h.sublist.map Token.location

end Spelled

def Shape.sites (reach : Reach) : (shape : Shape) → shape.Tree → List Site
  | statement, s | branch, s => Stmt.sites reach s
  | statements, body | block, body => listSites reach body
  | alternative, body => Option.elim body [] fun body => listSites (reach.within body) body
  | suggestion .., decl => suggestionSites decl
  | declared _, decl => memberDeclSites decl
  | member, m => memberSites m
  | members, ms => membersSites ms

variable {xs ys : List Token} {origin : Origin}

theorem LoopOpening.sites_eq_nil {init : Option Stmt} (d : LoopOpening xs init ys) (reach : Reach) :
    init.elim [] (Stmt.sites reach) = [] := by
  cases d <;> rfl

/-- **A derivation spells the sites of its tree.** -/
theorem Clause.spelled {shape : Shape} {tree : shape.Tree} (d : Clause origin shape xs tree ys)
    (reach : Reach) : Spelled xs (shape.sites reach tree) ys := by
  induction d generalizing reach with
  | nil | noElse | noMembers => exact .nil (suffix_refl _)
  | cons _ _ first rest | moreMembers _ _ first rest => exact (first reach).append (rest reach)
  | block _ _ _ statements => exact (statements reach).stop.cons _
  | @branch _ _ _ cond _ _ yes _ no _ _ _ condition _ _ _ then_ else_ =>
    simp only [Shape.sites, Stmt.sites_branch]
    have hthen := (then_ (reach.within yes)).before (suffix_of_cons condition.suffix)
    exact ((hthen.append (else_ reach)).cons _).cons _
  | elseBlock _ _ block => exact (block _).cons _
  | @elseBranch _ _ s _ _ _ branch =>
    simp only [Shape.sites, Option.elim, listSites, append_nil]
    exact (branch (reach.within [s])).cons _
  | induce decl | field decl => exact .nil decl.suffix
  | branching _ branch => exact branch reach
  | whileLoop _ _ condition _ _ block =>
    exact (((block _).before (suffix_of_cons condition.suffix)).cons _).cons _
  | loop _ _ opening condition _ stepping _ _ block =>
    have hinit : Option.elim _ [] (Stmt.sites reach) = [] := opening.sites_eq_nil reach
    have hheader := (suffix_of_cons stepping.suffix).trans
      ((suffix_of_cons condition.suffix).trans opening.suffix)
    simp only [Shape.sites, Stmt.sites_loop, hinit, nil_append]
    exact (((block _).before hheader).cons _).cons _
  | suggestion _ _ declared | method _ _ declared => exact (declared reach).cons _
  | imperative _ _ _ declared | dominant _ _ _ declared => exact ((declared reach).cons _).cons _
  | session _ _ _ _ _ body => exact ((((body reach).stop.cons _).cons _).cons _)
  | tranceify declared => exact .nil declared.suffix
  | observe _ expr _ => exact .nil (suffix_cons_of (suffix_of_cons expr.suffix))
  | awaken _ value _ => exact .nil (suffix_cons_of (suffix_of_cons value.suffix))
  | snap _ _ | sink _ _ => exact .single reach rfl rfl (suffix_cons _ _)
  | sinkTo _ _ _ => exact .single reach rfl rfl (suffix_cons_of (suffix_cons _ _))
  | label _ _ _ => exact .nil (suffix_cons_of (suffix_cons_of (suffix_cons _ _)))
  | assert _ condition stated _ =>
    exact .nil (suffix_cons_of ((suffix_of_cons stated.suffix).trans condition.suffix))
  | expr expr _ => exact .nil (suffix_of_cons expr.suffix)
  | signature named parameters typed _ block =>
    exact (block _).before (typed.suffix.trans (parameters.suffix.trans named.suffix))
  | imperativeMethod _ _ _ declared => exact ((declared reach).cons _).cons _
  | constructor _ _ declared => exact declared reach
  | member visibility dominance _ declared =>
    exact (declared reach).before (dominance.suffix.trans visibility.suffix)

/-! ## Programs -/

theorem Top.spelled {s : Stmt} (d : Top origin xs s ys) (reach : Reach) :
    Spelled xs (s.topSites reach) ys := by
  cases d with
  | entrance _ block => exact (block.spelled _).cons _
  | mindLink => exact .nil (suffix_cons_of (suffix_cons_of (suffix_cons _ _)))
  | statement statement =>
    have hspelled := statement.spelled reach
    cases statement with
    | branching branch =>
      cases branch
      exact hspelled
    | _ => exact hspelled

theorem spelled_tops {body : List Stmt} (d : Series (Top origin) xs body ys) (reach : Reach) :
    Spelled xs (body.flatMap (Stmt.topSites reach)) ys := by
  induction d with
  | nil => exact .nil (suffix_refl _)
  | cons first _ ih => exact (first.spelled reach).append ih

theorem Sentence.spelled {p : Program} (d : Sentence origin xs p) : Spelled xs p.sites [] := by
  cases d with
  | bare _ tops _ stop => exact ((spelled_tops tops _).after (suffix_cons_of stop.suffix)).cons _
  | braced _ _ tops _ _ stop =>
    exact (((spelled_tops tops _).after (suffix_cons_of (suffix_cons_of stop.suffix))).cons _).cons _

end Grammar

namespace Program

variable {origin : Origin} {source : String} {p : Program}

theorem spelled_of_ofText (h : Program.ofText origin source = .ok p) :
    ∃ xs, xs.Sublist (Token.lex source) ∧ Grammar.Spelled xs p.sites [] := by
  obtain ⟨d⟩ := Grammar.sentence_of_ofTokens h
  exact ⟨_, takeWhile_sublist _, d.spelled⟩

theorem linkFree_sites (h : Program.ofText origin source = .ok p) : LinkFree p.sites := by
  obtain ⟨_, _, hspelled⟩ := spelled_of_ofText h
  exact hspelled.linkFree

theorem nodup_sites (h : Program.ofText origin source = .ok p) :
    (p.sites.map (·.stmt.location)).Nodup := by
  obtain ⟨_, hsublist, hspelled⟩ := spelled_of_ofText h
  have horder := hspelled.order
  rw [map_nil, append_nil] at horder
  exact (horder.trans (hsublist.map _)).nodup (Token.lex_locations_nodup source)

end Program

end Trance
