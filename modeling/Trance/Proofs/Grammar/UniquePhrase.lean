import Trance.Proofs.Grammar.ReadPhrase

/-!
# Derivations of expressions are unique

Tokens spell at most one tree, since the parser reads every derivation. And a tree has at most one
derivation from given tokens: its root tells how the derivation was built, except that parentheses
leave no node.

So two ways to derive a tree can differ only if one of them is in parentheses, and the other starts
with the same parenthesis. Then the tokens inside spell the whole tree for the one, and no more than
a part of it for the other. -/

namespace Trance.Grammar

open List

variable {xs ys zs : List Token}

variable {e : Expr} {form : Form}

theorem Phrase.expression_unique {e' : Expr} (d : Phrase .expression xs e ys)
    (d' : Phrase .expression xs e' zs) (hys : Starts Ends ys) (hzs : Starts Ends zs) : e = e' := by
  have h : Reads .main (Parser.expression (xs.length + 1)) xs e ys :=
    d.reads (Nat.lt_succ_self _) hys
  exact h.unique d.passes (d'.reads (Nat.lt_succ_self _) hzs) d'.passes

/-! ## Parentheses -/

/-- The tokens of `xs` before `ys` are an expression in parentheses. -/
def Enclosed (xs : List Token) (e : Expr) (ys : List Token) : Prop :=
  ∃ l inside r, xs = l :: inside ∧ l.kind = .leftParen ∧ r.kind = .rightParen ∧
    Nonempty (Phrase .expression inside e (r :: ys))

theorem Enclosed.unique {e' : Expr} (h : Enclosed xs e ys) (h' : Enclosed xs e' zs) : e = e' := by
  obtain ⟨l, inside, r, rfl, -, hr, ⟨d⟩⟩ := h
  obtain ⟨_, _, r', heq, -, hr', ⟨d'⟩⟩ := h'
  cases heq
  exact d.expression_unique d' (starts_of_kind hr (by decide) _) (starts_of_kind hr' (by decide) _)

/-- The expression that a form spells, if it can start with an expression in parentheses. -/
def Form.operand? : (form : Form) → form.Tree → Option Expr
  | operation _, e | signed, e | access, e | primary, e => some e
  | _, _ => none

/-- The root of an expression is not one that the rules of a form make, but for parentheses. -/
def Form.Excludes : Form → Expr → Prop
  | operation levels, .binary op .. => ∀ level ∈ levels, ∀ kind, (kind, op) ∉ level.operators
  | _, .binary .. | _, .assign .. => True
  | primary, .call .. | primary, .field .. | primary, .index .. => True
  | _, _ => False

theorem Phrase.opened {tree : form.Tree} (d : Phrase form xs tree ys)
    (hopens : Starts (· = .leftParen) xs) :
    ∀ e ∈ form.operand? tree, ∃ part zs, Enclosed xs part zs ∧ sizeOf part ≤ sizeOf e := by
  induction d with
  | operand _ ih | single _ ih | unsigned _ ih | base _ ih => exact ih hopens
  | binary _ _ _ ih _ | call _ _ _ _ ih _ | field _ _ _ ih | index _ _ _ _ ih _ =>
    rintro _ ⟨⟩
    obtain ⟨part, zs, henclosed, hle⟩ := ih hopens _ rfl
    refine ⟨part, zs, henclosed, Nat.le_trans hle ?_⟩
    simp +arith
  | paren hl d hr =>
    rintro _ ⟨⟩
    exact ⟨_, _, ⟨_, _, _, rfl, hl, hr, ⟨d⟩⟩, Nat.le_refl _⟩
  | sign hop =>
    have hsigns : Token.Kind.leftParen ∉ signs.map Prod.fst := by decide
    exact absurd (mem_map_of_mem hop) (hopens ▸ hsigns)
  | number h | text h | yes h | no h | name h | record h | array h =>
    exact absurd (h.symm.trans hopens) (by decide)
  | plain | assign | lastItem | moreItems | noArguments | someArguments | noFields | lastField
  | moreFields => rintro _ ⟨⟩

theorem Phrase.enclosed {tree : form.Tree} (d : Phrase form xs tree ys) :
    ∀ e ∈ form.operand? tree, form.Excludes e → Enclosed xs e ys := by
  induction d with
  | operand _ ih | unsigned _ ih | base _ ih =>
    intro e he hexcludes
    exact ih e he (by cases e <;> first | exact hexcludes | trivial)
  | single _ ih =>
    intro e he hexcludes
    refine ih e he ?_
    cases e with
    | binary => exact fun level hlevel => hexcludes level (mem_cons_of_mem _ hlevel)
    | _ => exact hexcludes
  | binary _ hop =>
    rintro _ ⟨⟩ hexcludes
    exact absurd hop (hexcludes _ (mem_cons_self ..) _)
  | paren hl d hr =>
    rintro _ ⟨⟩ _
    exact ⟨_, _, _, rfl, hl, hr, ⟨d⟩⟩
  | sign | call | field | index | number | text | yes | no | name | record | array =>
    rintro _ ⟨⟩ ⟨⟩
  | plain | assign | lastItem | moreItems | noArguments | someArguments | noFields | lastField
  | moreFields => rintro _ ⟨⟩

/-- **No tokens spell an expression in parentheses and one that it is a part of.** -/
theorem Phrase.clash {form' : Form} {tree : form.Tree} {tree' : form'.Tree} {part : Expr}
    (d : Phrase form xs tree ys) (d' : Phrase form' xs tree' zs) (he : form.operand? tree = some e)
    (hpart : form'.operand? tree' = some part) (hexcludes : form.Excludes e)
    (hlt : sizeOf part < sizeOf e) : False := by
  have henclosed := d.enclosed e he hexcludes
  have hopens : Starts (· = .leftParen) xs := by
    obtain ⟨l, inside, r, rfl, hl, -⟩ := henclosed
    exact hl
  obtain ⟨inner, ws, hinner, hle⟩ := d'.opened hopens part hpart
  obtain rfl := henclosed.unique hinner
  omega

/-! ## Roots -/

theorem Level.eq_of_operator {level level' : Level} {kind kind' : Token.Kind} {op : BinaryOp}
    (h : (kind, op) ∈ level.operators) (h' : (kind', op) ∈ level'.operators) : level = level' := by
  have all : ∀ p ∈ level.operators, ∀ q ∈ level'.operators, p.2 = q.2 → level = level' := by
    cases level <;> cases level' <;> decide
  exact all _ h _ h' rfl

theorem excludes_of_operator {level : Level} {rest : List Level} {kind : Token.Kind} {op : BinaryOp}
    (hnodup : (level :: rest).Nodup) (hop : (kind, op) ∈ level.operators) (l r : Expr)
    (loc : Location) : (Form.operation rest).Excludes (.binary op l r loc) := by
  intro level' hlevel kind' hop'
  obtain rfl := Level.eq_of_operator hop hop'
  exact (nodup_cons.1 hnodup).1 hlevel

theorem nodup_ladder : Level.ladder.Nodup := by decide

theorem not_sign {t : Token} (h : t.kind ∈ primaryOpeners) : t.kind ∉ signs.map Prod.fst := by
  have all : ∀ kind ∈ primaryOpeners, kind ∉ signs.map Prod.fst := by decide
  exact all _ h

/-- What is known where a derivation of a form ends. Fields may end with a comma, so what follows
them has to be known. -/
def Form.Settled : Form → List Token → Prop
  | operation levels, _ => levels.Nodup
  | fields, ys => Starts (· = .rightBrace) ys
  | _, _ => True

def Phrase.Sole {form : Form} {tree : form.Tree} (d : Phrase form xs tree ys) : Prop :=
  ∀ ⦃tree' : form.Tree⦄ ⦃zs⦄ (d' : Phrase form xs tree' zs), tree = tree' → form.Settled ys →
    form.Settled zs → (⟨tree, ys, d⟩ :
      (tree : form.Tree) × (ys : List Token) × Phrase form xs tree ys) = ⟨tree', zs, d'⟩

/-- **A tree has one derivation from its tokens.** -/
theorem Phrase.sole {tree : form.Tree} (d : Phrase form xs tree ys) : d.Sole := by
  induction d with
  -- expressions and operations
  | plain d ih =>
    intro _ _ d' htree _ _
    cases d' with
    | plain d' => cases ih d' htree nodup_ladder nodup_ladder; rfl
    | assign left => subst htree; exact (d.clash left rfl rfl trivial (by simp +arith)).elim
  | assign left _ _ right ih ih' =>
    intro _ _ d' htree _ _
    cases d' with
    | plain d' => subst htree; exact (d'.clash left rfl rfl trivial (by simp +arith)).elim
    | assign left' _ _ right' =>
      injection htree with htarget hvalue
      cases ih left' htarget nodup_ladder nodup_ladder
      cases ih' right' hvalue trivial trivial
      rfl
  | operand _ ih =>
    intro _ _ d' htree _ _
    cases d' with
    | operand d' => cases ih d' htree trivial trivial; rfl
  | single d ih =>
    intro _ _ d' htree hnodup _
    have hrest := (nodup_cons.1 hnodup).2
    cases d' with
    | single d' => cases ih d' htree hrest hrest; rfl
    | binary first hop =>
      subst htree
      exact (d.clash first rfl rfl (excludes_of_operator hnodup hop _ _ _) (by simp +arith)).elim
  | binary first hop second ih ih' =>
    intro _ _ d' htree hnodup _
    have hrest := (nodup_cons.1 hnodup).2
    cases d' with
    | single d' =>
      subst htree
      exact (d'.clash first rfl rfl (excludes_of_operator hnodup hop _ _ _) (by simp +arith)).elim
    | binary first' _ second' =>
      injection htree with hop hleft hright
      subst hop
      cases ih first' hleft hnodup hnodup
      cases ih' second' hright hrest hrest
      rfl
  -- operands
  | unsigned d ih =>
    intro _ _ d' htree _ _
    cases d' with
    | unsigned d' => cases ih d' htree trivial trivial; rfl
    | sign hop => exact absurd (mem_map_of_mem hop) (not_sign d.starts)
  | sign hop _ ih =>
    intro _ _ d' htree _ _
    cases d' with
    | unsigned d' => exact absurd (mem_map_of_mem hop) (not_sign d'.starts)
    | sign _ d' =>
      injection htree with hop hoperand
      subst hop
      cases ih d' hoperand trivial trivial
      rfl
  | base d ih =>
    intro _ _ d' htree _ _
    cases d' with
    | base d' => cases ih d' htree trivial trivial; rfl
    | call object | field object | index object =>
      subst htree
      exact (d.clash object rfl rfl trivial (by simp +arith)).elim
  | call callee _ _ _ ih ih' =>
    intro _ _ d' htree _ _
    cases d' with
    | base d' => subst htree; exact (d'.clash callee rfl rfl trivial (by simp +arith)).elim
    | call callee' _ args' =>
      injection htree with hcallee hargs
      cases ih callee' hcallee trivial trivial
      cases ih' args' hargs trivial trivial
      rfl
    | field | index => cases htree
  | field object _ _ ih =>
    intro _ _ d' htree _ _
    cases d' with
    | base d' => subst htree; exact (d'.clash object rfl rfl trivial (by simp +arith)).elim
    | field object' =>
      injection htree with hobject
      cases ih object' hobject trivial trivial
      rfl
    | call | index => cases htree
  | index object _ _ _ ih ih' =>
    intro _ _ d' htree _ _
    cases d' with
    | base d' => subst htree; exact (d'.clash object rfl rfl trivial (by simp +arith)).elim
    | index object' _ position' =>
      injection htree with hobject hposition
      cases ih object' hobject trivial trivial
      cases ih' position' hposition trivial trivial
      rfl
    | call | field => cases htree
  -- primary expressions
  | number ht =>
    intro _ _ d' htree _ _
    cases d' with
    | number => cases htree; rfl
    | paren h => exact absurd (ht.symm.trans h) (by decide)
    | _ => cases htree
  | text ht =>
    intro _ _ d' htree _ _
    cases d' with
    | text => rfl
    | paren h => exact absurd (ht.symm.trans h) (by decide)
    | _ => cases htree
  | yes ht =>
    intro _ _ d' htree _ _
    cases d' with
    | yes => rfl
    | paren h => exact absurd (ht.symm.trans h) (by decide)
    | _ => cases htree
  | no ht =>
    intro _ _ d' htree _ _
    cases d' with
    | no => rfl
    | paren h => exact absurd (ht.symm.trans h) (by decide)
    | _ => cases htree
  | name ht =>
    intro _ _ d' htree _ _
    cases d' with
    | name => rfl
    | paren h => exact absurd (ht.symm.trans h) (by decide)
    | _ => cases htree
  | record ht _ _ hr ih =>
    intro _ _ d' htree _ _
    cases d' with
    | record _ _ given' hr' =>
      injection htree with _ hgiven
      cases ih given' hgiven hr hr'
      rfl
    | paren h => exact absurd (ht.symm.trans h) (by decide)
    | _ => cases htree
  | paren hl _ _ ih =>
    intro _ _ d' htree _ _
    cases d' with
    | paren _ d' => cases ih d' htree trivial trivial; rfl
    | number h | text h | yes h | no h | name h | record h | array h =>
      exact absurd (hl.symm.trans h) (by decide)
  | array hl _ _ ih =>
    intro _ _ d' htree _ _
    cases d' with
    | array _ elements' =>
      injection htree with helements
      cases ih elements' helements trivial trivial
      rfl
    | paren h => exact absurd (hl.symm.trans h) (by decide)
    | _ => cases htree
  -- lists of expressions
  | lastItem _ ih =>
    intro _ _ d' htree _ _
    cases d' with
    | lastItem d' => cases ih d' (List.cons.inj htree).1 trivial trivial; rfl
    | moreItems _ _ more => cases htree; cases more
  | moreItems _ _ more ih ih' =>
    intro _ _ d' htree _ _
    cases d' with
    | lastItem => cases htree; cases more
    | moreItems d' _ more' =>
      cases ih d' (List.cons.inj htree).1 trivial trivial
      cases ih' more' (List.cons.inj htree).2 trivial trivial
      rfl
  | noArguments =>
    intro _ _ d' htree _ _
    cases d' with
    | noArguments => rfl
    | someArguments d' => cases htree; cases d'
  | someArguments d ih =>
    intro _ _ d' htree _ _
    cases d' with
    | noArguments => cases htree; cases d
    | someArguments d' => cases ih d' htree trivial trivial; rfl
  | noFields =>
    intro _ _ d' htree _ _
    cases d' with
    | noFields => rfl
    | _ => cases htree
  | lastField _ _ _ ih =>
    intro _ _ d' htree hys _
    cases d' with
    | noFields => cases htree
    | lastField _ _ d' => cases ih d' (Prod.mk.inj (List.cons.inj htree).1).2 trivial trivial; rfl
    | moreFields _ _ d' hcomma =>
      cases ih d' (Prod.mk.inj (List.cons.inj htree).1).2 trivial trivial
      exact absurd (hcomma.symm.trans hys) (by decide)
  | moreFields _ _ _ hcomma _ ih ih' =>
    intro _ _ d' htree hys hzs
    cases d' with
    | noFields => cases htree
    | lastField _ _ d' =>
      cases ih d' (Prod.mk.inj (List.cons.inj htree).1).2 trivial trivial
      exact absurd (hcomma.symm.trans hzs) (by decide)
    | moreFields _ _ d' _ more' =>
      cases ih d' (Prod.mk.inj (List.cons.inj htree).1).2 trivial trivial
      cases ih' more' (List.cons.inj htree).2 hys hzs
      rfl

theorem Phrase.eq_of_tree (d : Phrase .expression xs e ys) (d' : Phrase .expression xs e zs) :
    (⟨ys, d⟩ : (ys : List Token) × Phrase .expression xs e ys) = ⟨zs, d'⟩ := by
  cases d.sole d' rfl trivial trivial
  rfl

end Trance.Grammar
