import Trance.Proofs.Grammar.First

/-!
# Parsers read every derivation

A parser that stands at the first token of a derivation takes the tokens of the derivation and
returns its tree. Parsers are greedy, so this needs that the tokens behind the derivation do
not continue it; the grammar never puts such tokens there.

The grammar groups operators and accesses to the left, while parsers loop. The proof follows the
derivation: once its tokens are taken, the parser stands in the loop with the tree as what it has
so far.
-/

namespace Trance.Grammar

open List Trance.Parser Form

variable {origin : Origin}

/-! ## What follows an expression -/

def accessors : List Token.Kind := [.leftParen, .dot, .leftBracket, .leftBrace]

/-- A kind of token that does not continue an operation with operators of the given levels. -/
def Follows (levels : List Level) (kind : Token.Kind) : Prop :=
  kind ∉ accessors ∧ ∀ level ∈ levels, level.lookup kind = none

variable {level : Level} {kind : Token.Kind} {ys xs : List Token}

theorem Follows.tail {rest : List Level} (h : Follows (level :: rest) kind) : Follows rest kind :=
  ⟨h.1, fun l hl => h.2 l (mem_cons_of_mem _ hl)⟩

theorem Level.lookup_eq_none {other : Level} (hne : level ≠ other) {op : BinaryOp}
    (h : (kind, op) ∈ level.operators) : other.lookup kind = none := by
  have all : ∀ p ∈ level.operators, other.lookup p.1 = none := by
    revert hne
    cases level <;> cases other <;> decide
  exact all (kind, op) h

theorem follows_operator {rest : List Level} (hnodup : (level :: rest).Nodup) {op : BinaryOp}
    (h : (kind, op) ∈ level.operators) : Follows rest kind := by
  have haccess : ∀ p ∈ level.operators, p.1 ∉ accessors := by cases level <;> decide
  refine ⟨haccess (kind, op) h, fun l hl => Level.lookup_eq_none ?_ h⟩
  rintro rfl
  exact (nodup_cons.1 hnodup).1 hl

def Ends (kind : Token.Kind) : Prop :=
  Follows Level.ladder kind ∧ kind ≠ .assign

instance (levels : List Level) (kind : Token.Kind) : Decidable (Follows levels kind) :=
  inferInstanceAs (Decidable (_ ∧ _))

instance (kind : Token.Kind) : Decidable (Ends kind) :=
  inferInstanceAs (Decidable (_ ∧ _))

/-! ## What is to be shown -/

abbrev operandParser (n : Nat) : Parser Expr := do
  let object ← primary (expression n) (n + 1)
  accesses (expression n) (n + 1) object

abbrev operationParser (n : Nat) (levels : List Level) : Parser Expr :=
  operators (signed (operandParser n) (n + 1)) (n + 1) (levels.map Level.lookup)

theorem operation_ladder (n : Nat) :
    Parser.operation (Parser.expression n) (n + 1) = operationParser n Level.ladder := by
  rw [Parser.operation, levels_eq_map_ladder]

/-- The tokens of a derivation of a form are read by the parser of the form. Behind an operand
with accesses, or an operation of a level, the parser is still in its loop. -/
def Form.Read (origin : Origin) : (form : Form) → List Token → form.Tree → List Token → Prop
  | .expression, xs, e, ys => ∀ n, xs.length < n → Starts Ends ys →
    Reads origin (Parser.expression n) xs e ys
  | .operation [], xs, e, ys => ∀ n, xs.length < n + 1 → Starts (Follows []) ys →
      Reads origin (operationParser n []) xs e ys
  | .operation (level :: rest), xs, e, ys => ∀ n, xs.length < n + 1 → (level :: rest).Nodup →
      Starts (Follows rest) ys → ∃ k, ys.length < k ∧ Continues origin
      (operationParser n (level :: rest)) xs (chain level.lookup (operationParser n rest) k e) ys
  | .signed, xs, e, ys => ∀ n k, xs.length < n + 1 → xs.length < k → Starts (Follows []) ys →
      Reads origin (Parser.signed (operandParser n) k) xs e ys
  | .access, xs, e, ys => ∀ n, xs.length < n + 1 → Avoids .leftBrace ys →
      ∃ k, ys.length < k ∧ Continues origin (operandParser n) xs
        (accesses (Parser.expression n) k e) ys
  | .primary, xs, e, ys => ∀ n, xs.length < n + 1 → Avoids .leftBrace ys →
      Reads origin (Parser.primary (Parser.expression n) (n + 1)) xs e ys
  | .items, xs, es, ys => ∀ n k, xs.length < n → xs.length < k → Starts Ends ys → Avoids .comma ys →
      Reads origin (commaSeparated (Parser.expression n) k) xs es ys
  | .arguments, xs, es, ys => ∀ n k closing, xs.length < n → xs.length < k →
      closing ∈ [Token.Kind.rightParen, .rightBracket] → Starts (· = closing) ys →
      Reads origin (listUntil closing (Parser.expression n) k) xs es ys
  | .fields, xs, fs, ys => ∀ n k, xs.length < n → xs.length < k → Starts (· = .rightBrace) ys →
      Reads origin (recordFields (Parser.expression n) k) xs fs ys

/-! ## Loops end -/

theorem reads_accesses {expr : Parser Expr} (h : Starts (Follows []) ys) {k : Nat}
    (hk : ys.length < k) (e : Expr) : Reads origin (accesses expr k e) ys e ys := by
  obtain _ | k := k
  · omega
  refine .peekKind fun t ht _ => ?_
  have hnone : t.kind ∉ accessors := by rw [ht]; exact h.1
  split
  · next heq => exact absurd (heq ▸ hnone) (by decide)
  · next heq => exact absurd (heq ▸ hnone) (by decide)
  · next heq => exact absurd (heq ▸ hnone) (by decide)
  · exact .pure e ys

theorem reads_chain {operand : Parser Expr} (h : Starts (level.lookup · = none) ys) {k : Nat}
    (hk : ys.length < k) (e : Expr) :
    Reads origin (chain level.lookup operand k e) ys e ys := by
  obtain _ | k := k
  · omega
  refine .peekKind fun t ht _ => ?_
  have hnone : level.lookup t.kind = none := by rw [ht]; exact h
  simp only [hnone]
  exact .pure e ys

theorem Form.Read.operation {levels : List Level} {e : Expr}
    (h : Read origin (.operation levels) xs e ys) {n : Nat} (hn : xs.length < n + 1)
    (hnodup : levels.Nodup) (hys : Starts (Follows levels) ys) :
    Reads origin (operationParser n levels) xs e ys := by
  cases levels with
  | nil => exact h n hn hys
  | cons level rest =>
    obtain ⟨k, hk, hloop⟩ := h n hn hnodup (hys.mono fun _ => Follows.tail)
    exact hloop.trans (reads_chain (hys.mono fun _ hf => hf.2 level (mem_cons_self ..)) hk e)

/-! ## Expressions and operations -/

section

variable {xs ys zs : List Token} {e left right value target : Expr} {t : Token}

theorem read_plain (d : Phrase (.operation Level.ladder) xs e ys)
    (h : Read origin (.operation Level.ladder) xs e ys) :
    Read origin .expression xs e ys := by
  intro n hn hys
  obtain _ | n := n
  · have := d.length_le; simp only [least] at this; omega
  have hop := h.operation hn (by decide) (hys.mono fun _ hk => hk.1)
  rw [← operation_ladder] at hop
  refine .bind hop (.hereThen fun loc _ => .ifRefused (hys.mono fun _ hk => hk.2) (.pure e ys))

theorem read_assign (d : Phrase (.operation Level.ladder) xs target (t :: ys))
    (h : Read origin (.operation Level.ladder) xs target (t :: ys))
    (hplace : target.isPlace = true) (ht : t.kind = .assign)
    (hvalue : Read origin .expression ys value zs) :
    Read origin .expression xs (.assign target value t.location) zs := by
  intro n hn hzs
  have hlen := d.length_le
  simp only [least, length_cons] at hlen
  obtain _ | n := n
  · omega
  have hfollows : Starts (Follows Level.ladder) (t :: ys) := starts_of_kind ht (by decide) ys
  have hop := h.operation hn (by decide) hfollows
  rw [← operation_ladder] at hop
  refine .bind hop (.hereThen fun loc hloc => .ifTaken ht ?_)
  rw [if_pos hplace, hloc t rfl]
  exact .bind (hvalue n (by omega) hzs) (.pure _ zs)

theorem read_single {rest : List Level} (d : Phrase (.operation rest) xs e ys)
    (h : Read origin (.operation rest) xs e ys) :
    Read origin (.operation (level :: rest)) xs e ys := by
  intro n hn hnodup hys
  have hlen := d.length_le
  refine ⟨n + 1, by omega, ?_⟩
  exact (h.operation hn (nodup_cons.1 hnodup).2 hys).continues _

theorem read_binary {rest : List Level} {op : BinaryOp}
    (d : Phrase (.operation (level :: rest)) xs left (t :: ys))
    (h : Read origin (.operation (level :: rest)) xs left (t :: ys))
    (hop : (t.kind, op) ∈ level.operators) (d' : Phrase (.operation rest) ys right zs)
    (h' : Read origin (.operation rest) ys right zs) :
    Read origin (.operation (level :: rest)) xs (.binary op left right t.location) zs := by
  intro n hn hnodup hzs
  have hlen := d.length_le
  have hlen' := d'.length_le
  simp only [least, length_cons] at hlen hlen'
  obtain ⟨k, hk, hloop⟩ := h n hn hnodup (follows_operator hnodup hop)
  obtain _ | k := k
  · simp at hk
  refine ⟨k, by simp only [length_cons] at hk; omega, hloop.trans ?_⟩
  have hright := h'.operation (n := n) (by omega) (nodup_cons.1 hnodup).2 hzs
  refine ((Reads.peek t ys).continues _).trans ?_
  simp only [Level.lookup_eq_some.2 hop]
  exact ((Reads.advance t ys).continues _).trans (hright.continues _)

/-! ## Operands -/

theorem read_unsigned (d : Phrase .access xs e ys) (h : Read origin .access xs e ys) :
    Read origin .signed xs e ys := by
  intro n k hn hk hys
  have hread : Reads origin (operandParser n) xs e ys := by
    have havoid : Avoids .leftBrace ys := hys.mono fun _ hf heq => hf.1 (heq ▸ by decide)
    obtain ⟨j, hj, hloop⟩ := h n hn havoid
    exact hloop.trans (reads_accesses hys hj e)
  obtain _ | k := k
  · omega
  refine .peekKind fun t ht _ => ?_
  have hnone : UnaryOp.ofKind? t.kind = none := by
    have all : ∀ kind ∈ primaryOpeners, UnaryOp.ofKind? kind = none := by decide
    rw [ht]
    exact all _ d.starts
  simp only [hnone]
  exact hread

theorem read_sign {op : UnaryOp} (hop : (t.kind, op) ∈ signs) (h : Read origin .signed xs e ys) :
    Read origin .signed (t :: xs) (.unary op e t.location) ys := by
  intro n k hn hk hys
  simp only [length_cons] at hn hk
  obtain _ | k := k
  · omega
  refine .bind (.peek t xs) ?_
  simp only [ofKind?_eq_some.2 hop]
  exact .bind (.advance t xs) (.bind (h n k (by omega) (by omega) hys) (.pure _ ys))

theorem read_base (d : Phrase .primary xs e ys) (h : Read origin .primary xs e ys) :
    Read origin .access xs e ys := by
  intro n hn hys
  have hlen := d.length_le
  exact ⟨n + 1, by omega, (h n hn hys).continues _⟩

variable {l r name colon : Token} {fields : List (String × Expr)}

theorem read_access {e' : Expr} (d : Phrase .access xs e (l :: ys))
    (h : Read origin .access xs e (l :: ys)) (hl : l.kind ≠ .leftBrace)
    (hlen : zs.length ≤ ys.length)
    (step : ∀ n k, ys.length < n → ys.length < k → Continues origin
      (accesses (Parser.expression n) (k + 1) e) (l :: ys)
      (accesses (Parser.expression n) k e') zs) : Read origin .access xs e' zs := by
  intro n hn _
  have hxs := d.length_le
  simp only [least, length_cons] at hxs
  obtain ⟨k, hk, hloop⟩ := h n hn hl
  simp only [length_cons] at hk
  obtain _ | k := k
  · omega
  exact ⟨k, by omega, hloop.trans (step n k (by omega) (by omega))⟩

theorem read_call {args : List Expr} (d : Phrase .access xs e (l :: ys))
    (h : Read origin .access xs e (l :: ys)) (hl : l.kind = .leftParen)
    (dargs : Phrase .arguments ys args (r :: zs))
    (hargs : Read origin .arguments ys args (r :: zs)) (hr : r.kind = .rightParen) :
    Read origin .access xs (.call e args l.location) zs := by
  have hlen := dargs.length_le
  simp only [least, length_cons] at hlen
  refine read_access d h (by simp [hl]) (by omega) fun n k hn hk => ?_
  refine ((Reads.peek l ys).continues _).trans ?_
  simp only [hl]
  refine ((Reads.advance l ys).continues _).trans ?_
  refine ((hargs n k .rightParen hn hk (by decide) hr).continues _).trans ?_
  exact (Reads.expect hr _ zs).continues _

theorem read_field {dot : Token} (d : Phrase .access xs e (dot :: name :: ys))
    (h : Read origin .access xs e (dot :: name :: ys)) (hdot : dot.kind = .dot)
    (hname : name.kind = .identifier) :
    Read origin .access xs (.field e name.lexeme dot.location) ys := by
  refine read_access d h (by simp [hdot]) (by simp) fun n k _ _ => ?_
  refine ((Reads.peek dot (name :: ys)).continues _).trans ?_
  simp only [hdot]
  refine ((Reads.advance dot (name :: ys)).continues _).trans ?_
  exact (Reads.identifier hname _ ys).continues _

theorem read_index {i : Expr} (d : Phrase .access xs e (l :: ys))
    (h : Read origin .access xs e (l :: ys)) (hl : l.kind = .leftBracket)
    (di : Phrase .expression ys i (r :: zs)) (hi : Read origin .expression ys i (r :: zs))
    (hr : r.kind = .rightBracket) : Read origin .access xs (.index e i l.location) zs := by
  have hlen := di.length_lt
  simp only [length_cons] at hlen
  refine read_access d h (by simp [hl]) (by omega) fun n k hn _ => ?_
  refine ((Reads.peek l ys).continues _).trans ?_
  simp only [hl]
  refine ((Reads.advance l ys).continues _).trans ?_
  have hends : Starts Ends (r :: zs) := starts_of_kind hr (by decide) zs
  refine ((hi n hn hends).continues _).trans ?_
  exact (Reads.expect hr _ zs).continues _

/-! ## Primary expressions -/

theorem read_number {n : Float} (ht : t.kind = .number)
    (hn : Number.read? t.lexeme.toList = some n) :
    Read origin .primary (t :: ys) (.number n t.location) ys := by
  intro _ _ _
  refine .bind (.peek t ys) ?_
  simp only [ht, hn]
  exact .bind (.advance t ys) (.pure _ ys)

theorem read_nameOrRecord (ht : t.kind = .identifier) {n : Nat}
    (h : Reads origin (nameOrRecord (expression n) (n + 1) t) xs e ys) :
    Reads origin (primary (expression n) (n + 1)) (t :: xs) e ys := by
  refine .bind (.peek t xs) ?_
  simp only [ht]
  exact .bind (.advance t xs) h

theorem read_name (ht : t.kind = .identifier) :
    Read origin .primary (t :: ys) (.name t.lexeme t.location) ys := by
  intro n _ hys
  refine read_nameOrRecord ht (.cursor fun s _ hs => ?_)
  rw [if_neg fun hopens => hys ((opensRecord_iff hs).1 hopens).1]
  exact .pure _ ys

theorem opensRecord_of_fields {s : Tape} (hs : l :: xs <:+ s.text) (hl : l.kind = .leftBrace)
    (d : Phrase .fields xs fields (r :: ys)) (hr : r.kind = .rightBrace) :
    opensRecord (s.cursor (l :: xs)) = true := by
  refine (opensRecord_iff hs).2 ⟨hl, ?_⟩
  cases d with
  | noFields => exact .inl hr
  | lastField hname hcolon _ | moreFields hname hcolon _ _ _ => exact .inr ⟨hname, hcolon⟩

theorem read_record (ht : t.kind = .identifier) (hl : l.kind = .leftBrace)
    (d : Phrase .fields xs fields (r :: ys)) (h : Read origin .fields xs fields (r :: ys))
    (hr : r.kind = .rightBrace) :
    Read origin .primary (t :: l :: xs) (.record t.lexeme fields t.location) ys := by
  intro n hn _
  simp only [length_cons] at hn
  refine read_nameOrRecord ht (.cursor fun s _ hs => ?_)
  rw [if_pos (opensRecord_of_fields hs hl d hr)]
  exact .bind (.expect hl _ xs)
    (.bind (h n (n + 1) (by omega) (by omega) hr) (.bind (.expect hr _ ys) (.pure _ ys)))

theorem read_paren (hl : l.kind = .leftParen) (h : Read origin .expression xs e (r :: ys))
    (hr : r.kind = .rightParen) : Read origin .primary (l :: xs) e ys := by
  intro n hn _
  simp only [length_cons] at hn
  refine .bind (.peek l xs) ?_
  simp only [hl]
  have hends : Starts Ends (r :: ys) := starts_of_kind hr (by decide) ys
  exact .bind (.advance l xs) (.bind (h n (by omega) hends) (.bind (.expect hr _ ys) (.pure e ys)))

theorem read_array {items : List Expr} (hl : l.kind = .leftBracket)
    (h : Read origin .arguments xs items (r :: ys)) (hr : r.kind = .rightBracket) :
    Read origin .primary (l :: xs) (.array items l.location) ys := by
  intro n hn _
  simp only [length_cons] at hn
  refine .bind (.peek l xs) ?_
  simp only [hl]
  exact .bind (.advance l xs) (.bind (h n (n + 1) .rightBracket (by omega) (by omega) (by decide) hr)
    (.bind (.expect hr _ ys) (.pure _ ys)))

/-! ## Lists of expressions -/

theorem read_moreItems {comma : Token} {es : List Expr} (d : Phrase .expression xs e (comma :: ys))
    (h : Read origin .expression xs e (comma :: ys)) (hcomma : comma.kind = .comma)
    (hrest : Read origin .items ys es zs) : Read origin .items xs (e :: es) zs := by
  intro n k hn hk hzs hzs'
  have hlen := d.length_lt
  simp only [length_cons] at hlen
  obtain _ | k := k
  · omega
  have hends : Starts Ends (comma :: ys) := starts_of_kind hcomma (by decide) ys
  exact .bind (h n hn hends) (.ifTaken hcomma
    (.bind (hrest n k (by omega) (by omega) hzs hzs') (.pure _ zs)))

theorem read_noArguments : Read origin .arguments xs [] xs := by
  intro n k closing _ _ _ hxs
  refine .peekKind fun t ht _ => ?_
  rw [if_pos (ht.trans hxs)]
  exact .pure [] xs

theorem read_someArguments {es : List Expr} (d : Phrase .items xs es ys)
    (h : Read origin .items xs es ys) : Read origin .arguments xs es ys := by
  intro n k closing hn hk hclosing hys
  refine .peekKind fun t ht _ => ?_
  have hopens : t.kind ≠ closing := by
    have all : ∀ kind ∈ openers, kind ∉ [Token.Kind.rightParen, .rightBracket] := by decide
    rw [ht]
    rintro rfl
    exact all _ d.starts hclosing
  rw [if_neg hopens]
  have hends : ∀ kind ∈ [Token.Kind.rightParen, .rightBracket], Ends kind ∧ kind ≠ .comma := by
    decide
  exact h n k hn hk (hys.mono fun _ heq => (hends _ (heq ▸ hclosing)).1)
    (hys.mono fun _ heq => (hends _ (heq ▸ hclosing)).2)

theorem read_recordField (hname : name.kind = .identifier) (hcolon : colon.kind = .colon)
    (h : Read origin .expression xs e ys) {n : Nat} (hn : xs.length < n) (hys : Starts Ends ys) :
    Reads origin (recordField (expression n)) (name :: colon :: xs) (name.lexeme, e) ys :=
  .bind (.identifier hname _ (colon :: xs))
    (.bind (.expect hcolon _ xs) (.bind (h n hn hys) (.pure _ ys)))

theorem read_noFields : Read origin .fields xs [] xs := by
  intro n k _ hk hxs
  obtain _ | k := k
  · omega
  refine .peekKind fun t ht _ => ?_
  rw [if_pos (ht.trans hxs)]
  exact .pure [] xs

theorem read_lastField (hname : name.kind = .identifier) (hcolon : colon.kind = .colon)
    (h : Read origin .expression xs e ys) :
    Read origin .fields (name :: colon :: xs) [(name.lexeme, e)] ys := by
  intro n k hn hk hys
  simp only [length_cons] at hn hk
  obtain _ | k := k
  · omega
  refine .bind (.peek name (colon :: xs)) ?_
  rw [if_neg (by simp [hname])]
  exact .bind (read_recordField hname hcolon h (by omega) (hys.mono fun _ heq => heq ▸ by decide))
    (.ifRefused (hys.mono fun _ heq => heq ▸ by decide) (.pure _ ys))

theorem read_moreFields {comma : Token} (hname : name.kind = .identifier)
    (hcolon : colon.kind = .colon) (d : Phrase .expression xs e (comma :: ys))
    (h : Read origin .expression xs e (comma :: ys)) (hcomma : comma.kind = .comma)
    (hrest : Read origin .fields ys fields zs) :
    Read origin .fields (name :: colon :: xs) ((name.lexeme, e) :: fields) zs := by
  intro n k hn hk hzs
  have hlen := d.length_lt
  simp only [length_cons] at hlen hn hk
  obtain _ | k := k
  · omega
  refine .bind (.peek name (colon :: xs)) ?_
  rw [if_neg (by simp [hname])]
  have hends : Starts Ends (comma :: ys) := starts_of_kind hcomma (by decide) ys
  exact .bind (read_recordField hname hcolon h (by omega) hends)
    (.ifTaken hcomma (.bind (hrest n k (by omega) (by omega) hzs) (.pure _ zs)))

end

/-! ## All forms -/

/-- **The tokens of a derivation are read by the parser of its form.** -/
theorem Phrase.read {form : Form} {tree : form.Tree} (d : Phrase form xs tree ys) :
    form.Read origin xs tree ys := by
  induction d with
  | plain d ih => exact read_plain d ih
  | assign d hplace ht _ ih ihv => exact read_assign d ih hplace ht ihv
  | operand _ ih => exact fun n hn hys => ih n (n + 1) hn hn hys
  | single d ih => exact read_single d ih
  | binary d hop d' ih ih' => exact read_binary d ih hop d' ih'
  | unsigned d ih => exact read_unsigned d ih
  | sign hop _ ih => exact read_sign hop ih
  | base d ih => exact read_base d ih
  | call d hl d' hr ih ih' => exact read_call d ih hl d' ih' hr
  | field d hdot hname ih => exact read_field d ih hdot hname
  | index d hl d' hr ih ih' => exact read_index d ih hl d' ih' hr
  | number ht hn => exact read_number ht hn
  | text ht | yes ht | no ht =>
    intro _ _ _
    refine .bind (.peek _ _) ?_
    simp only [ht]
    exact .bind (.advance _ _) (.pure _ _)
  | name ht => exact read_name ht
  | record ht hl d hr ih => exact read_record ht hl d ih hr
  | paren hl _ hr ih => exact read_paren hl ih hr
  | array hl _ hr ih => exact read_array hl ih hr
  | lastItem _ ih =>
    intro n k hn hk hys hcomma
    obtain _ | k := k
    · omega
    · exact .bind (ih n hn hys) (.ifRefused hcomma (.pure _ _))
  | moreItems d hcomma _ ih ih' => exact read_moreItems d ih hcomma ih'
  | noArguments => exact read_noArguments
  | someArguments d ih => exact read_someArguments d ih
  | noFields => exact read_noFields
  | lastField hname hcolon _ ih => exact read_lastField hname hcolon ih
  | moreFields hname hcolon d hcomma _ ih ih' => exact read_moreFields hname hcolon d ih hcomma ih'

/-- **Every derivable expression is read**, if what follows does not continue it. -/
theorem Phrase.reads {e : Expr} (d : Phrase .expression xs e ys) {n : Nat} (hn : xs.length < n)
    (hys : Starts Ends ys) : Reads origin (expression n) xs e ys :=
  d.read n hn hys

end Trance.Grammar
