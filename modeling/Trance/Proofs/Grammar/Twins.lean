import Mathlib.Data.List.Forall2
import Trance.Proofs.Grammar.Reading

/-!
# Parsers side by side

Two parsers on two lists of tokens that differ in nothing a parser tells apart. Behind the first
end marker the lists may differ in any way, and so may the bounds of the parsers. If this is asked
for, words for comparisons may also stand against their signs.

Both parsers return the same result and stand at the same token, or both fail at the same position;
neither uses up its bound. What is known about a result says which tokens it was read from. There is
a rule for results, for sequencing and for each parser of one token. -/

namespace Trance

open List Token Trance.Parser

/-! ## Words and signs for comparisons -/

/-- The sign for a comparison that can be spelled as words too. -/
def Token.Kind.canonical : Kind → Kind
  | .youAreFeelingVerySleepy => .equal
  | .notSoDeep => .notEqual
  | .lookAtTheWatch => .greater
  | .fallUnderMySpell => .less
  | .deeplyGreater => .greaterEqual
  | .deeplyLess => .lessEqual
  | kind => kind

/-- A token with the sign for a comparison in place of the word for it, at the same position. -/
def Token.canonical (t : Token) : Token :=
  if t.kind.canonical = t.kind then t
  else ⟨t.kind.canonical, t.kind.canonical.spelling?.getD "", t.location⟩

/-- A word for a comparison and its sign. -/
inductive Token.Kind.Respelled : Kind → Kind → Prop where
  | equal : Respelled .youAreFeelingVerySleepy .equal
  | notEqual : Respelled .notSoDeep .notEqual
  | greater : Respelled .lookAtTheWatch .greater
  | less : Respelled .fallUnderMySpell .less
  | greaterEqual : Respelled .deeplyGreater .greaterEqual
  | lessEqual : Respelled .deeplyLess .lessEqual

/-- A kind of token that can be asked for: no comparison and not the end marker. -/
def Token.Kind.isMark : Kind → Bool
  | .youAreFeelingVerySleepy | .notSoDeep | .lookAtTheWatch | .fallUnderMySpell | .deeplyGreater
  | .deeplyLess | .equal | .notEqual | .greater | .less | .greaterEqual | .lessEqual | .eof => false
  | _ => true

theorem Token.Kind.Respelled.not_mark {kind kind' : Kind} (h : kind.Respelled kind') :
    (kind.isMark = false ∧ kind ≠ .eof) ∧ kind'.isMark = false ∧ kind' ≠ .eof := by
  cases h <;> decide

theorem Token.Kind.respelled_canonical {kind : Kind} (h : kind.canonical ≠ kind) :
    kind.Respelled kind.canonical := by
  cases kind <;> first | constructor | exact absurd rfl h

/-- A token stands for another, itself or, if there are synonyms, its canonical form. -/
def Token.Alike (synonyms : Prop) (t t' : Token) : Prop :=
  t' = t ∨ (synonyms ∧ t' = t.canonical)

namespace Token.Alike

variable {synonyms : Prop} {t t' : Token}

theorem refl (t : Token) : t.Alike synonyms t := .inl rfl

theorem list_of_eq {ts ts' : List Token} (h : ts' = ts) : List.Forall₂ (Alike synonyms) ts ts' :=
  h ▸ forall₂_same.2 fun t _ => .refl t

theorem cases (h : t.Alike synonyms t') :
    t' = t ∨ (synonyms ∧ t.kind.Respelled t'.kind ∧ t'.location = t.location) := by
  obtain rfl | ⟨hsynonyms, rfl⟩ := h
  · exact .inl rfl
  · unfold canonical
    split
    · exact .inl rfl
    · next h => exact .inr ⟨hsynonyms, Kind.respelled_canonical h, rfl⟩

theorem location (h : t.Alike synonyms t') : t'.location = t.location := by
  obtain rfl | ⟨_, _, h⟩ := h.cases
  · rfl
  · exact h

theorem kind_iff (h : t.Alike synonyms t') {kind : Kind}
    (hkind : kind.isMark = true ∨ kind = .eof) : t'.kind = kind ↔ t.kind = kind := by
  obtain rfl | ⟨_, h, _⟩ := h.cases
  · rfl
  · have := h.not_mark
    constructor <;> rintro rfl <;> simp_all

theorem eq_of_mark (h : t.Alike synonyms t') (ht : t.kind.isMark = true) : t' = t := by
  obtain rfl | ⟨_, h, _⟩ := h.cases
  · rfl
  · exact absurd ht (by simp [h.not_mark])

end Token.Alike

/-- Parse errors of two parsers that end alike: no bound is used up, and they are the same, or at
least at the same position if there are synonyms. -/
def ParseError.Alike (synonyms : Prop) (e e' : ParseError) : Prop :=
  e.cause ≠ .exhausted ∧ e'.cause ≠ .exhausted ∧ e'.location = e.location ∧ (e' = e ∨ synonyms)

/-- A number is invalid only if it is the lexeme of a token and cannot be read. -/
@[simp]
def ParseError.Cause.From (tokens : List Token) : ParseError.Cause → Prop
  | .invalidNumber lexeme => ∃ t ∈ tokens, t.kind = .number ∧ t.lexeme = lexeme ∧
    Number.read? lexeme.toList = none
  | _ => True

namespace Grammar

/-! ## Two tapes -/

/-- Two tapes that are read side by side. -/
structure Twins where
  left : Tape
  right : Tape
  synonyms : Prop
  origin : right.origin = left.origin
  plain : ∀ t ∈ left.text, t.kind ≠ .eof
  text : List.Forall₂ (Alike synonyms) left.text right.text
  stop : left.stop.Alike synonyms right.stop

namespace Twins

variable {T : Twins} {xs : List Token}

def same (s : Tape) (plain : ∀ t ∈ s.text, t.kind ≠ .eof) : Twins :=
  ⟨s, s, False, rfl, plain, Alike.list_of_eq rfl, .refl s.stop⟩

theorem exists_right (T : Twins) (h : xs <:+ T.left.text) : ∃ xs', xs' <:+ T.right.text ∧
    List.Forall₂ (Alike T.synonyms) xs xs' ∧ T.right.cursor xs = T.right.cursor xs' := by
  have hdrop := suffix_iff_eq_drop.1 h
  refine ⟨T.right.text.drop (T.left.text.length - xs.length), drop_suffix .., ?_, ?_⟩
  · have halike := forall₂_drop (T.left.text.length - xs.length) T.text
    rwa [← hdrop] at halike
  · have hlen := T.text.length_eq
    have hle := h.length_le
    simp only [Tape.cursor, length_drop]
    congr 1
    omega

theorem token_alike (h : xs <:+ T.left.text) :
    (T.left.cursor xs).token.Alike T.synonyms (T.right.cursor xs).token := by
  obtain ⟨xs', hxs', halike, hcursor⟩ := T.exists_right h
  rw [hcursor, Tape.token_cursor h, Tape.token_cursor hxs']
  cases halike with
  | nil => exact T.stop
  | cons hfirst _ => exact hfirst

theorem advance_right {t : Token} (h : t :: xs <:+ T.left.text) :
    (T.right.cursor (t :: xs)).advance = T.right.cursor xs := by
  obtain ⟨_, hxs', halike, hcursor⟩ := T.exists_right h
  obtain ⟨t', xs', ht', htail, rfl⟩ := forall₂_cons_left_iff.1 halike
  have hplain := T.plain t (h.subset (mem_cons_self ..))
  rw [hcursor, Tape.advance_cursor hxs' (by rwa [Ne, ht'.kind_iff (.inr rfl)])]
  simp only [Tape.cursor, htail.length_eq]

theorem opensRecord_right (h : xs <:+ T.left.text) :
    opensRecord (T.right.cursor xs) = opensRecord (T.left.cursor xs) := by
  obtain ⟨xs', hxs', halike, hcursor⟩ := T.exists_right h
  rw [hcursor, Bool.eq_iff_iff, opensRecord_iff hxs', opensRecord_iff h]
  have hmark {ys ys' : List Token} (hys : List.Forall₂ (Alike T.synonyms) ys ys') {kind : Kind}
      (hkind : kind.isMark = true) : Starts (· = kind) ys' ↔ Starts (· = kind) ys := by
    cases hys with
    | nil => rfl
    | cons hfirst _ => exact hfirst.kind_iff (.inl hkind)
  have htail {ys ys' : List Token} (hys : List.Forall₂ (Alike T.synonyms) ys ys') :
      List.Forall₂ (Alike T.synonyms) ys.tail ys'.tail := by
    cases hys with
    | nil => exact .nil
    | cons _ hrest => exact hrest
  rw [hmark halike rfl, hmark (htail halike) rfl, hmark (htail halike) rfl, hmark
    (htail (htail halike)) rfl]

/-- How two parsers end alike, with `ys` ahead: with the same result, about which something is
known, or with errors that are alike. -/
inductive Agree (T : Twins) {α : Type} (E : α → List Token → Prop) (ys : List Token) :
    Except ParseError α × Cursor → Except ParseError α × Cursor → Prop where
  | ok {a} (known : E a ys) : Agree T E ys (.ok a, T.left.cursor ys) (.ok a, T.right.cursor ys)
  | error {e e'} (alike : e.Alike T.synonyms e') (source : e.cause.From T.left.text) :
      Agree T E ys (.error e, T.left.cursor ys) (.error e', T.right.cursor ys)

end Twins

/-- Two parsers with fewer than `n` tokens `xs` ahead end alike, with the last of the tokens ahead.
-/
def Runs (T : Twins) {α : Type} (n : Nat) (xs : List Token) (p q : Parser α)
    (E : α → List Token → Prop) : Prop :=
  xs.length < n → xs <:+ T.left.text → ∃ ys, ys <:+ xs ∧
    T.Agree E ys (p (T.left.cursor xs)) (q (T.right.cursor xs))

namespace Runs

variable {T : Twins} {α β : Type} {n m : Nat} {xs : List Token} {p q : Parser α}
  {D : α → List Token → Prop} {E : β → List Token → Prop} {f g : α → Parser β}

theorem zero : Runs T 0 xs p q D :=
  fun h => absurd h (Nat.not_lt_zero _)

theorem counted (h : xs.length < n → Runs T n xs p q D) : Runs T n xs p q D :=
  fun hn => h hn hn

theorem inText (h : xs <:+ T.left.text → Runs T n xs p q D) : Runs T n xs p q D :=
  fun hn hxs => h hxs hn hxs

theorem within (h : Runs T n xs p q D) (hn : xs.length < n) : Runs T m xs p q D :=
  fun _ => h hn

theorem mono (h : Runs T n xs p q D) (hm : m ≤ n) : Runs T m xs p q D :=
  fun hlt => h (Nat.lt_of_lt_of_le hlt hm)

theorem recursion {ι : Type} {p q : Nat → ι → Parser α} {D : ι → List Token → α → List Token → Prop}
    (step : ∀ k b b', k < n → k ≤ b → k ≤ b' → (∀ i xs, Runs T k xs (p b i) (q b' i) (D i xs)) →
      ∀ i xs, Runs T (k + 1) xs (p (b + 1) i) (q (b' + 1) i) (D i xs))
    {b b' : Nat} (hb : n ≤ b) (hb' : n ≤ b') (i : ι) (xs : List Token) :
    Runs T n xs (p b i) (q b' i) (D i xs) := by
  induction n generalizing b b' i xs with
  | zero => exact .zero
  | succ n ih =>
    obtain _ | b := b
    · omega
    obtain _ | b' := b'
    · omega
    have hb := Nat.le_of_succ_le_succ hb
    have hb' := Nat.le_of_succ_le_succ hb'
    refine step n b b' (Nat.lt_succ_self n) hb hb' (fun i xs => ih ?_ hb hb' i xs) i xs
    exact fun k b b' hk => step k b b' (Nat.lt_succ_of_lt hk)

theorem loop {p q : Nat → Parser α} {D : List Token → α → List Token → Prop}
    (step : ∀ k b b', k < n → k ≤ b → k ≤ b' → (∀ xs, Runs T k xs (p b) (q b') (D xs)) →
      ∀ xs, Runs T (k + 1) xs (p (b + 1)) (q (b' + 1)) (D xs))
    {b b' : Nat} (hb : n ≤ b) (hb' : n ≤ b') (xs : List Token) : Runs T n xs (p b) (q b') (D xs) :=
  recursion (p := fun b _ => p b) (q := fun b _ => q b) (D := fun _ => D)
    (fun k b b' hk hb hb' ih _ => step k b b' hk hb hb' (ih ())) hb hb' () xs

theorem pure {a : α} (h : D a xs) : Runs T n xs (Pure.pure a) (Pure.pure a) D :=
  fun _ _ => ⟨xs, suffix_refl xs, .ok h⟩

theorem fail {t t' : Token} (h : t.Alike T.synonyms t') (cause : Token → ParseError.Cause)
    (hcause : ∀ t, cause t ≠ .exhausted ∧ (cause t).From T.left.text) :
    Runs T n xs (fail (cause t) t.location) (fail (cause t') t'.location) D := by
  refine fun _ _ =>
    ⟨xs, suffix_refl xs, .error ⟨(hcause t).1, (hcause t').1, h.location, ?_⟩ (hcause t).2⟩
  obtain rfl | ⟨hsynonyms, _⟩ := h
  · exact .inl rfl
  · exact .inr hsynonyms

theorem failAt {cause : ParseError.Cause} (hcause : cause ≠ .exhausted ∧ cause.From T.left.text)
    (loc : Location) : Runs T n xs (Parser.fail cause loc) (Parser.fail cause loc) D :=
  fun _ _ => ⟨xs, suffix_refl xs, .error ⟨hcause.1, hcause.1, rfl, .inl rfl⟩ hcause.2⟩

theorem bind (hp : Runs T n xs p q D) (hf : ∀ a ys, ys <:+ xs → D a ys → Runs T n ys (f a) (g a) E) :
    Runs T n xs (p >>= f) (q >>= g) E := by
  intro hn hxs
  obtain ⟨ys, hys, hagree⟩ := hp hn hxs
  simp only [Bind.bind, ExceptT.bind, ExceptT.mk, StateT.bind]
  generalize p (T.left.cursor xs) = r at hagree ⊢
  generalize q (T.right.cursor xs) = r' at hagree ⊢
  cases hagree with
  | ok known =>
    obtain ⟨zs, hzs, h⟩ := hf _ ys hys known (Nat.lt_of_le_of_lt hys.length_le hn) (hys.trans hxs)
    exact ⟨zs, hzs.trans hys, h⟩
  | error alike source => exact ⟨ys, hys, .error alike source⟩

theorem weaken {D' : α → List Token → Prop} (hp : Runs T n xs p q D)
    (h : ∀ a ys, D a ys → D' a ys) : Runs T n xs p q D' := by
  intro hn hxs
  obtain ⟨ys, hys, hagree⟩ := hp hn hxs
  refine ⟨ys, hys, ?_⟩
  generalize p (T.left.cursor xs) = r at hagree ⊢
  generalize q (T.right.cursor xs) = r' at hagree ⊢
  cases hagree with
  | ok known => exact .ok (h _ _ known)
  | error alike source => exact .error alike source

/-! ### Parsers of one token -/

theorem look {f g : Token → Parser β} (h : ∀ t t', t.Alike T.synonyms t' → t.kind = firstKind xs →
      ((xs = [] ∧ t.kind = .eof) ∨ ∃ ys, xs = t :: ys) → Runs T n xs (f t) (g t') E) :
    Runs T n xs (peek >>= f) (peek >>= g) E := by
  intro hn hxs
  refine h _ _ (Twins.token_alike hxs) (Tape.kind_token hxs) ?_ hn hxs
  rw [Tape.token_cursor hxs]
  cases xs with
  | nil => exact .inl ⟨rfl, T.left.ends⟩
  | cons t ys => exact .inr ⟨ys, rfl⟩

theorem kind {f g : Kind → Parser β}
    (h : ∀ t t' : Token, t.Alike T.synonyms t' → Runs T n xs (f t.kind) (g t'.kind) E) :
    Runs T n xs (kind >>= f) (kind >>= g) E :=
  look (f := fun t => f t.kind) (g := fun t => g t.kind) fun t t' halike _ _ => h t t' halike

theorem advance {t : Token} (h : Runs T n xs p q D) :
    Runs T (n + 1) (t :: xs) (advance >>= fun _ => p) (advance >>= fun _ => q) D := by
  intro hn hxs
  obtain ⟨ys, hys, hagree⟩ := h (Nat.lt_of_succ_lt_succ hn) ((suffix_cons t xs).trans hxs)
  refine ⟨ys, hys.trans (suffix_cons t xs), ?_⟩
  have hleft := Tape.advance_cursor hxs (T.plain t (hxs.subset (mem_cons_self ..)))
  rw [← hleft, ← Twins.advance_right hxs] at hagree
  exact hagree

variable {kind : Kind} {context : String}

theorem lookFor (hkind : kind.isMark = true) {f f' g g' : Token → Parser β}
    (hyes : ∀ t ys, xs = t :: ys → t.kind = kind → Runs T n xs (f t) (g t) E)
    (hno : ∀ t t', t.Alike T.synonyms t' → t.kind = firstKind xs → Avoids kind xs →
      Runs T n xs (f' t) (g' t') E) :
    Runs T n xs (peek >>= fun t => if t.kind = kind then f t else f' t)
      (peek >>= fun t => if t.kind = kind then g t else g' t) E := by
  refine look fun t t' halike hfirst hxs => ?_
  by_cases ht : t.kind = kind
  · obtain rfl := halike.eq_of_mark (ht ▸ hkind)
    obtain ⟨_, heof⟩ | ⟨ys, rfl⟩ := hxs
    · exact absurd (ht ▸ hkind) (by rw [heof]; decide)
    rw [if_pos ht, if_pos ht]
    exact hyes _ ys rfl ht
  · rw [if_neg ht, if_neg (mt (halike.kind_iff (.inl hkind)).1 ht)]
    exact hno t t' halike hfirst fun h => ht (hfirst.trans h)

theorem lookForEnd {p q : Parser β} {f g : Token → Parser β} (hyes : xs = [] → Runs T n xs p q E)
    (hno : ∀ t t', t.Alike T.synonyms t' → Runs T n xs (f t) (g t') E) :
    Runs T n xs (peek >>= fun t => if t.kind = .eof then p else f t)
      (peek >>= fun t => if t.kind = .eof then q else g t) E := by
  intro hn hsuffix
  refine look (fun t t' halike _ hxs => ?_) hn hsuffix
  by_cases ht : t.kind = .eof
  · rw [if_pos ht, if_pos ((halike.kind_iff (.inr rfl)).2 ht)]
    obtain ⟨hnil, _⟩ | ⟨ys, rfl⟩ := hxs
    · exact hyes hnil
    · exact absurd ht (T.plain t (hsuffix.subset (mem_cons_self ..)))
  · rw [if_neg ht, if_neg (mt (halike.kind_iff (.inr rfl)).1 ht)]
    exact hno t t' halike

theorem accepting (hkind : kind.isMark = true) :
    Runs T n xs (accept kind) (accept kind) fun taken ys =>
      (taken = true ∧ ∃ t, xs = t :: ys ∧ t.kind = kind) ∨
      (taken = false ∧ xs = ys ∧ Avoids kind xs) := by
  refine lookFor hkind ?_ fun _ _ _ _ havoids => pure (.inr ⟨rfl, rfl, havoids⟩)
  rintro t ys rfl ht
  exact (advance (pure (.inl ⟨rfl, t, rfl, ht⟩))).mono (Nat.le_succ n)

theorem accept (hkind : kind.isMark = true) {f g : Bool → Parser β}
    (hyes : ∀ t ys, xs = t :: ys → t.kind = kind → Runs T n ys (f true) (g true) E)
    (hno : Avoids kind xs → Runs T n xs (f false) (g false) E) :
    Runs T n xs (accept kind >>= f) (accept kind >>= g) E := by
  refine bind (accepting hkind) ?_
  rintro _ ys _ (⟨rfl, t, hxs, ht⟩ | ⟨rfl, rfl, havoids⟩)
  · exact hyes t ys hxs ht
  · exact hno havoids

theorem ifAccept (hkind : kind.isMark = true) {p p' q q' : Parser β}
    (hyes : ∀ t ys, xs = t :: ys → t.kind = kind → Runs T n ys p q E)
    (hno : Avoids kind xs → Runs T n xs p' q' E) :
    Runs T n xs (Parser.accept kind >>= fun taken => if taken = true then p else p')
      (Parser.accept kind >>= fun taken => if taken = true then q else q') E :=
  accept hkind hyes hno

theorem expect (hkind : kind.isMark = true) {f g : Token → Parser β}
    (h : ∀ t ys, xs = t :: ys → t.kind = kind → Runs T n ys (f t) (g t) E) :
    Runs T n xs (expect kind context >>= f) (expect kind context >>= g) E := by
  refine bind (D := fun t ys => xs = t :: ys ∧ t.kind = kind) (lookFor hkind ?_ ?_) ?_
  · rintro t ys rfl ht
    exact (advance (pure ⟨rfl, ht⟩)).mono (Nat.le_succ n)
  · exact fun t t' halike _ _ => fail halike _ (by simp)
  · exact fun t ys _ ht => h t ys ht.1 ht.2

theorem naming : Runs T n xs (identifier context) (identifier context) fun name ys =>
    ∃ t, xs = t :: ys ∧ t.kind = .identifier ∧ t.lexeme = name :=
  expect rfl fun t _ hxs ht => pure ⟨t, hxs, ht, rfl⟩

theorem identifier {f g : String → Parser β}
    (h : ∀ t ys, xs = t :: ys → t.kind = .identifier → Runs T n ys (f t.lexeme) (g t.lexeme) E) :
    Runs T n xs (identifier context >>= f) (identifier context >>= g) E := by
  refine bind naming ?_
  rintro _ ys _ ⟨t, hxs, ht, rfl⟩
  exact h t ys hxs ht

theorem here {f g : Location → Parser β}
    (h : ∀ loc, (∀ t ∈ xs.head?, loc = t.location) → Runs T n xs (f loc) (g loc) E) :
    Runs T n xs (here >>= f) (here >>= g) E := by
  refine bind (D := fun loc ys => xs = ys ∧ ∀ t ∈ xs.head?, loc = t.location) (look ?_) ?_
  · intro t t' halike hfirst hxs
    rw [halike.location]
    refine pure ⟨rfl, fun first hmem => ?_⟩
    obtain ⟨rfl, _⟩ | ⟨ys, rfl⟩ := hxs
    · exact absurd hmem (by simp)
    · rw [Option.some.inj hmem]
  · rintro loc _ _ ⟨rfl, hloc⟩
    exact h loc hloc

theorem cursor {f g : Cursor → Parser β}
    (h : xs <:+ T.left.text → Runs T n xs (f (T.left.cursor xs)) (g (T.right.cursor xs)) E) :
    Runs T n xs (get >>= f) (get >>= g) E :=
  fun hn hxs => h hxs hn hxs

end Runs

end Grammar

end Trance
