import Mathlib.Data.List.TakeWhile
import Trance.Parsing.Program

/-!
# What parsers read

A parser reads a result off given tokens, and leaves the others. There is a rule for results,
for sequencing and for each parser of one token; together they run a parser along a derivation.

What is ahead of a cursor are the tokens before the next end marker. The end marker and what is
behind it are on the tape, but nothing depends on them.
-/

namespace Trance.Grammar

open List Trance.Parser Cursor

variable {origin : Origin} {α β : Type}

/-! ## The first token -/

/-- The kind of the first token, and without any token that of the end marker. -/
def firstKind (xs : List Token) : Token.Kind :=
  (xs.head?.map Token.kind).getD .eof

@[simp] theorem firstKind_cons (t : Token) (xs : List Token) : firstKind (t :: xs) = t.kind := rfl

def Starts (kinds : Token.Kind → Prop) (xs : List Token) : Prop :=
  kinds (firstKind xs)

abbrev Avoids (kind : Token.Kind) (xs : List Token) : Prop := Starts (· ≠ kind) xs

@[simp] theorem starts_cons (kinds : Token.Kind → Prop) (t : Token) (xs : List Token) :
    Starts kinds (t :: xs) ↔ kinds t.kind := Iff.rfl

@[simp] theorem starts_nil (kinds : Token.Kind → Prop) : Starts kinds [] ↔ kinds .eof := Iff.rfl

variable {kinds : Token.Kind → Prop} {t : Token} {xs ys zs : List Token}

theorem starts_of_kind {kind : Token.Kind} (h : t.kind = kind) (hkind : kinds kind)
    (xs : List Token) : Starts kinds (t :: xs) := by
  rw [starts_cons, h]
  exact hkind

theorem Starts.mono {kinds' : Token.Kind → Prop} (h : Starts kinds xs)
    (imp : ∀ k, kinds k → kinds' k) : Starts kinds' xs :=
  imp _ h

/-! ## Cursors before an end marker -/

/-- Tokens with an end marker among them, of one text. -/
structure Tape where
  origin : Origin
  text : List Token
  stop : Token
  behind : List Token
  ends : stop.kind = .eof

namespace Tape

variable {s : Tape} {t : Token} {xs ys : List Token}

/-- The cursor with as many tokens before the end marker as there are in a list. -/
def cursor (s : Tape) (xs : List Token) : Cursor :=
  ⟨(s.text ++ s.stop :: s.behind).toArray, s.text.length - xs.length, s.origin⟩

theorem ahead_cursor (h : xs <:+ s.text) (places : Nat) :
    (s.cursor xs).ahead? places = (xs ++ s.stop :: s.behind)[places]? := by
  obtain ⟨taken, h⟩ := h
  simp [ahead?, cursor, ← h, List.getElem?_append_right]

theorem token_cursor (h : xs <:+ s.text) : (s.cursor xs).token = xs.head?.getD s.stop := by
  rw [token, ahead_cursor h]
  cases xs <;> rfl

theorem kind_token (h : xs <:+ s.text) : (s.cursor xs).token.kind = firstKind xs := by
  rw [token_cursor h]
  cases xs with
  | nil => exact s.ends
  | cons => rfl

theorem advance_cursor (h : t :: xs <:+ s.text) (ht : t.kind ≠ .eof) :
    (s.cursor (t :: xs)).advance = s.cursor xs := by
  have hle := h.length_le
  have hkind : (s.cursor (t :: xs)).token.kind ≠ .eof := by rw [kind_token h]; exact ht
  rw [Cursor.advance, if_neg hkind]
  simp only [cursor, length_cons] at hle ⊢
  congr 1
  omega

def of (origin : Origin) (tokens : List Token) : Tape where
  origin := origin
  text := tokens.takeWhile (·.kind ≠ .eof)
  stop := (tokens.dropWhile (·.kind ≠ .eof)).head?.getD ⟨.eof, "", ⟨0, 0⟩⟩
  behind := (tokens.dropWhile (·.kind ≠ .eof)).tail
  ends := by
    cases h : tokens.dropWhile (·.kind ≠ .eof) with
    | nil => rfl
    | cons stop behind =>
      have hne : tokens.dropWhile (·.kind ≠ .eof) ≠ [] := by rw [h]; simp
      have hstop := head_dropWhile_not _ hne
      simp only [h, head_cons] at hstop
      simpa using hstop

theorem plain_of (origin : Origin) (tokens : List Token) :
    ∀ t ∈ (Tape.of origin tokens).text, t.kind ≠ .eof :=
  fun _ ht => by simpa using mem_takeWhile_imp ht

theorem tokens_of (origin : Origin) {tokens : List Token} (h : ∃ t ∈ tokens, t.kind = .eof) :
    (Tape.of origin tokens).text ++ (Tape.of origin tokens).stop :: (Tape.of origin tokens).behind =
      tokens := by
  have hsplit := takeWhile_append_dropWhile (p := fun t : Token => t.kind ≠ .eof) (l := tokens)
  cases hdrop : tokens.dropWhile (·.kind ≠ .eof) with
  | nil =>
    obtain ⟨t, ht, heof⟩ := h
    rw [hdrop, append_nil] at hsplit
    rw [← hsplit] at ht
    exact absurd heof (plain_of origin tokens t ht)
  | cons stop behind =>
    rw [hdrop] at hsplit
    simp only [of, hdrop]
    exact hsplit

theorem length_text_lt (origin : Origin) {tokens : List Token} (h : ∃ t ∈ tokens, t.kind = .eof) :
    (Tape.of origin tokens).text.length < tokens.length := by
  have hlen := congrArg List.length (tokens_of origin h)
  simp only [length_append, length_cons] at hlen
  omega

end Tape

theorem exists_eof_closed (tokens : List Token) : ∃ t ∈ closed tokens, t.kind = .eof := by
  unfold closed
  cases h : tokens.getLast? with
  | none => exact ⟨_, mem_singleton_self _, rfl⟩
  | some last =>
    dsimp only
    split
    · next hlast => exact ⟨last, mem_of_getLast? h, hlast⟩
    · exact ⟨_, mem_append_right _ (mem_singleton_self _), rfl⟩

theorem takeWhile_closed (tokens : List Token) :
    (closed tokens).takeWhile (·.kind ≠ .eof) = tokens.takeWhile (·.kind ≠ .eof) := by
  unfold closed
  cases h : tokens.getLast? with
  | none => simp [List.getLast?_eq_none_iff.1 h]
  | some last =>
    dsimp only
    split
    · rfl
    · rw [takeWhile_append]
      split
      · next hlen =>
        rw [(List.takeWhile_prefix _).eq_of_length hlen]
        simp
      · rfl

theorem ofTokens_eq_cursor (origin : Origin) (tokens : List Token) :
    ofTokens origin tokens = (Tape.of origin (closed tokens)).cursor
      (Tape.of origin (closed tokens)).text := by
  rw [Tape.cursor, Tape.tokens_of origin (exists_eof_closed tokens), Nat.sub_self]
  rfl

theorem ofTokens_eq_program (origin : Origin) (tokens : List Token) :
    Program.ofTokens origin tokens = (program (closed tokens).length
      ((Tape.of origin (closed tokens)).cursor (Tape.of origin (closed tokens)).text)).1 := by
  rw [← ofTokens_eq_cursor]
  rfl

/-- What opens a record, by the kinds of three tokens. The end marker is none of them. -/
theorem opensRecord_iff {s : Tape} (h : xs <:+ s.text) :
    opensRecord (s.cursor xs) = true ↔ Starts (· = .leftBrace) xs ∧
      (Starts (· = .rightBrace) xs.tail ∨ Starts (· = .identifier) xs.tail ∧
        Starts (· = .colon) xs.tail.tail) := by
  simp only [opensRecord, opensRecord.shows, Tape.ahead_cursor h]
  obtain _ | ⟨_, _ | ⟨_, _ | _⟩⟩ := xs <;> simp [s.ends]

/-- The tokens of `xs` before `ys` can be passed: there is no end marker among them. -/
def Passes (xs ys : List Token) : Prop :=
  ∃ taken, xs = taken ++ ys ∧ ∀ t ∈ taken, t.kind ≠ .eof

theorem Passes.suffix (h : Passes xs ys) : ys <:+ xs := by
  obtain ⟨taken, rfl, _⟩ := h
  exact suffix_append taken ys

theorem Passes.refl (xs : List Token) : Passes xs xs := ⟨[], rfl, by simp⟩

theorem Passes.cons (ht : t.kind ≠ .eof) (h : Passes xs ys) : Passes (t :: xs) ys := by
  obtain ⟨taken, rfl, hplain⟩ := h
  exact ⟨t :: taken, rfl, by simpa [ht] using hplain⟩

theorem Passes.trans (h : Passes xs ys) (h' : Passes ys zs) : Passes xs zs := by
  obtain ⟨first, rfl, hfirst⟩ := h
  obtain ⟨second, rfl, hsecond⟩ := h'
  refine ⟨first ++ second, (append_assoc ..).symm, fun t ht => ?_⟩
  exact (mem_append.1 ht).elim (hfirst t) (hsecond t)

theorem Passes.past (h : Passes xs (t :: ys)) (ht : t.kind ≠ .eof) : Passes xs ys :=
  h.trans (.cons ht (.refl ys))

theorem Passes.split (h : Passes xs zs) (hxs : ys <:+ xs) (hys : zs <:+ ys) :
    Passes xs ys ∧ Passes ys zs := by
  obtain ⟨taken, heq, hplain⟩ := h
  obtain ⟨first, rfl⟩ := hxs
  obtain ⟨second, rfl⟩ := hys
  rw [← append_assoc, append_cancel_right_eq] at heq
  refine ⟨⟨first, rfl, fun t ht => hplain t ?_⟩, second, rfl, fun t ht => hplain t ?_⟩
  · exact heq ▸ mem_append_left _ ht
  · exact heq ▸ mem_append_right _ ht

/-! ## Running a parser along given tokens -/

/-- A parser on the tokens `xs` of a text goes on as another parser on the last of them, `ys`, if
the tokens in between can be passed. -/
def Continues (origin : Origin) (p : Parser α) (xs : List Token) (q : Parser α) (ys : List Token) :
    Prop :=
  ys <:+ xs ∧ ∀ s : Tape, s.origin = origin → xs <:+ s.text → Passes xs ys →
    p (s.cursor xs) = q (s.cursor ys)

/-- A parser on the tokens `xs` of a text takes those before `ys` and returns `a`. -/
abbrev Reads (origin : Origin) (p : Parser α) (xs : List Token) (a : α) (ys : List Token) : Prop :=
  Continues origin p xs (Pure.pure a) ys

theorem Continues.trans {p q r : Parser α} (h : Continues origin p xs q ys)
    (h' : Continues origin q ys r zs) : Continues origin p xs r zs := by
  refine ⟨h'.1.trans h.1, fun s hs hxs hpass => ?_⟩
  obtain ⟨hfirst, hsecond⟩ := hpass.split h.1 h'.1
  rw [h.2 s hs hxs hfirst, h'.2 s hs (h.1.trans hxs) hsecond]

namespace Reads

theorem pure (a : α) (xs : List Token) : Reads origin (Pure.pure a) xs a xs :=
  ⟨suffix_refl xs, fun _ _ _ _ => rfl⟩

variable {xs ys : List Token} {t : Token}

theorem continues {p : Parser α} {a : α} (h : Reads origin p xs a ys) (f : α → Parser β) :
    Continues origin (p >>= f) xs (f a) ys := by
  refine ⟨h.1, fun s hs hxs hpass => ?_⟩
  simp only [Bind.bind, ExceptT.bind, ExceptT.mk, StateT.bind, h.2 s hs hxs hpass]
  rfl

theorem bind {p : Parser α} {f : α → Parser β} {a : α} {b : β} (hp : Reads origin p xs a ys)
    (hf : Reads origin (f a) ys b zs) :
    Reads origin (p >>= f) xs b zs :=
  (hp.continues f).trans hf

theorem unique {p : Parser α} {a b : α} (h : Reads origin p xs a ys) (hys : Passes xs ys)
    (h' : Reads origin p xs b zs) (hzs : Passes xs zs) : a = b := by
  let s : Tape := ⟨origin, xs, ⟨.eof, "", ⟨0, 0⟩⟩, [], rfl⟩
  have heq := (h.2 s rfl (suffix_refl xs) hys).symm.trans (h'.2 s rfl (suffix_refl xs) hzs)
  exact Except.ok.inj (Prod.mk.inj heq).1

theorem peekKind {f : Token → Parser β} {b : β}
    (h : ∀ t : Token, t.kind = firstKind xs → xs.head?.all (· = t) → Reads origin (f t) xs b ys) :
    Reads origin (peek >>= f) xs b ys := by
  have hfirst (s : Tape) (hxs : xs <:+ s.text) :=
    h (s.cursor xs).token (Tape.kind_token hxs) (by rw [Tape.token_cursor hxs]; cases xs <;> simp)
  refine ⟨(hfirst ⟨origin, xs, ⟨.eof, "", ⟨0, 0⟩⟩, [], rfl⟩ (suffix_refl xs)).1, ?_⟩
  intro s hs hxs hpass
  exact (hfirst s hxs).2 s hs hxs hpass

theorem peek (t : Token) (xs : List Token) : Reads origin peek (t :: xs) t (t :: xs) :=
  ⟨suffix_refl _, fun s _ hxs _ => by
    show (_, _) = (_, _)
    rw [Tape.token_cursor hxs]
    rfl⟩

theorem here (t : Token) (xs : List Token) : Reads origin here (t :: xs) t.location (t :: xs) :=
  bind (peek t xs) (pure _ _)

theorem advance (t : Token) (xs : List Token) : Reads origin advance (t :: xs) () xs := by
  refine ⟨suffix_cons t xs, ?_⟩
  rintro s _ hxs ⟨taken, heq, hplain⟩
  obtain rfl : taken = [t] := append_cancel_right (heq.symm.trans (singleton_append ..).symm)
  show (Except.ok (), _) = (Except.ok (), _)
  rw [Tape.advance_cursor hxs (hplain t (mem_singleton_self t))]

theorem kind (xs : List Token) : Reads origin kind xs (firstKind xs) xs :=
  peekKind fun t ht _ => ht ▸ pure t.kind xs

theorem hereThen {f : Location → Parser β} {b : β}
    (h : ∀ loc, (∀ t ∈ xs.head?, loc = t.location) → Reads origin (f loc) xs b ys) :
    Reads origin (Parser.here >>= f) xs b ys := by
  refine peekKind fun t _ ht => h t.location fun t' ht' => ?_
  rw [Option.mem_def.1 ht', Option.all_some, decide_eq_true_eq] at ht
  rw [ht]

theorem cursor {f : Cursor → Parser β} {b : β}
    (h : ∀ s : Tape, s.origin = origin → xs <:+ s.text → Reads origin (f (s.cursor xs)) xs b ys) :
    Reads origin (get >>= f) xs b ys := by
  refine ⟨(h ⟨origin, xs, ⟨.eof, "", ⟨0, 0⟩⟩, [], rfl⟩ rfl (suffix_refl xs)).1, ?_⟩
  intro s hs hxs hpass
  exact (h s hs hxs).2 s hs hxs hpass

variable {kind : Token.Kind}

theorem accept (h : t.kind = kind) (xs : List Token) :
    Reads origin (accept kind) (t :: xs) true xs := by
  refine bind (peek t xs) ?_
  rw [if_pos h]
  exact bind (advance t xs) (pure true xs)

theorem refuse (h : Avoids kind xs) : Reads origin (Parser.accept kind) xs false xs := by
  refine peekKind fun t ht _ => ?_
  rw [if_neg (by rw [ht]; exact h)]
  exact pure false xs

theorem ifTaken (h : t.kind = kind) {p q : Parser β} {b : β} (hp : Reads origin p xs b ys) :
    Reads origin (Parser.accept kind >>= fun taken => if taken = true then p else q)
      (t :: xs) b ys :=
  bind (accept h xs) hp

theorem ifRefused {p q : Parser β} {b : β} (h : Avoids kind xs) (hq : Reads origin q xs b ys) :
    Reads origin (Parser.accept kind >>= fun taken => if taken = true then p else q) xs b ys :=
  bind (refuse h) hq

theorem expect (h : t.kind = kind) (context : String) (xs : List Token) :
    Reads origin (expect kind context) (t :: xs) t xs := by
  refine bind (peek t xs) ?_
  rw [if_pos h]
  exact bind (advance t xs) (pure t xs)

theorem identifier (h : t.kind = .identifier) (context : String) (xs : List Token) :
    Reads origin (identifier context) (t :: xs) t.lexeme xs :=
  bind (expect h context xs) (pure _ xs)

end Reads

end Trance.Grammar
