import Trance.Proofs.Grammar.Sound

/-!
# How parsing ends

On any list of tokens, whatever their kinds and wherever the end markers are, parsing ends with a
program or an error of the text. No parser gets past the first end marker, and one that succeeds has
taken a token. So the bound of a parser is never used up if it is greater than the number of tokens
ahead, and then its value does not matter; nor do the tokens behind the first end marker, nor how
comparisons are spelled.
-/

namespace Trance

open List Cursor

/-- There is an end marker among the tokens, and the cursor is not behind the first of them. -/
def Cursor.Within (c : Cursor) : Prop :=
  ∃ stop ∈ c.tokens.findIdx? (·.kind = .eof), c.position ≤ stop

/-- A parser at a cursor: it ends within the same tokens and no earlier than it started, it has
taken a token if it succeeds, it does not use up its bound, and a greater bound changes nothing. -/
structure Parser.Advances {α : Type} (p : Nat → Parser α) (c : Cursor) (bound : Nat) : Prop where
  tokens : (p bound c).2.tokens = c.tokens
  within : (p bound c).2.Within
  position_le : c.position ≤ (p bound c).2.position
  position_lt : ∀ a, (p bound c).1 = .ok a → c.position < (p bound c).2.position
  ends : ∀ e, (p bound c).1 = .error e → e.cause ≠ .exhausted
  settled : ∀ greater, bound ≤ greater → p greater c = p bound c

namespace Grammar

/-! ## Progress -/

theorem Tape.findIdx_eof {s : Tape} (hplain : ∀ t ∈ s.text, t.kind ≠ .eof) :
    (s.text ++ s.stop :: s.behind).toArray.findIdx? (·.kind = .eof) = some s.text.length := by
  have hnone : s.text.findIdx? (·.kind = .eof) = none := by simpa using hplain
  simp [List.findIdx?_append, hnone, List.findIdx?_cons, s.ends]

theorem Tape.within_cursor {s : Tape} (hplain : ∀ t ∈ s.text, t.kind ≠ .eof) (xs : List Token) :
    (s.cursor xs).Within :=
  ⟨s.text.length, Tape.findIdx_eof hplain, Nat.sub_le ..⟩

variable {c : Cursor}

theorem exists_cursor (h : c.Within) : ∃ (s : Tape) (xs : List Token),
    (∀ t ∈ s.text, t.kind ≠ .eof) ∧ xs <:+ s.text ∧ s.cursor xs = c := by
  obtain ⟨⟨tokens⟩, position, origin⟩ := c
  obtain ⟨stop, hstop, hle⟩ := h
  have hplain := Tape.plain_of origin tokens
  have heof : ∃ t ∈ tokens, t.kind = .eof := by
    by_contra hnone
    have : tokens.findIdx? (·.kind = .eof) = none := by simpa using hnone
    simp [this] at hstop
  have htokens := Tape.tokens_of origin heof
  obtain rfl : (Tape.of origin tokens).text.length = stop := by
    have hfound := Tape.findIdx_eof hplain
    rw [htokens] at hfound
    exact Option.some.inj (hfound.symm.trans hstop)
  refine ⟨Tape.of origin tokens, _, hplain, drop_suffix position _, ?_⟩
  simp only [Tape.cursor, htokens, length_drop]
  congr 1
  exact Nat.sub_sub_self hle

theorem advances_of_runs {α : Type} {p : Nat → Parser α} {bound : Nat} (hc : c.Within)
    (hbound : c.tokens.size ≤ bound + c.position)
    (h : ∀ (T : Twins) {n b b' : Nat} (_ : n ≤ b) (_ : n ≤ b') (xs : List Token), Runs T n xs (p b)
      (p b') fun _ ys => ys.length < xs.length) : Parser.Advances p c bound := by
  obtain ⟨s, xs, hplain, hxs, rfl⟩ := exists_cursor hc
  have hle := hxs.length_le
  have hlen : xs.length < bound := by
    simp only [Tape.cursor, size_toArray, length_append, length_cons] at hbound
    omega
  have hruns (greater : Nat) (hgreater : bound ≤ greater) :
      ∃ ys, ys <:+ xs ∧ (Twins.same s hplain).Agree (fun _ ys => ys.length < xs.length) ys
        (p bound (s.cursor xs)) (p greater (s.cursor xs)) :=
    h (.same s hplain) (Nat.le_refl bound) hgreater xs hlen hxs
  have hsettled (greater : Nat) (hgreater : bound ≤ greater) :
      p greater (s.cursor xs) = p bound (s.cursor xs) := by
    obtain ⟨ys, _, hagree⟩ := hruns greater hgreater
    generalize p bound (s.cursor xs) = r at hagree ⊢
    generalize p greater (s.cursor xs) = r' at hagree ⊢
    cases hagree with
    | ok => rfl
    | error alike =>
      obtain ⟨_, _, _, rfl | hfalse⟩ := alike
      · rfl
      · exact hfalse.elim
  obtain ⟨ys, hys, hagree⟩ := hruns bound (Nat.le_refl bound)
  have hend : (p bound (s.cursor xs)).2 = s.cursor ys := by
    generalize p bound (s.cursor xs) = r at hagree ⊢
    cases hagree <;> rfl
  have hpos : (s.cursor xs).position ≤ (s.cursor ys).position :=
    Nat.sub_le_sub_left hys.length_le _
  refine ⟨by rw [hend]; rfl, by rw [hend]; exact Tape.within_cursor hplain ys, by rwa [hend], ?_,
    ?_, hsettled⟩
  · intro a ha
    have hless : ys.length < xs.length := by
      generalize p bound (s.cursor xs) = r at hagree ha
      cases hagree with
      | ok known => exact known
      | error => cases ha
    rw [hend]
    exact Nat.sub_lt_sub_left (by omega) hless
  · intro e he
    generalize p bound (s.cursor xs) = r at hagree he
    cases hagree with
    | ok => cases he
    | error alike =>
      cases he
      exact alike.1

/-! ## Behind the end marker -/

theorem Tape.of_append_eof (origin : Origin) (before : List Token) {stop : Token}
    (hstop : stop.kind = .eof) (after after' : List Token) :
    (Tape.of origin (before ++ stop :: after)).text =
      (Tape.of origin (before ++ stop :: after')).text ∧
      (Tape.of origin (before ++ stop :: after)).stop =
        (Tape.of origin (before ++ stop :: after')).stop := by
  induction before with
  | nil => simp [Tape.of, hstop]
  | cons t before ih =>
    by_cases ht : t.kind = .eof
    · simp [Tape.of, ht]
    · simpa [Tape.of, ht] using ih

theorem exists_closed_eq_append (tokens : List Token) :
    ∃ added, closed tokens = tokens ++ added := by
  unfold closed
  cases h : tokens.getLast? with
  | none => exact ⟨_, by rw [List.getLast?_eq_none_iff.1 h]; rfl⟩
  | some last =>
    dsimp only
    split
    · exact ⟨[], (append_nil _).symm⟩
    · exact ⟨_, rfl⟩

theorem ofTokens_append_eof (origin : Origin) (before : List Token) {stop : Token}
    (hstop : stop.kind = .eof)
    (after after' : List Token) : Program.ofTokens origin (before ++ stop :: after) =
      Program.ofTokens origin (before ++ stop :: after') := by
  obtain ⟨added, hadded⟩ := exists_closed_eq_append (before ++ stop :: after)
  obtain ⟨added', hadded'⟩ := exists_closed_eq_append (before ++ stop :: after')
  obtain ⟨htext, hend⟩ :=
    Tape.of_append_eof origin before hstop (after ++ added) (after' ++ added')
  rw [← cons_append, ← append_assoc, ← hadded, ← cons_append, ← append_assoc,
    ← hadded'] at htext hend
  have halike : List.Forall₂ (Token.Alike False) _ _ := Token.Alike.list_of_eq htext.symm
  obtain ⟨p, hp, hp', _⟩ | ⟨e, e', he, he', ⟨_, _, _, heq⟩, _⟩ :=
    ofTokens_alike halike (.inl hend.symm)
  · rw [hp, hp']
  · rw [he, he', heq.resolve_right id]

theorem within_advance (hc : c.Within) :
    c.advance.Within ∧ c.advance.tokens = c.tokens ∧ c.position ≤ c.advance.position := by
  unfold advance
  split
  · exact ⟨hc, rfl, Nat.le_refl _⟩
  · next hkind =>
    obtain ⟨s, xs, hplain, hxs, rfl⟩ := exists_cursor hc
    cases xs with
    | nil => exact absurd (Tape.kind_token hxs) hkind
    | cons t xs =>
      have hadvance := Tape.advance_cursor hxs (hplain t (hxs.subset (mem_cons_self ..)))
      rw [advance, if_neg hkind] at hadvance
      rw [hadvance]
      exact ⟨Tape.within_cursor hplain xs, rfl, Nat.sub_le_sub_left (Nat.le_succ _) _⟩

/-- **Parsing ends and progresses.** On every list of tokens it starts within the tokens, ends with
a program or an error of the text, and does not depend on its bound. The step that moves the cursor
never leads behind the first end marker. Wherever a parser of expressions, of statements, of members
of a session or of statements at the top level is called, it ends within the tokens and has taken
one if it succeeds. Nothing behind the first end marker matters. -/
theorem parsing_ends_and_progresses :
    (∀ (origin : Origin) (tokens : List Token), (Cursor.ofTokens origin tokens).Within ∧
      Parser.Advances Parser.program (Cursor.ofTokens origin tokens)
        (Cursor.ofTokens origin tokens).tokens.size) ∧
    (∀ c : Cursor, c.Within → c.advance.Within ∧ c.advance.tokens = c.tokens ∧
      c.position ≤ c.advance.position) ∧
    (∀ (c : Cursor) (bound : Nat), c.Within → c.tokens.size ≤ bound + c.position →
      Parser.Advances Parser.expression c bound ∧ Parser.Advances Parser.statement c bound ∧
      Parser.Advances Parser.topLevel c bound ∧
      ∀ more more' : Nat, Parser.Advances (fun b =>
        Parser.member (Parser.expression (b + more)) (Parser.statement b) (b + more')) c bound) ∧
    ∀ (origin : Origin) (before after after' : List Token) (stop : Token), stop.kind = .eof →
      Program.ofTokens origin (before ++ stop :: after) = Program.ofTokens origin
        (before ++ stop :: after') := by
  refine ⟨fun origin tokens => ?_, fun _ => within_advance,
    fun c bound hc hbound => ⟨?_, ?_, ?_, fun more more' => ?_⟩, ?_⟩
  · have hwithin : (Cursor.ofTokens origin tokens).Within := by
      rw [ofTokens_eq_cursor]
      exact Tape.within_cursor (Tape.plain_of origin _) _
    refine ⟨hwithin, advances_of_runs hwithin (Nat.le_add_right ..) fun T _ _ _ hb hb' xs =>
      (runs_program hb hb' xs).weaken ?_⟩
    rintro _ _ ⟨rfl, ⟨d⟩⟩
    cases d <;> simp
  · exact advances_of_runs hc hbound fun T _ _ _ hb hb' xs =>
      (runs_expression hb hb' xs).weaken fun _ _ ⟨d⟩ => d.length_lt
  · exact advances_of_runs hc hbound fun T _ _ _ hb hb' xs =>
      (runs_statement hb hb' xs).weaken fun _ _ ⟨d⟩ => d.length_lt
  · exact advances_of_runs hc hbound fun T _ _ _ hb hb' xs =>
      (runs_topLevel hb hb' xs).weaken fun _ _ ⟨d⟩ => d.length_lt
  · refine advances_of_runs hc hbound fun T n b b' hb hb' xs => ?_
    have hexpr : ∀ xs, Runs T n xs (Parser.expression (b + more)) (Parser.expression (b' + more))
        (Derivable .expression xs) :=
      runs_expression (Nat.le_add_right_of_le hb) (Nat.le_add_right_of_le hb')
    exact (runs_member hexpr (runs_statement hb hb') (Nat.le_add_right_of_le hb)
      (Nat.le_add_right_of_le hb') xs).weaken fun _ _ ⟨d⟩ => d.length_le
  · exact fun origin before after after' stop hstop =>
      ofTokens_append_eof origin before hstop after after'

def snapping : List Token := [⟨.snap, "snap", ⟨1, 1⟩⟩, ⟨.semicolon, ";", ⟨1, 5⟩⟩]

/-- A statement of two tokens is read up to the end marker, which hides what is behind it. -/
theorem parsing_ends_behind_snapping : (Cursor.ofTokens .main snapping).Within ∧
    Parser.Advances Parser.statement (Cursor.ofTokens .main snapping) 3 ∧
    Parser.statement 3 (Cursor.ofTokens .main snapping) =
      (.ok (.snap ⟨1, 1⟩), { Cursor.ofTokens .main snapping with position := 2 }) ∧
      Program.ofTokens .main (snapping ++ ⟨.eof, "", ⟨3, 1⟩⟩ :: []) =
        Program.ofTokens .main (snapping ++ ⟨.eof, "", ⟨3, 1⟩⟩ :: [⟨.relax, "", ⟨3, 1⟩⟩]) :=
  have hwithin := (parsing_ends_and_progresses.1 .main snapping).1
  ⟨hwithin, (parsing_ends_and_progresses.2.2.1 _ 3 hwithin (Nat.le_refl 3)).2.1, rfl,
    parsing_ends_and_progresses.2.2.2 .main snapping [] _ _ rfl⟩

/-! ## Synonyms -/

theorem closed_map_canonical (tokens : List Token) :
    closed (tokens.map Token.canonical) = (closed tokens).map Token.canonical := by
  unfold closed
  rw [List.getLast?_map]
  cases tokens.getLast? with
  | none => rfl
  | some last =>
    have halike : last.Alike True last.canonical := .inr ⟨trivial, rfl⟩
    simp only [Option.map_some, halike.kind_iff (.inr rfl), halike.location]
    split
    · rfl
    · rw [map_append]
      rfl

theorem Tape.of_map_canonical (origin : Origin) (tokens : List Token) :
    List.Forall₂ (Token.Alike True) (Tape.of origin tokens).text
      (Tape.of origin (tokens.map Token.canonical)).text ∧
      (Tape.of origin tokens).stop.Alike True
      (Tape.of origin (tokens.map Token.canonical)).stop := by
  induction tokens with
  | nil => exact ⟨.nil, .refl _⟩
  | cons t tokens ih =>
    have halike : t.Alike True t.canonical := .inr ⟨trivial, rfl⟩
    have heof := halike.kind_iff (.inr rfl)
    by_cases ht : t.kind = .eof
    · have ht' := heof.2 ht
      exact ⟨by simp [Tape.of, ht, ht'], by simpa [Tape.of, ht, ht'] using halike⟩
    · have ht' := mt heof.1 ht
      simp only [Tape.of] at ih ⊢
      simpa [ht, ht', halike] using ih

/-- **Words and signs for comparisons are parsed alike.** Tokens and their canonical forms spell the
same program, or both are rejected at the same position. -/
theorem canonical_parses_alike (origin : Origin) (tokens : List Token) :
    (∃ p, Program.ofTokens origin tokens = .ok p ∧
      Program.ofTokens origin (tokens.map Token.canonical) = .ok p) ∨
    ∃ e e', Program.ofTokens origin tokens = .error e ∧
      Program.ofTokens origin (tokens.map Token.canonical) = .error e' ∧
      e'.location = e.location := by
  obtain ⟨htext, hstop⟩ := Tape.of_map_canonical origin (Cursor.closed tokens)
  rw [← closed_map_canonical] at htext hstop
  obtain ⟨p, hp, hp', _⟩ | ⟨e, e', he, he', ⟨_, _, hloc, _⟩, _⟩ :=
    ofTokens_alike htext hstop
  · exact .inl ⟨p, hp, hp'⟩
  · exact .inr ⟨e, e', he, he', hloc⟩

end Grammar

end Trance
