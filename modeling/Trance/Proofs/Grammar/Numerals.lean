import Trance.Proofs.Grammar.Sound
import Trance.Proofs.Lexing.Layout

/-!
# Number literals

A token for a number consists of digits, perhaps with a dot and more digits behind them, whatever
the text goes on with: a second dot ends the token, and so does a digit of another script. Every
such text can be read as a number. So the parser, which reads the numbers a second time, finds none
that is invalid, and what it says about a text never is that a number is. -/

namespace Trance

open List Text

/-- The text of a number: digits, and perhaps a dot and more digits. -/
def Number.IsLiteral (text : List Char) : Prop :=
  ∃ digits, digits ≠ [] ∧ (∀ d ∈ digits, isDigit d = true) ∧
    (text = digits ∨ ∃ more, text = digits ++ '.' :: more ∧ ∀ d ∈ more, isDigit d = true)

namespace Number

variable {text : List Char}

theorem Numeral.isSome_read?_of_isLiteral (h : IsLiteral text) :
    (Numeral.read? text).isSome = true := by
  obtain ⟨digits, hany, hdigits, rfl | ⟨more, rfl, hmore⟩⟩ := h
  · have htake : text.takeWhile isDigit = text := takeWhile_eq_self_iff.2 hdigits
    have hdrop : text.dropWhile isDigit = [] := dropWhile_eq_nil_iff.2 hdigits
    simp [Numeral.read?, htake, hdrop, hany]
  · have htake : (digits ++ '.' :: more).takeWhile isDigit = digits := by
      rw [takeWhile_append_of_pos hdigits]
      simp [isDigit]
    have hdrop : (digits ++ '.' :: more).dropWhile isDigit = '.' :: more := by
      rw [dropWhile_append_of_pos hdigits]
      simp [isDigit]
    have hrest : more.dropWhile isDigit = [] := dropWhile_eq_nil_iff.2 hmore
    simp [Numeral.read?, htake, hdrop, hrest, hany]

theorem isSome_read?_of_isLiteral (h : IsLiteral text) : (Number.read? text).isSome = true := by
  obtain ⟨c, rest, rfl, hdigit⟩ : ∃ c rest, text = c :: rest ∧ isDigit c = true := by
    obtain ⟨digits, hany, hdigits, htext⟩ := h
    obtain ⟨c, rest, rfl⟩ := exists_cons_of_ne_nil hany
    obtain rfl | ⟨more, rfl, _⟩ := htext
    · exact ⟨c, rest, rfl, hdigits c mem_cons_self⟩
    · exact ⟨c, rest ++ '.' :: more, rfl, hdigits c mem_cons_self⟩
  have hunsigned : (readUnsigned? (c :: rest)).isSome = true := by
    rw [readUnsigned?]
    split_ifs
    · rfl
    · rfl
    · rw [Option.isSome_map]
      exact Numeral.isSome_read?_of_isLiteral h
  -- a digit is no sign
  unfold read?
  split
  · next hminus =>
    obtain ⟨rfl, -⟩ := List.cons.inj hminus
    cases hdigit
  · next hplus =>
    obtain ⟨rfl, -⟩ := List.cons.inj hplus
    cases hdigit
  · exact hunsigned

end Number

theorem Text.head?_append {s : String} {c : Char} (h : s.toList.head? = some c) (t : String) :
    (s ++ t).toList.head? = some c := by
  rw [String.toList_append, List.head?_append, h]
  rfl

namespace Token

theorem IsLexeme.isLiteral {text : List Char} (h : IsLexeme .number text) :
    Number.IsLiteral text := by
  cases h with
  | fixed known => simp [Kind.spelling?] at known
  | whole any all => exact ⟨_, any, all, .inl rfl⟩
  | decimal any all behind => exact ⟨_, any, all, .inr ⟨_, rfl, behind⟩⟩

theorem Layout.Covers.isLexeme {tokens : List Token} {layout : Layout} (h : layout.Covers tokens) :
    ∀ token ∈ tokens, IsLexeme token.kind token.lexeme.toList := by
  induction h with
  | last => simp
  | next between lexeme spelled more ih => exact forall_mem_cons.2 ⟨lexeme, ih⟩

theorem isLiteral_of_mem_lex {source : String} {token : Token} (h : token ∈ lex source)
    (hkind : token.kind = .number) : Number.IsLiteral token.lexeme.toList := by
  obtain ⟨tokens, layout, htokens, -, hcovers, -⟩ := exists_layout source.toList []
  rw [show lex source = _ from htokens] at h
  obtain hmem | hlast := mem_append.1 h
  · have hlexeme := hcovers.isLexeme token hmem
    rw [hkind] at hlexeme
    exact hlexeme.isLiteral
  · rw [mem_singleton.1 hlast] at hkind
    cases hkind

theorem exists_head?_describe (token : Token) :
    ∃ c, token.describe.toList.head? = some c ∧ c ≠ 'I' := by
  have hkind (kind : Kind) : ∃ c, kind.describe.toList.head? = some c ∧ c ≠ 'I' := by
    unfold Kind.describe
    split
    · exact ⟨_, head?_append (head?_append rfl _) _, by decide⟩
    · split <;> exact ⟨_, rfl, by decide⟩
  unfold describe
  split
  · exact ⟨_, head?_append (head?_append rfl _) _, by decide⟩
  · exact ⟨_, head?_append rfl _, by decide⟩
  · exact ⟨_, head?_append (head?_append rfl _) _, by decide⟩
  · exact hkind _

end Token

theorem ParseError.Cause.eq_invalidNumber {cause : ParseError.Cause}
    (h : "Invalid number literal".toList <+: cause.message.toList) :
    ∃ lexeme, cause = .invalidNumber lexeme := by
  obtain ⟨tail, htail⟩ := h
  have hhead : cause.message.toList.head? = some 'I' := by
    rw [← htail]
    rfl
  have hother {c : Char} (hc : c ≠ 'I') : ¬ cause.message.toList.head? = some c :=
    fun hfirst => hc (Option.some.inj (hfirst.symm.trans hhead))
  cases cause with
  | invalidNumber lexeme => exact ⟨lexeme, rfl⟩
  | invalidTarget =>
    have hninth : ParseError.Cause.invalidTarget.message.toList[8]? = some 'n' := by
      rw [← htail]
      rfl
    exact absurd hninth (by decide +kernel)
  | onlyTopLevel found =>
    obtain ⟨c, hfirst, hc⟩ := found.exists_head?_describe
    exact (hother hc (head?_append hfirst _)).elim
  | noFocus found => exact (hother (c := 'P') (by decide) (head?_append (by decide +kernel) _)).elim
  | unclosed closing =>
    exact (hother (c := 'E') (by decide) (head?_append (head?_append (by decide +kernel) _) _)).elim
  | trailing found =>
    exact (hother (c := 'U') (by decide) (head?_append (head?_append (by decide +kernel) _) _)).elim
  | expected kind context found =>
    exact (hother (c := 'E') (by decide) (head?_append (head?_append
      (head?_append (head?_append (by decide +kernel) _) _) _) _)).elim
  | expectedExpression found | expectedMember found =>
    exact (hother (c := 'E') (by decide) (head?_append (by decide +kernel) _)).elim
  | exhausted => exact absurd hhead (by decide +kernel)

/-- **No text has an invalid number.** The tokens for numbers are digits, perhaps with a dot and
more digits behind them; every such text can be read as a number; and no error of a text says that a
number is invalid. -/
theorem Program.ofText_never_invalidNumber (origin : Origin) (source : String) :
    (∀ token ∈ Token.lex source, token.kind = .number → Number.IsLiteral token.lexeme.toList) ∧
    (∀ text, Number.IsLiteral text → (Number.read? text).isSome = true) ∧
    ∀ e, Program.ofText origin source = .error e →
    ¬ "Invalid number literal".toList <+: e.cause.message.toList := by
  refine ⟨fun _ => Token.isLiteral_of_mem_lex, fun _ =>
    Number.isSome_read?_of_isLiteral, fun e herror hmessage => ?_⟩
  obtain ⟨lexeme, hcause⟩ := ParseError.Cause.eq_invalidNumber hmessage
  have halike : List.Forall₂ (Token.Alike False)
      (Grammar.Tape.of origin (Cursor.closed (Token.lex source))).text _ :=
    Token.Alike.list_of_eq rfl
  obtain ⟨p, hp, -⟩ | ⟨e', _, he', -, -, hfrom⟩ := Grammar.ofTokens_alike halike (.refl _)
  · cases herror.symm.trans hp
  · obtain rfl := Except.error.inj (herror.symm.trans he')
    rw [hcause] at hfrom
    obtain ⟨t, hmem, hkind, rfl, hread⟩ := hfrom
    have hsome := Number.isSome_read?_of_isLiteral
      (Token.isLiteral_of_mem_lex (takeWhile_subset _ hmem) hkind)
    rw [hread] at hsome
    cases hsome

end Trance
