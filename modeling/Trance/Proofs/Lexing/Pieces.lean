import Mathlib.Data.List.Infix
import Mathlib.Data.List.TakeWhile
import Trance.Token.Lexer

/-!
# What pieces can be

A piece of a text is described without the way it is found: a gap is a blank, a comment, or a
character that starts no token, and the text of a token is its lexeme, or a literal between quotes.
What stands behind a piece is part of the description, since it decides where a comment ends and
whether a character starts a token.

Cutting a text always finds such a piece, and a gap that stands at the start of a text is found as
it is. -/

namespace Trance

open List Text

/-! ## Characters -/

namespace Text

theorem Ranges.exists_of_contains {ranges : Ranges} {n : Nat} (h : ranges.contains n = true) :
    ∃ range ∈ ranges, range.1 ≤ n ∧ n ≤ range.2 := by
  induction ranges with
  | nil => simp [Ranges.contains] at h
  | cons range rest ih =>
    simp only [Ranges.contains] at h
    split at h
    · simp at h
    · split at h
      · exact ⟨range, mem_cons_self, by omega, by omega⟩
      · obtain ⟨other, hmem, hbounds⟩ := ih h
        exact ⟨other, mem_cons_of_mem _ hmem, hbounds⟩

/-- The characters that mark the start of a literal or a comment, or go on with an operator. -/
def marks : List Char := ['"', '_', '/', '*', '=', '&', '|', '.']

set_option maxRecDepth 8000 in
theorem blank_points : ∀ range ∈ blanks, ∀ n ∈ range' range.1 (range.2 + 1 - range.1),
    letters.contains n = false ∧ numerals.contains n = false ∧ n ∉ marks.map Char.toNat ∧
      (n < '0'.toNat ∨ '9'.toNat < n) := by
  decide

variable {c : Char}

theorem blank_point (h : isBlank c = true) : letters.contains c.toNat = false ∧
    numerals.contains c.toNat = false ∧
    c.toNat ∉ marks.map Char.toNat ∧ (c.toNat < '0'.toNat ∨ '9'.toNat < c.toNat) := by
  obtain ⟨range, hrange, hlow, hhigh⟩ := Ranges.exists_of_contains h
  exact blank_points range hrange _ (mem_range'_1.2 (by omega))

theorem not_mem_marks_of_isBlank (h : isBlank c = true) : c ∉ marks := by
  intro hmem
  exact (blank_point h).2.2.1 (mem_map_of_mem hmem)

theorem not_isBlank_of_mem_marks (h : c ∈ marks) : ¬isBlank c = true := fun hblank =>
  not_mem_marks_of_isBlank hblank h

theorem isDigit_eq_false_of_isBlank (h : isBlank c = true) : isDigit c = false := by
  have hpoint := (blank_point h).2.2.2
  simp only [isDigit, Bool.and_eq_false_iff, decide_eq_false_iff_not]
  by_contra hdigit
  push Not at hdigit
  have hlow : '0'.toNat ≤ c.toNat := hdigit.1
  have hhigh : c.toNat ≤ '9'.toNat := hdigit.2
  omega

end Text

namespace Token

theorem continuesWord_eq_false_of_isBlank {c : Char} (h : isBlank c = true) :
    continuesWord c = false := by
  have hmarks : c ≠ '_' := fun heq => not_mem_marks_of_isBlank h (heq ▸ by decide)
  simp [continuesWord, isLetter, isNumeral, blank_point h, hmarks]

theorem startsWord_eq_false_of_isBlank {c : Char} (h : isBlank c = true) : startsWord c = false := by
  have hword := continuesWord_eq_false_of_isBlank h
  simp only [continuesWord, Bool.or_eq_false_iff] at hword
  simp [startsWord, hword]

/-! ## Descriptions -/

/-- The kinds and lexemes of tokens: a fixed spelling, a word that is no keyword, a number, or any
contents of a text literal. -/
inductive IsLexeme : Kind → List Char → Prop where
  | fixed {kind spelling} (known : kind.spelling? = some spelling) : IsLexeme kind spelling.toList
  | identifier {c rest} (start : startsWord c = true) (more : ∀ d ∈ rest, continuesWord d = true)
      (free : Kind.keyword? (String.ofList (c :: rest)) = none) : IsLexeme .identifier (c :: rest)
  | whole {digits} (any : digits ≠ []) (all : ∀ d ∈ digits, isDigit d = true) :
      IsLexeme .number digits
  | decimal {digits more} (any : digits ≠ []) (all : ∀ d ∈ digits, isDigit d = true)
      (behind : ∀ d ∈ more, isDigit d = true) : IsLexeme .number (digits ++ '.' :: more)
  | text (contents : List Char) : IsLexeme .text contents

/-- `Escapes c image`: a backslash and `c` stand for `image`. There are five escapes, and every
other pair stands for itself. -/
inductive Escapes : Char → List Char → Prop where
  | lineFeed : Escapes 'n' ['\n']
  | tab : Escapes 't' ['\t']
  | carriageReturn : Escapes 'r' ['\r']
  | quote : Escapes '"' ['"']
  | backslash : Escapes '\\' ['\\']
  | unknown {c} (other : c ∉ ['n', 't', 'r', '"', '\\']) : Escapes c ['\\', c]

/-- `Unescapes body contents`: between two quotes, the text `body` stands for `contents`. It has no
quote that is not escaped, and no lone backslash at its end. -/
inductive Unescapes : List Char → List Char → Prop where
  | nil : Unescapes [] []
  | plain {c body contents} (quote : c ≠ '"') (slash : c ≠ '\\') (rest : Unescapes body contents) :
      Unescapes (c :: body) (c :: contents)
  | escaped {c image body contents} (pair : Escapes c image) (rest : Unescapes body contents) :
      Unescapes ('\\' :: c :: body) (image ++ contents)

/-- `Spells kind lexeme text following`: in front of `following`, a token has this text. A text
literal that is not closed runs to the end, where a last backslash stands for itself; every other
token is its own lexeme. -/
inductive Spells : Kind → List Char → List Char → List Char → Prop where
  | plain {kind lexeme following} (other : kind ≠ .text) : Spells kind lexeme lexeme following
  | closed {body contents following} (inside : Unescapes body contents) :
      Spells .text contents ('"' :: (body ++ ['"'])) following
  | unclosed {body contents} (inside : Unescapes body contents) :
      Spells .text contents ('"' :: body) []
  | dangling {body contents} (inside : Unescapes body contents) :
      Spells .text (contents ++ ['\\']) ('"' :: (body ++ ['\\'])) []

/-- No token starts at the start of a text: no literal, no word, and no fixed spelling. -/
def StartsNoToken (text : List Char) : Prop :=
  (∀ c ∈ text.head?, c ≠ '"' ∧ Text.isDigit c = false ∧ startsWord c = false) ∧
    ∀ kind spelling, Kind.spelling? kind = some spelling → ¬spelling.toList <+: text

/-- `Filler text following`: in front of `following`, a gap of one piece has this text. Only at the
end of everything a block comment need not be closed. -/
inductive Filler : List Char → List Char → Prop where
  | blank {c following} (white : isBlank c = true) : Filler [c] following
  | line {body following} (inside : '\n' ∉ body) (behind : ∀ c ∈ following.head?, c = '\n') :
      Filler ('/' :: '/' :: body) following
  | block {body following} (inside : ¬['*', '/'] <:+: body) :
      Filler ('/' :: '*' :: (body ++ ['*', '/'])) following
  | unclosed {body} (inside : ¬['*', '/'] <:+: body) : Filler ('/' :: '*' :: body) []
  | stray {c following} (none : StartsNoToken (c :: following)) : Filler [c] following

def OpensComment (text : List Char) : Prop := ['/', '/'] <+: text ∨ ['/', '*'] <+: text

/-- A piece is a gap or a token in front of what follows it. A slash that opens a comment is no
token. -/
def Piece.Fits (piece : Piece) (following : List Char) : Prop :=
  match piece.content with
  | none => Filler piece.text following
  | some (kind, lexeme) => IsLexeme kind lexeme ∧ Spells kind lexeme piece.text following ∧
      ¬OpensComment (piece.text ++ following)

variable {c : Char} {kind : Kind} {text rest body contents following : List Char}

theorem IsLexeme.kind_ne_eof (h : IsLexeme kind text) : kind ≠ .eof := by
  rintro rfl
  cases h with
  | fixed known => simp [Kind.spelling?] at known

/-! ## Words and numbers -/

theorem takeWhile_append_of_stop {p : Char → Bool} (inside : ∀ d ∈ text, p d = true)
    (stop : ∀ d ∈ following.head?, p d = false) : (text ++ following).takeWhile p = text := by
  rw [takeWhile_append_of_pos inside]
  cases following with
  | nil => rw [takeWhile_nil, append_nil]
  | cons d following => rw [takeWhile_cons_of_neg (by simp [stop d rfl]), append_nil]

theorem dropWhile_append_of_stop {p : Char → Bool} (inside : ∀ d ∈ text, p d = true)
    (stop : ∀ d ∈ following.head?, p d = false) : (text ++ following).dropWhile p = following := by
  have hsplit := takeWhile_append_dropWhile (p := p) (l := text ++ following)
  rw [takeWhile_append_of_stop inside stop] at hsplit
  exact append_cancel_left hsplit

theorem Kind.spelling?_of_keyword? {word : String} (h : Kind.keyword? word = some kind) :
    kind.spelling? = some word := by
  simpa using find?_some h

theorem isLexeme_word (start : startsWord c = true) (more : ∀ d ∈ rest, continuesWord d = true) :
    IsLexeme ((Kind.keyword? (String.ofList (c :: rest))).getD .identifier) (c :: rest) := by
  cases hword : Kind.keyword? (String.ofList (c :: rest)) with
  | none => exact .identifier start more hword
  | some kind =>
    have hfixed := IsLexeme.fixed (Kind.spelling?_of_keyword? hword)
    rwa [String.toList_ofList] at hfixed

theorem Kind.getD_keyword?_ne_text (word : String) :
    (Kind.keyword? word).getD .identifier ≠ .text := by
  cases hword : Kind.keyword? word with
  | none => simp
  | some kind =>
    have hspelling := Kind.spelling?_of_keyword? hword
    rintro rfl
    simp [Kind.spelling?] at hspelling

theorem isDigit_of_mem_takeWhile : ∀ d ∈ text.takeWhile isDigit, isDigit d = true :=
  fun _ h => mem_takeWhile_imp h

theorem numberText_cases (h : isDigit c = true) (rest : List Char) :
    ∃ text following, rest = text ++ following ∧ numberText (c :: rest) = c :: text ∧
      IsLexeme .number (c :: text) := by
  have hwhole : (c :: rest).takeWhile isDigit = c :: rest.takeWhile isDigit := by simp [h]
  have hsplit := takeWhile_append_dropWhile (p := isDigit) (l := rest)
  have hall : ∀ d ∈ c :: rest.takeWhile isDigit, isDigit d = true :=
    forall_mem_cons.2 ⟨h, isDigit_of_mem_takeWhile⟩
  unfold numberText
  rw [hwhole, dropWhile_cons, if_pos h]
  split
  · rename_i behind hbehind
    refine ⟨rest.takeWhile isDigit ++ '.' :: behind.takeWhile isDigit,
      behind.dropWhile isDigit, ?_, rfl, ?_⟩
    · rw [append_assoc, cons_append, takeWhile_append_dropWhile, ← hbehind, hsplit]
    · exact .decimal (cons_ne_nil _ _) hall isDigit_of_mem_takeWhile
  · exact ⟨_, _, hsplit.symm, rfl, .whole (cons_ne_nil _ _) hall⟩

/-! ## Comments -/

theorem opensComment_cons :
    OpensComment (c :: rest) ↔ c = '/' ∧ (rest.head? = some '/' ∨ rest.head? = some '*') := by
  have hmark : ∀ d, ['/', d] <+: c :: rest ↔ c = '/' ∧ rest.head? = some d := by
    intro d
    rw [cons_prefix_cons]
    cases rest <;> simp [eq_comm]
  rw [OpensComment, hmark, hmark, ← and_or_left]

theorem blockComment_of_closed (h : ¬['*', '/'] <:+: body) (following : List Char) :
    blockComment (body ++ '*' :: '/' :: following) = body ++ ['*', '/'] := by
  fun_induction blockComment body with
  | case1 => rfl
  | case2 => exact absurd (prefix_append ['*', '/'] _).isInfix h
  | case3 c rest hclose ih =>
    rw [infix_cons_iff, not_or] at h
    cases rest with
    | nil => cases following <;> simp [blockComment]
    | cons d rest =>
      rw [cons_append, cons_append, blockComment, ← cons_append, ih h.2]
      · rfl
      · rintro _ rfl hd
        exact hclose rest rfl (by rw [(List.cons.inj hd).1])

theorem blockComment_of_unclosed (h : ¬['*', '/'] <:+: body) : blockComment body = body := by
  fun_induction blockComment body with
  | case1 => rfl
  | case2 => exact absurd (prefix_append ['*', '/'] _).isInfix h
  | case3 c rest _ ih =>
    rw [infix_cons_iff, not_or] at h
    rw [ih h.2]

theorem blockComment_cases (text : List Char) :
    (∃ body following, ¬['*', '/'] <:+: body ∧ text = body ++ '*' :: '/' :: following ∧
      blockComment text = body ++ ['*', '/']) ∨
    ¬['*', '/'] <:+: text ∧ blockComment text = text := by
  fun_induction blockComment text with
  | case1 => exact .inr (by simp)
  | case2 rest => exact .inl ⟨[], rest, by simp, rfl, rfl⟩
  | case3 c rest hopen ih =>
    have hbegins : ¬['*', '/'] <+: c :: rest := by
      rintro ⟨following, hfollowing⟩
      obtain ⟨rfl, rfl⟩ := List.cons.inj hfollowing
      exact hopen following rfl rfl
    obtain ⟨body, following, hbody, rfl, hcomment⟩ | ⟨hrest, hcomment⟩ := ih
    · refine .inl ⟨c :: body, following, ?_, rfl, by rw [hcomment]; rfl⟩
      rw [infix_cons_iff, not_or]
      refine ⟨fun h => hbegins (h.trans ?_), hbody⟩
      exact prefix_append (c :: body) _
    · refine .inr ⟨?_, by rw [hcomment]⟩
      rw [infix_cons_iff, not_or]
      exact ⟨hbegins, hrest⟩

/-! ## Text literals -/

theorem Escapes.eq_escape {image : List Char} (h : Escapes c image) : image = escape c := by
  cases h with
  | unknown other =>
    simp only [mem_cons, not_mem_nil, or_false, not_or] at other
    rw [escape] <;> simp [other]
  | _ => rfl

theorem escapes_escape (c : Char) : Escapes c (escape c) := by
  fun_cases escape c with
  | case1 => exact .lineFeed
  | case2 => exact .tab
  | case3 => exact .carriageReturn
  | case4 => exact .quote
  | case5 => exact .backslash
  | case6 c hn ht hr hquote hslash => exact .unknown (by simpa using ⟨hn, ht, hr, hquote, hslash⟩)

theorem quoted_plain (hquote : c ≠ '"') (hslash : c ≠ '\\') (rest : List Char) :
    quoted (c :: rest) = (c :: (quoted rest).1, c :: (quoted rest).2) := by
  rw [quoted]
  · exact fun h => hquote h
  · exact fun h => absurd h hslash
  · exact fun _ _ h => absurd h hslash

theorem quoted_escaped (c : Char) (rest : List Char) :
    quoted ('\\' :: c :: rest) = ('\\' :: c :: (quoted rest).1, escape c ++ (quoted rest).2) := by
  rw [quoted]

theorem Unescapes.quoted_closed (h : Unescapes body contents) (following : List Char) :
    quoted (body ++ '"' :: following) = (body ++ ['"'], contents) := by
  induction h with
  | nil => rw [nil_append, quoted]; rfl
  | plain quote slash _ ih => rw [cons_append, quoted_plain quote slash, ih]; rfl
  | escaped pair _ ih => rw [cons_append, cons_append, quoted_escaped, ih, pair.eq_escape]; rfl

theorem Unescapes.quoted_unclosed (h : Unescapes body contents) :
    quoted body = (body, contents) := by
  induction h with
  | nil => rw [quoted]
  | plain quote slash _ ih => rw [quoted_plain quote slash, ih]
  | escaped pair _ ih => rw [quoted_escaped, ih, pair.eq_escape]

theorem Unescapes.quoted_dangling (h : Unescapes body contents) :
    quoted (body ++ ['\\']) = (body ++ ['\\'], contents ++ ['\\']) := by
  induction h with
  | nil => rw [nil_append, quoted]
  | plain quote slash _ ih => rw [cons_append, quoted_plain quote slash, ih, cons_append]
  | escaped pair _ ih =>
    rw [cons_append, cons_append, quoted_escaped, ih, append_assoc, pair.eq_escape]

theorem quoted_cases (text : List Char) :
    (∃ body following, text = body ++ '"' :: following ∧ Unescapes body (quoted text).2) ∨
    Unescapes text (quoted text).2 ∨
    ∃ body contents, text = body ++ ['\\'] ∧ (quoted text).2 = contents ++ ['\\'] ∧
      Unescapes body contents := by
  fun_induction quoted text with
  | case1 => exact .inr (.inl .nil)
  | case2 rest => exact .inl ⟨[], rest, rfl, .nil⟩
  | case3 => exact .inr (.inr ⟨[], [], rfl, rfl, .nil⟩)
  | case4 c rest text contents hquoted ih =>
    rw [hquoted] at ih
    obtain ⟨body, following, rfl, h⟩ | h | ⟨body, contents', rfl, hcontents, h⟩ := ih
    · exact .inl ⟨'\\' :: c :: body, following, rfl, .escaped (escapes_escape c) h⟩
    · exact .inr (.inl (.escaped (escapes_escape c) h))
    · obtain rfl : contents = contents' ++ ['\\'] := hcontents
      exact .inr (.inr ⟨'\\' :: c :: body, escape c ++ contents', rfl, by simp,
        .escaped (escapes_escape c) h⟩)
  | case5 c rest hquote hend hslash text contents hquoted ih =>
    rw [hquoted] at ih
    have hplain : c ≠ '\\' := by
      rintro rfl
      cases rest with
      | nil => exact hend rfl rfl
      | cons d rest => exact hslash d rest rfl rfl
    obtain ⟨body, following, rfl, h⟩ | h | ⟨body, contents', rfl, hcontents, h⟩ := ih
    · exact .inl ⟨c :: body, following, rfl, .plain hquote hplain h⟩
    · exact .inr (.inl (.plain hquote hplain h))
    · obtain rfl : contents = contents' ++ ['\\'] := hcontents
      exact .inr (.inr ⟨c :: body, c :: contents', rfl, rfl, .plain hquote hplain h⟩)

/-! ## Operators -/

/-- Whether a text starts with a character that makes a token, alone or with the next one. -/
def leads : List Char → Bool
  | [] => false
  | c :: rest => startsWord c || (comparison? c).isSome || (single? c).isSome ||
      (doubled? c).isSome && rest.head? == some c

theorem Kind.leads_spelling {spelling : String} (h : kind.spelling? = some spelling) :
    leads spelling.toList = true := by
  cases kind <;> cases h <;> rfl

theorem spelling?_of_comparison? {alone withEquals : Kind}
    (h : comparison? c = some (alone, withEquals)) :
    alone.spelling? = some (String.ofList [c]) ∧
    withEquals.spelling? = some (String.ofList [c, '=']) := by
  unfold comparison? at h
  split at h <;> cases h <;> exact ⟨rfl, rfl⟩

theorem spelling?_of_doubled? (h : doubled? c = some kind) :
    kind.spelling? = some (String.ofList [c, c]) := by
  unfold doubled? at h
  split at h <;> cases h <;> rfl

theorem spelling?_of_single? (h : single? c = some kind) :
    kind.spelling? = some (String.ofList [c]) := by
  unfold single? at h
  split at h <;> cases h <;> rfl

theorem startsNoToken_of_leads (hquote : c ≠ '"') (hdigit : Text.isDigit c = false)
    (hleads : leads (c :: rest) = false) : StartsNoToken (c :: rest) := by
  simp only [leads, Bool.or_eq_false_iff] at hleads
  refine ⟨by simp [hquote, hdigit, hleads], ?_⟩
  intro kind spelling hspelling hbegins
  have hlead := Kind.leads_spelling hspelling
  obtain hnil | ⟨text, htext, hrest⟩ := prefix_cons_iff.1 hbegins
  · simp [hnil, leads] at hlead
  · cases text with
    | nil => simp_all [leads]
    | cons d text =>
      obtain ⟨following, rfl⟩ := hrest
      simp_all [leads]

theorem symbol_cases
    (hquote : c ≠ '"') (hdigit : Text.isDigit c = false) (hword : startsWord c = false)
    (rest : List Char) :
    (symbol c rest = Piece.gap [c] ∧ StartsNoToken (c :: rest)) ∨
    ∃ kind text following, rest = text ++ following ∧ symbol c rest = Piece.plain kind (c :: text) ∧
      kind.spelling? = some (String.ofList (c :: text)) := by
  unfold symbol
  cases hcomparison : comparison? c with
  | some kinds =>
    obtain ⟨halone, hequals⟩ := spelling?_of_comparison? hcomparison
    by_cases hnext : rest.head? = some '='
    · obtain ⟨following, rfl⟩ := head?_eq_some_iff.1 hnext
      exact .inr ⟨kinds.2, ['='], following, rfl, if_pos hnext, hequals⟩
    · exact .inr ⟨kinds.1, [], rest, rfl, if_neg hnext, halone⟩
  | none =>
    cases hdoubled : doubled? c with
    | some kind =>
      by_cases hnext : rest.head? = some c
      · obtain ⟨following, rfl⟩ := head?_eq_some_iff.1 hnext
        exact .inr ⟨kind, [c], following, rfl, if_pos hnext, spelling?_of_doubled? hdoubled⟩
      · have hsingle : single? c = none := by
          unfold doubled? at hdoubled
          split at hdoubled <;> simp_all [single?]
        refine .inl ⟨if_neg hnext, startsNoToken_of_leads hquote hdigit ?_⟩
        simp [leads, hword, hcomparison, hsingle, hnext]
    | none =>
      cases hsingle : single? c with
      | some kind => exact .inr ⟨kind, [], rest, rfl, rfl, spelling?_of_single? hsingle⟩
      | none =>
        refine .inl ⟨rfl, startsNoToken_of_leads hquote hdigit ?_⟩
        simp [leads, hword, hcomparison, hdoubled, hsingle]

/-! ## The first piece -/

theorem pieces_append {piece : Piece} (text : List Char)
    (h : Piece.first c (text ++ following) = piece)
    (htext : piece.text = c :: text) :
    pieces (c :: text ++ following) = piece :: pieces following := by
  rw [cons_append, pieces, h, htext]
  simp

theorem startsWord_eq_false_of_isDigit (h : isDigit c = true) : startsWord c = false := by
  have hdigits : ∀ n ∈ range' '0'.toNat 10, letters.contains n = false := by decide
  simp only [isDigit, Bool.and_eq_true, decide_eq_true_eq] at h
  have hlow : '0'.toNat ≤ c.toNat := h.1
  have hhigh : c.toNat ≤ '9'.toNat := h.2
  have hbound : '9'.toNat < '0'.toNat + 10 := by decide
  have hletter : isLetter c = false := hdigits c.toNat (mem_range'_1.2 ⟨hlow, by omega⟩)
  have hline : c ≠ '_' := fun heq => by simp [heq] at hhigh
  simp [startsWord, hletter, hline]

theorem first_blank (h : isBlank c = true) (rest : List Char) :
    Piece.first c rest = Piece.gap [c] := by
  rw [Piece.first, if_pos h]

theorem first_lineComment (rest : List Char) :
    Piece.first '/' ('/' :: rest) = Piece.gap ('/' :: '/' :: lineComment rest) := by
  rw [Piece.first, if_neg (not_isBlank_of_mem_marks (by decide)), if_pos (by simp)]
  simp [lineComment]

theorem first_blockComment (rest : List Char) :
    Piece.first '/' ('*' :: rest) = Piece.gap ('/' :: '*' :: blockComment rest) := by
  rw [Piece.first, if_neg (not_isBlank_of_mem_marks (by decide)), if_neg (by simp), if_pos (by simp)]
  rfl

theorem first_quote (rest : List Char) :
    Piece.first '"' rest = ⟨'"' :: (quoted rest).1, some (.text, (quoted rest).2)⟩ := by
  rw [Piece.first, if_neg (not_isBlank_of_mem_marks (by decide)), if_neg (by simp),
    if_neg (by simp), if_pos rfl]

theorem first_digit (h : isDigit c = true) (rest : List Char) :
    Piece.first c rest = Piece.plain .number (numberText (c :: rest)) := by
  have hblank : ¬isBlank c = true := fun hblank => by
    simp [isDigit_eq_false_of_isBlank hblank] at h
  have hslash : c ≠ '/' := fun heq => by simp [heq, isDigit] at h
  have hquote : c ≠ '"' := fun heq => by simp [heq, Text.isDigit] at h
  rw [Piece.first, if_neg hblank, if_neg
    (by simp [hslash]), if_neg (by simp [hslash]), if_neg hquote, if_pos h]

theorem first_word (h : startsWord c = true) (rest : List Char) :
    Piece.first c rest = word (c :: rest.takeWhile continuesWord) := by
  have hblank : ¬isBlank c = true := fun hblank => by
    simp [startsWord_eq_false_of_isBlank hblank] at h
  have hdigit : ¬isDigit c = true := fun hdigit => by
    simp [startsWord_eq_false_of_isDigit hdigit] at h
  have hslash : c ≠ '/' := by rintro rfl; cases h
  have hquote : c ≠ '"' := by rintro rfl; cases h
  rw [Piece.first, if_neg hblank, if_neg (by simp [hslash]), if_neg (by simp [hslash]),
    if_neg hquote, if_neg hdigit, if_pos h]

theorem first_symbol (hblank : isBlank c = false) (hcomment : ¬OpensComment (c :: rest))
    (hquote : c ≠ '"') (hdigit : Text.isDigit c = false) (hword : startsWord c = false) :
    Piece.first c rest = symbol c rest := by
  rw [opensComment_cons, not_and, not_or] at hcomment
  rw [Piece.first, if_neg (by simp [hblank]), if_neg (by simpa using fun h => (hcomment h).1),
    if_neg (by simpa using fun h => (hcomment h).2), if_neg hquote, if_neg (by simp [hdigit]),
    if_neg (by simp [hword])]

theorem fits_of_opensComment (h : OpensComment (c :: rest)) :
    ∃ text following, rest = text ++ following ∧ Piece.first c rest = Piece.gap (c :: text) ∧
      Filler (c :: text) following := by
  obtain ⟨rest', heq⟩ | ⟨rest', heq⟩ := h <;> obtain ⟨rfl, rfl⟩ := List.cons.inj heq
  · refine ⟨'/' :: lineComment rest', rest'.dropWhile (· ≠ '\n'), ?_, first_lineComment rest', ?_⟩
    · simp [lineComment, takeWhile_append_dropWhile]
    · refine .line (fun hmem => ?_) fun c hc => ?_
      · simpa using mem_takeWhile_imp hmem
      · have hhead := head?_dropWhile_not (· ≠ '\n') rest'
        rw [Option.mem_def.1 hc] at hhead
        simpa using hhead
  · obtain ⟨body, following, hbody, rfl, hcomment⟩ | ⟨hbody, hcomment⟩ := blockComment_cases rest'
    · refine ⟨'*' :: (body ++ ['*', '/']), following, by simp, ?_, .block hbody⟩
      rw [← hcomment]
      exact first_blockComment _
    · refine ⟨'*' :: rest', [], by simp, ?_, .unclosed hbody⟩
      conv_rhs => rw [← hcomment]
      exact first_blockComment rest'

theorem fits_of_quote (rest : List Char) : ∃ text following, rest = text ++ following ∧
    (quoted rest).1 = text ∧ Spells .text (quoted rest).2 ('"' :: text) following := by
  obtain ⟨body, following, rfl, h⟩ | h | ⟨body, contents, rfl, hcontents, h⟩ := quoted_cases rest
  · rw [h.quoted_closed]
    exact ⟨body ++ ['"'], following, by simp, rfl, .closed (h.quoted_closed following ▸ h)⟩
  · exact ⟨rest, [], by simp, by rw [h.quoted_unclosed], .unclosed h⟩
  · rw [h.quoted_dangling]
    exact ⟨body ++ ['\\'], [], by simp, rfl, .dangling h⟩

/-- **Every piece is a gap or the text of a token**, in front of what follows it. -/
theorem Piece.first_fits (c : Char) (rest : List Char) :
    ∃ text following, rest = text ++ following ∧ (Piece.first c rest).text = c :: text ∧
      (Piece.first c rest).Fits following := by
  by_cases hblank : isBlank c = true
  · rw [first_blank hblank]
    exact ⟨[], rest, rfl, rfl, .blank hblank⟩
  by_cases hcomment : OpensComment (c :: rest)
  · obtain ⟨text, following, hrest, hfirst, hfiller⟩ := fits_of_opensComment hcomment
    rw [hfirst]
    exact ⟨text, following, hrest, rfl, hfiller⟩
  by_cases hquote : c = '"'
  · subst hquote
    obtain ⟨text, following, hrest, htext, hspells⟩ := fits_of_quote rest
    rw [first_quote, htext]
    exact ⟨text, following, hrest, rfl, .text _, hspells, hrest ▸ hcomment⟩
  by_cases hdigit : Text.isDigit c = true
  · obtain ⟨text, following, hrest, htext, hlexeme⟩ := numberText_cases hdigit rest
    rw [first_digit hdigit, htext]
    exact ⟨text, following, hrest, rfl, hlexeme, .plain (by simp), by subst hrest; exact hcomment⟩
  by_cases hword : startsWord c = true
  · have hrest := takeWhile_append_dropWhile (p := continuesWord) (l := rest)
    rw [first_word hword]
    refine ⟨_, _, hrest.symm, rfl, isLexeme_word hword ?_, .plain (Kind.getD_keyword?_ne_text _), ?_⟩
    · exact fun _ hmem => mem_takeWhile_imp hmem
    · have hwhole : c :: rest.takeWhile continuesWord ++ rest.dropWhile continuesWord = c ::
          rest := by
        rw [cons_append, hrest]
      exact hwhole ▸ hcomment
  · simp only [Bool.not_eq_true] at hblank hdigit hword
    rw [first_symbol hblank hcomment hquote hdigit hword]
    obtain ⟨hgap, hnone⟩ | ⟨kind, text, following, hrest, hplain, hspelling⟩ :=
      symbol_cases hquote hdigit hword rest
    · rw [hgap]
      exact ⟨[], rest, rfl, rfl, .stray hnone⟩
    · rw [hplain]
      have hlexeme := IsLexeme.fixed hspelling
      rw [String.toList_ofList] at hlexeme
      refine ⟨text, following, hrest, rfl, hlexeme, .plain ?_, by subst hrest; exact hcomment⟩
      rintro rfl
      simp [Kind.spelling?] at hspelling

theorem first_stray (h : StartsNoToken (c :: rest)) : Piece.first c rest = Piece.gap [c] := by
  by_cases hblank : isBlank c = true
  · exact first_blank hblank rest
  obtain ⟨hquote, hdigit, hword⟩ := h.1 c rfl
  have hcomment : ¬OpensComment (c :: rest) := by
    -- The slash that opens a comment would be the fixed spelling of an operator.
    rintro (hopen | hopen) <;>
      exact h.2 .slash "/" rfl (List.IsPrefix.trans (by decide : "/".toList <+: _) hopen)
  rw [first_symbol (by simpa using hblank) hcomment hquote hdigit hword]
  obtain ⟨hgap, -⟩ | ⟨kind, text, following, rfl, -, hspelling⟩ :=
    symbol_cases hquote hdigit hword rest
  · exact hgap
  · refine absurd ?_ (h.2 kind _ hspelling)
    rw [String.toList_ofList]
    exact prefix_append (c :: text) following

theorem Filler.pieces_eq (h : Filler text following) :
    pieces (text ++ following) = Piece.gap text :: pieces following := by
  cases h with
  | blank white => exact pieces_append [] (first_blank white following) rfl
  | @line body _ inside behind =>
    have hline : lineComment (body ++ following) = body :=
      takeWhile_append_of_stop (fun d hd => decide_eq_true fun heq => inside (heq ▸ hd))
        fun d hd => by simp [behind d hd]
    refine pieces_append _ ?_ rfl
    rw [cons_append, first_lineComment, hline]
  | @block body _ inside =>
    have hblock := blockComment_of_closed inside following
    refine pieces_append _ ?_ rfl
    rw [cons_append, append_assoc, first_blockComment, ← hblock]
    rfl
  | @unclosed body inside =>
    refine pieces_append _ ?_ rfl
    rw [cons_append, append_nil, first_blockComment, blockComment_of_unclosed inside]
  | stray none => exact pieces_append [] (first_stray none) rfl

end Token

end Trance
