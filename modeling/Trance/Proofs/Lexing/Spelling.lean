import Trance.Proofs.Lexing.Pieces

/-!
# Reading a spelled text back

Tokens are spelled one after the other: a text literal between quotes, with the characters escaped
that would end it or break its line, and everything else as its lexeme. What separates two of them
starts with a blank and goes on with blanks and comments in any mix. A text that is spelled so is
read back as the same tokens, whatever separates them.

The blank is what ends every token at its last character: it continues no word, no number and no
operator, and it opens no comment behind a slash.
-/

namespace Trance.Token

open List Text

/-! ## What is spelled -/

/-- A token without its position. -/
structure Item where
  kind : Kind
  lexeme : List Char
  fits : IsLexeme kind lexeme

/-- A character in a text literal, escaped where it has to be. -/
def spellChar : Char → List Char
  | '\\' => ['\\', '\\']
  | '"' => ['\\', '"']
  | '\n' => ['\\', 'n']
  | '\t' => ['\\', 't']
  | '\r' => ['\\', 'r']
  | c => [c]

def Item.spelling (item : Item) : List Char :=
  if item.kind = .text then '"' :: (item.lexeme.flatMap spellChar ++ ['"']) else item.lexeme

def Item.piece (item : Item) : Piece := ⟨item.spelling, some (item.kind, item.lexeme)⟩

/-- A part of what stands between tokens: a blank, a block comment that is closed, or a line comment
with the line feed that ends it. -/
inductive Padding where
  | blank (c : Char) (white : isBlank c = true)
  | block (body : List Char) (inside : ¬['*', '/'] <:+: body)
  | line (body : List Char) (inside : '\n' ∉ body)

def Padding.text : Padding → List Char
  | blank c _ => [c]
  | block body _ => '/' :: '*' :: (body ++ ['*', '/'])
  | line body _ => '/' :: '/' :: (body ++ ['\n'])

/-- What separates two tokens: a blank, and any mix of parts behind it. -/
structure Separator where
  first : Char
  white : isBlank first = true
  more : List Padding

def Separator.text (separator : Separator) : List Char :=
  separator.first :: separator.more.flatMap Padding.text

/-- The text of items, with separators between them: the first two are separated by `between 0`. -/
def spell (between : Nat → Separator) : List Item → List Char
  | [] => []
  | [item] => item.spelling
  | item :: next :: rest =>
    item.spelling ++ ((between 0).text ++ spell (fun i => between (i + 1)) (next :: rest))

variable {c : Char} {kind : Kind} {text following : List Char}

/-! ## What stands between tokens -/

def contents (text : List Char) : List (Kind × List Char) :=
  (pieces text).filterMap Piece.content

theorem contents_nil : contents [] = [] := by simp [contents, pieces]

theorem Filler.contents_eq (h : Filler text following) :
    contents (text ++ following) = contents following := by
  simp [contents, h.pieces_eq, Piece.gap]

theorem Padding.contents_eq (padding : Padding) (following : List Char) :
    contents (padding.text ++ following) = contents following := by
  cases padding with
  | blank c white => exact (Filler.blank white).contents_eq
  | block body inside => exact (Filler.block inside).contents_eq
  | line body inside =>
    -- The line feed is no part of the comment, but a blank behind it.
    have hcomment : Filler ('/' :: '/' :: body) ('\n' :: following) := .line inside (by simp)
    have hfeed : Filler ['\n'] following := .blank rfl
    rw [Padding.text, cons_append, cons_append, append_assoc]
    exact hcomment.contents_eq.trans hfeed.contents_eq

theorem contents_flatMap_padding (parts : List Padding) (following : List Char) :
    contents (parts.flatMap Padding.text ++ following) = contents following := by
  induction parts with
  | nil => rfl
  | cons part parts ih => rw [flatMap_cons, append_assoc, part.contents_eq, ih]

theorem Separator.contents_eq (separator : Separator) (following : List Char) :
    contents (separator.text ++ following) = contents following :=
  (Filler.blank separator.white).contents_eq.trans
    (contents_flatMap_padding separator.more following)

/-! ## Tokens in front of a blank -/

def Apart (text : List Char) : Prop := ∀ c ∈ text.head?, isBlank c = true

theorem Apart.nil : Apart [] := by simp [Apart]

theorem Separator.apart (separator : Separator) (following : List Char) :
    Apart (separator.text ++ following) := by
  simpa [Apart, Separator.text] using separator.white

theorem Apart.head?_ne (h : Apart following) (hmark : c ∈ marks) : following.head? ≠ some c :=
  fun hhead => not_mem_marks_of_isBlank (h c hhead) hmark

theorem pieces_word (start : startsWord c = true) (more : ∀ d ∈ text, continuesWord d = true)
    (h : Apart following) : pieces (c :: text ++ following) = word (c :: text) ::
      pieces following := by
  refine pieces_append _ ?_ rfl
  have hstop : (text ++ following).takeWhile continuesWord = text :=
    takeWhile_append_of_stop more fun d hd => continuesWord_eq_false_of_isBlank (h d hd)
  rw [first_word start, hstop]

theorem numberText_of_isLexeme (hlexeme : IsLexeme .number text) (h : Apart following) :
    numberText (text ++ following) = text := by
  have hstop : ∀ d ∈ following.head?, isDigit d = false :=
    fun d hd => isDigit_eq_false_of_isBlank (h d hd)
  cases hlexeme with
  | fixed known => simp [Kind.spelling?] at known
  | whole any all =>
    rw [numberText, takeWhile_append_of_stop all hstop, dropWhile_append_of_stop all hstop]
    split
    · exact absurd rfl (h.head?_ne (by decide))
    · rfl
  | @decimal digits more any all behind =>
    have hdot : ∀ d ∈ ('.' :: (more ++ following)).head?, isDigit d = false := by simp [isDigit]
    rw [numberText, append_assoc, cons_append, takeWhile_append_of_stop all hdot,
      dropWhile_append_of_stop all hdot]
    show digits ++ '.' :: (more ++ following).takeWhile isDigit = _
    rw [takeWhile_append_of_stop behind hstop]

theorem pieces_number (hlexeme : IsLexeme .number text) (h : Apart following) :
    pieces (text ++ following) = Piece.plain .number text :: pieces following := by
  obtain ⟨c, rest, rfl, hdigit⟩ : ∃ c rest, text = c :: rest ∧ isDigit c = true := by
    cases hlexeme with
    | fixed known => simp [Kind.spelling?] at known
    | @whole digits any all =>
      obtain ⟨c, rest, rfl⟩ := exists_cons_of_ne_nil any
      exact ⟨c, rest, rfl, all c mem_cons_self⟩
    | @decimal digits more any all behind =>
      obtain ⟨c, rest, rfl⟩ := exists_cons_of_ne_nil any
      exact ⟨c, rest ++ '.' :: more, rfl, all c mem_cons_self⟩
  refine pieces_append _ ?_ rfl
  rw [first_digit hdigit, ← cons_append, numberText_of_isLexeme hlexeme h]

theorem Kind.keywords_spelled_as_words : ∀ kind ∈ keywords, ∀ spelling ∈ kind.spelling?,
    spelling.toList.head?.any startsWord = true ∧ spelling.toList.tail.all continuesWord = true ∧
      keyword? spelling = some kind := by
  decide

theorem Kind.symbol_spelling (hkind : kind ∉ keywords) : ∀ spelling ∈ kind.spelling?,
    ∃ c text, spelling.toList = c :: text ∧ isBlank c = false ∧ c ≠ '"' ∧ Text.isDigit c = false ∧
      startsWord c = false ∧ (c = '/' → text = []) ∧
      symbol c text = Piece.plain kind (c :: text) := by
  intro spelling h
  cases kind <;> simp [keywords] at hkind <;> cases h <;>
    exact ⟨_, _, rfl, rfl, by decide, by decide, rfl, by decide, rfl⟩

theorem symbol_append (text : List Char) (h : Apart following) :
    symbol c (text ++ following) = symbol c text := by
  have hhead : ∀ d ∈ marks, ((text ++ following).head? = some d ↔ text.head? = some d) := by
    intro d hd
    cases text with
    | nil => simpa using h.head?_ne hd
    | cons e text => simp
  unfold symbol
  cases hcomparison : comparison? c with
  | some kinds => simp only [hhead '=' (by decide)]
  | none =>
    cases hdoubled : doubled? c with
    | some kind =>
      have hmark : c ∈ marks := by
        unfold doubled? at hdoubled
        split at hdoubled
        · decide
        · decide
        · cases hdoubled
      simp only [hhead c hmark]
    | none => rfl

theorem pieces_fixed {spelling : String} (known : kind.spelling? = some spelling)
    (h : Apart following) :
    pieces (spelling.toList ++ following) = Piece.plain kind spelling.toList ::
      pieces following := by
  by_cases hkind : kind ∈ Kind.keywords
  · obtain ⟨hstart, hmore, hkeyword⟩ := Kind.keywords_spelled_as_words kind hkind spelling known
    obtain ⟨c, hc, hstart⟩ := (Option.any_eq_true _ _).1 hstart
    obtain ⟨text, htext⟩ := head?_eq_some_iff.1 hc
    rw [htext, tail_cons, all_eq_true] at hmore
    rw [htext, pieces_word hstart hmore h, word, ← htext, String.ofList_toList, hkeyword]
    rfl
  · obtain ⟨c, text, htext, hblank, hquote, hdigit, hword, hslash, hsymbol⟩ :=
      Kind.symbol_spelling hkind spelling known
    have hcomment : ¬OpensComment (c :: (text ++ following)) := by
      rw [opensComment_cons, not_and, not_or]
      intro hc
      rw [hslash hc, nil_append]
      exact ⟨h.head?_ne (by decide), h.head?_ne (by decide)⟩
    rw [htext]
    exact pieces_append _ ((first_symbol hblank hcomment hquote hdigit hword).trans
      ((symbol_append text h).trans hsymbol)) rfl

theorem unescapes_flatMap_spellChar (contents : List Char) :
    Unescapes (contents.flatMap spellChar) contents := by
  induction contents with
  | nil => exact .nil
  | cons c contents ih =>
    rw [flatMap_cons]
    unfold spellChar
    split
    · exact .escaped .backslash ih
    · exact .escaped .quote ih
    · exact .escaped .lineFeed ih
    · exact .escaped .tab ih
    · exact .escaped .carriageReturn ih
    · rename_i hslash hquote _ _ _
      exact .plain hquote hslash ih

/-- **An item in front of a blank** is cut off as it was spelled. -/
theorem Item.pieces_eq (item : Item) (h : Apart following) :
    pieces (item.spelling ++ following) = item.piece :: pieces following := by
  obtain ⟨kind, lexeme, fits⟩ := item
  unfold Item.piece Item.spelling
  by_cases hkind : kind = .text
  · subst hkind
    simp only [if_pos]
    refine pieces_append _ ?_ rfl
    rw [first_quote, append_assoc, singleton_append, (unescapes_flatMap_spellChar _).quoted_closed]
  · simp only [if_neg hkind]
    cases fits with
    | fixed known => exact pieces_fixed known h
    | identifier start more free => rw [pieces_word start more h, word, free]; rfl
    | whole any all => exact pieces_number (.whole any all) h
    | decimal any all behind => exact pieces_number (.decimal any all behind) h
    | text => exact absurd rfl hkind

theorem Item.contents_eq (item : Item) (h : Apart following) :
    contents (item.spelling ++ following) = (item.kind, item.lexeme) :: contents following := by
  simp [contents, item.pieces_eq h, Item.piece]

/-! ## Reading back -/

theorem contents_spell (between : Nat → Separator) (items : List Item) (h : Apart following) :
    contents (spell between items ++ following) =
      items.map (fun item => (item.kind, item.lexeme)) ++ contents following := by
  fun_induction spell between items with
  | case1 => rfl
  | case2 between item => exact item.contents_eq h
  | case3 between item next rest ih =>
    rw [append_assoc, append_assoc, item.contents_eq
      ((between 0).apart _), (between 0).contents_eq, ih]
    rfl

theorem map_tokensFrom (loc : Location) (cut : List Piece) :
    (tokensFrom loc cut).map (fun token => (token.kind, token.lexeme)) =
      (cut.filterMap Piece.content).map (fun content => (content.1, String.ofList content.2)) ++
        [(Kind.eof, "")] := by
  fun_induction tokensFrom loc cut with
  | case1 => rfl
  | case2 loc piece rest following kind lexeme hcontent ih =>
    rw [filterMap_cons_some hcontent, map_cons, map_cons, ih]
    rfl
  | case3 loc piece rest following hcontent ih =>
    rw [filterMap_cons_none hcontent, ih]

/-- **Reading undoes spelling**: a text that is spelled from tokens, with any separators between
them, is read as these tokens in order and the end marker. Blanks and comments may stand before the
first token too, and a separator behind the last. -/
theorem lex_spell (lead : List Padding) (between : Nat → Separator) (trail : Option Separator)
    (items : List Item) : (lex (String.ofList (lead.flatMap Padding.text ++ spell between items ++
        trail.elim [] Separator.text))).map (fun token => (token.kind, token.lexeme)) =
      items.map (fun item => (item.kind, String.ofList item.lexeme)) ++ [(Kind.eof, "")] := by
  have htrail : Apart (trail.elim [] Separator.text) ∧
      contents (trail.elim [] Separator.text) = [] := by
    cases trail with
    | none => exact ⟨.nil, contents_nil⟩
    | some separator =>
      rw [Option.elim_some, ← append_nil separator.text, separator.contents_eq]
      exact ⟨separator.apart [], contents_nil⟩
  rw [lex, String.toList_ofList, map_tokensFrom, ← contents, append_assoc,
    contents_flatMap_padding, contents_spell between items htrail.1, htrail.2, append_nil,
    map_map]
  rfl

end Trance.Token
