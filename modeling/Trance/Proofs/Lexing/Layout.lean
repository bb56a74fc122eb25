import Trance.Proofs.Lexing.Pieces

/-!
# How the tokens of a text cover it

The tokens of a text account for all of it: the text is a gap, the text of the first token, a gap,
the text of the second token, and so on to a last gap. The position of a token says how many lines
end before its text, and how many characters stand before it on its line; the end marker has the
position behind everything.

There is one such layout. It is found from the positions alone, since no two places of a text have
the same position. Without them a slash has to be kept from being a token where it opens a comment:
`//*` on one line and `/ /**/` on the next is a slash between two comments, and its first character
could be taken for that slash otherwise, with a block comment behind it. -/

namespace Trance

open List Location

/-! ## Positions -/

namespace Location

/-- The position behind a text: the line is counted by line feeds, and the column by the characters
behind the last of them. -/
def behind (text : List Char) : Location :=
  ⟨1 + text.count '\n', 1 + (text.reverse.takeWhile (· ≠ '\n')).length⟩

theorem behind_concat (text : List Char) (c : Char) :
    behind (text ++ [c]) = (behind text).next c := by
  by_cases h : c = '\n' <;> simp [behind, next, h, Nat.add_comm]

theorem behind_append (before text : List Char) :
    behind (before ++ text) = (behind before).after text := by
  induction text generalizing before with
  | nil => simp
  | cons c text ih => rw [append_cons, ih, behind_concat, after_cons]

theorem line_after (loc : Location) (text : List Char) :
    (loc.after text).line = loc.line + text.count '\n' := by
  induction text generalizing loc with
  | nil => simp
  | cons c text ih =>
    rw [after_cons, ih]
    by_cases h : c = '\n'
    · simp [next, h]; omega
    · simp [next, h]

variable {text : List Char}

theorem column_after (loc : Location) (h : '\n' ∉ text) :
    (loc.after text).column = loc.column + text.length := by
  induction text generalizing loc with
  | nil => simp
  | cons c text ih =>
    rw [mem_cons, not_or] at h
    rw [after_cons, ih _ h.2, next, if_neg (Ne.symm h.1), length_cons, Nat.add_assoc, Nat.add_comm 1]

theorem eq_nil_of_after_eq {loc : Location} (h : loc.after text = loc) : text = [] := by
  have hline := line_after loc text
  rw [h] at hline
  have hcolumn := column_after loc (count_eq_zero.1 (by omega : text.count '\n' = 0))
  rw [h] at hcolumn
  exact eq_nil_of_length_eq_zero (by omega)

theorem eq_of_behind_eq {before text' rest rest' : List Char}
    (hwhole : text ++ rest = text' ++ rest')
    (h : behind (before ++ text) = behind (before ++ text')) : text = text' := by
  rw [behind_append, behind_append] at h
  obtain ⟨more, rfl, -⟩ | ⟨more, rfl, -⟩ := append_eq_append_iff.1 hwhole
  · rw [after_append] at h
    rw [eq_nil_of_after_eq h.symm, append_nil]
  · rw [after_append] at h
    rw [eq_nil_of_after_eq h, append_nil]

end Location

namespace Token

/-! ## Layouts -/

/-- Gaps and texts of tokens in turn; the last is a gap, and any gap can be empty. -/
inductive Layout where
  | last (gap : List Char)
  | next (gap text : List Char) (rest : Layout)

/-- A gap is made of blanks, comments and characters that start no token, in front of what follows.
-/
inductive Gap : List Char → List Char → Prop where
  | nil {following} : Gap [] following
  | cons {text gap following} (first : Filler text (gap ++ following)) (rest : Gap gap following) :
      Gap (text ++ gap) following

namespace Layout

def whole : Layout → List Char
  | last gap => gap
  | next gap text rest => gap ++ (text ++ rest.whole)

/-- What stands before the text of each token, if `before` stands before everything. -/
def fronts (before : List Char) : Layout → List (List Char)
  | last _ => []
  | next gap text rest => (before ++ gap) :: rest.fronts (before ++ gap ++ text)

/-- The gaps are gaps, and the texts are those of the tokens in order. -/
inductive Covers : List Token → Layout → Prop where
  | last {gap} (between : Gap gap []) : Covers [] (last gap)
  | next {gap text rest token tokens} (between : Gap gap (text ++ rest.whole))
      (lexeme : IsLexeme token.kind token.lexeme.toList)
      (spelled : Spells token.kind token.lexeme.toList text rest.whole) (more : Covers tokens rest) :
      Covers (token :: tokens) (next gap text rest)

/-- Each token says where its text starts. -/
def Located (before : List Char) (tokens : List Token) (layout : Layout) : Prop :=
  tokens.map Token.location = (layout.fronts before).map behind

/-- No text of a token opens a comment together with what stands behind it. -/
def Uncommented : Layout → Prop
  | last _ => True
  | next _ text rest => ¬OpensComment (text ++ rest.whole) ∧ rest.Uncommented

def pad (front : List Char) : Layout → Layout
  | last gap => last (front ++ gap)
  | next gap text rest => next (front ++ gap) text rest

end Layout

variable {c : Char} {kind : Kind} {lexeme text text' following following' before : List Char}
  {tokens : List Token} {layout other : Layout}

/-! ## The texts of tokens -/

theorem Spells.text_eq (h : Spells kind lexeme text following)
    (h' : Spells kind lexeme text' following')
    (hwhole : text ++ following = text' ++ following') : text = text' := by
  -- Reading the literal gives its text back, so it is determined by the whole.
  have hquoted : ∀ {text following}, Spells .text lexeme text following →
      ∃ body, text = '"' :: body ∧ (quoted (body ++ following)).1 = body := by
    intro text following h
    cases h with
    | plain other => exact absurd rfl other
    | closed inside => exact ⟨_, rfl, by rw [append_assoc, singleton_append, inside.quoted_closed]⟩
    | unclosed inside => exact ⟨_, rfl, by rw [append_nil, inside.quoted_unclosed]⟩
    | dangling inside => exact ⟨_, rfl, by rw [append_nil, inside.quoted_dangling]⟩
  by_cases hkind : kind = .text
  · subst hkind
    obtain ⟨body, rfl, hbody⟩ := hquoted h
    obtain ⟨body', rfl, hbody'⟩ := hquoted h'
    have hrest : body ++ following = body' ++ following' := (List.cons.inj hwhole).2
    rw [← hbody, ← hbody', hrest]
  · cases h with
    | plain =>
      cases h' with
      | plain => rfl
      | closed | unclosed | dangling => exact absurd rfl hkind
    | closed | unclosed | dangling => exact absurd rfl hkind

theorem Kind.spelling_starts {spelling : String} (h : kind.spelling? = some spelling) :
    ∃ c ∈ spelling.toList.head?, Text.isBlank c = false := by
  have hstart : (spelling.toList.head?.any fun c => !Text.isBlank c) = true := by
    cases kind <;> cases h <;> rfl
  simpa [Option.any_eq_true] using hstart

theorem Spells.start (h : Spells kind lexeme text following) (hlexeme : IsLexeme kind lexeme) :
    ∃ c rest, text = c :: rest ∧ Text.isBlank c = false ∧ ¬StartsNoToken (text ++ following) := by
  have hquote : ∀ rest, ∃ c rest', '"' :: rest = c :: rest' ∧ Text.isBlank c = false ∧
      ¬StartsNoToken ('"' :: rest ++ following) :=
    fun rest => ⟨'"', rest, rfl, rfl, fun h => (h.1 '"' rfl).1 rfl⟩
  have hdigits : ∀ digits more : List Char, digits ≠ [] → (∀ d ∈ digits, Text.isDigit d = true) →
      ∃ c rest, digits ++ more = c :: rest ∧ Text.isBlank c = false ∧
        ¬StartsNoToken (digits ++ more ++ following) := by
    intro digits more any all
    obtain ⟨c, rest, rfl⟩ := exists_cons_of_ne_nil any
    have hdigit := all c mem_cons_self
    refine ⟨c, rest ++ more, rfl, ?_, fun h => ?_⟩
    · by_contra hblank
      simp [Text.isDigit_eq_false_of_isBlank (by simpa using hblank)] at hdigit
    · simp [(h.1 c rfl).2.1] at hdigit
  cases h with
  | closed | unclosed | dangling => exact hquote _
  | plain other =>
    cases hlexeme with
    | text => exact absurd rfl other
    | whole any all => simpa using hdigits _ [] any all
    | decimal any all => exact hdigits _ _ any all
    | @identifier c rest start =>
      refine ⟨c, rest, rfl, ?_, fun h => ?_⟩
      · by_contra hblank
        simp [startsWord_eq_false_of_isBlank (by simpa using hblank)] at start
      · simp [(h.1 c rfl).2.2] at start
    | @fixed _ spelling known =>
      obtain ⟨c, hc, hblank⟩ := Kind.spelling_starts known
      obtain ⟨rest, hrest⟩ := head?_eq_some_iff.1 hc
      exact ⟨c, rest, hrest, hblank, fun h => h.2 kind spelling known (prefix_append _ _)⟩

theorem Spells.exists_content (h : Spells kind lexeme text following)
    (hlexeme : IsLexeme kind lexeme) (hcomment : ¬OpensComment (text ++ following)) :
    ∃ kind' lexeme' text' following', text ++ following = text' ++ following' ∧
      pieces (text ++ following) = ⟨text', some (kind', lexeme')⟩ :: pieces following' ∧
      Spells kind' lexeme' text' following' := by
  obtain ⟨c, rest, rfl, hblank, hstart⟩ := h.start hlexeme
  obtain ⟨text', following', hrest, htext', hfits⟩ := Piece.first_fits c (rest ++ following)
  rw [cons_append, hrest] at hcomment hstart ⊢
  rw [hrest] at htext' hfits
  have hpieces := pieces_append text' rfl htext'
  cases hcontent : (Piece.first c (text' ++ following')).content with
  | some content =>
    rw [Piece.Fits, hcontent, htext'] at hfits
    refine ⟨content.1, content.2, c :: text', following', rfl, ?_, hfits.2.1⟩
    rw [← cons_append, hpieces, ← htext', ← hcontent]
  | none =>
    rw [Piece.Fits, hcontent, htext'] at hfits
    cases hfits with
    | blank white => simp [hblank] at white
    | line => exact absurd (opensComment_cons.2 ⟨rfl, .inl rfl⟩) hcomment
    | block | unclosed => exact absurd (opensComment_cons.2 ⟨rfl, .inr rfl⟩) hcomment
    | stray none => exact absurd none hstart

/-! ## Layouts -/

namespace Layout

@[simp] theorem whole_pad (front : List Char) (layout : Layout) :
    (layout.pad front).whole = front ++ layout.whole := by
  cases layout <;> simp [pad, whole]

@[simp] theorem fronts_pad (front : List Char) (layout : Layout) :
    (layout.pad front).fronts before = layout.fronts (before ++ front) := by
  cases layout <;> simp [pad, fronts]

theorem Covers.pad (h : Covers tokens layout) (hfront : Filler text layout.whole) :
    Covers tokens (layout.pad text) := by
  cases h with
  | @last gap between => exact .last (.cons (by rwa [append_nil]) between)
  | next between lexeme spelled more => exact .next (.cons hfront between) lexeme spelled more

theorem Uncommented.pad (h : layout.Uncommented) (front : List Char) :
    (layout.pad front).Uncommented := by
  cases layout <;> exact h

theorem Covers.pairwise_fronts (h : Covers tokens layout) (before : List Char) :
    ((layout.fronts before).map List.length).Pairwise (· < ·) ∧
      ∀ front ∈ layout.fronts before, before.length ≤ front.length := by
  induction h generalizing before with
  | last => simp [fronts]
  | @next gap text rest token tokens between lexeme spelled more ih =>
    obtain ⟨hpairwise, hbound⟩ := ih (before ++ gap ++ text)
    obtain ⟨c, more, rfl, -⟩ := spelled.start lexeme
    simp only [length_append, length_cons] at hbound
    rw [fronts, map_cons, pairwise_cons, forall_mem_map, forall_mem_cons]
    refine ⟨⟨fun front hfront => ?_, hpairwise⟩, by simp, fun front hfront => ?_⟩
    · have := hbound front hfront
      rw [length_append]
      omega
    · have := hbound front hfront
      omega

/-- **Positions determine a layout.** -/
theorem Covers.eq_of_located (h : Covers tokens layout) (hlocated : layout.Located before tokens)
    (h' : Covers tokens other) (hlocated' : other.Located before tokens)
    (hwhole : layout.whole = other.whole) : layout = other := by
  induction h generalizing before other with
  | last between =>
    cases h' with
    | last => exact congrArg Layout.last hwhole
  | @next gap text rest token tokens between lexeme spelled more ih =>
    cases h' with
    | @next gap' text' rest' _ _ between' lexeme' spelled' more' =>
      obtain ⟨hhere, hrest⟩ := List.cons.inj hlocated
      obtain ⟨hhere', hrest'⟩ := List.cons.inj hlocated'
      obtain rfl : gap = gap' := eq_of_behind_eq hwhole (hhere.symm.trans hhere')
      have hbehind := append_cancel_left hwhole
      obtain rfl : text = text' := spelled.text_eq spelled' hbehind
      rw [ih hrest more' hrest' (append_cancel_left hbehind)]

end Layout

/-! ## The layout of a text -/

theorem Gap.tokensFrom_eq (h : Gap text following) (loc : Location) :
    tokensFrom loc (pieces (text ++ following)) = tokensFrom (loc.after text)
      (pieces following) := by
  induction h generalizing loc with
  | nil => rfl
  | cons first rest ih =>
    rw [append_assoc, first.pieces_eq, after_append, ← ih]
    rfl

theorem Layout.Covers.located {stop : Token} (h : Covers tokens layout) (hnone : layout.Uncommented)
    (htokens : tokensFrom (behind before) (pieces layout.whole) = tokens ++ [stop]) :
    layout.Located before tokens := by
  induction h generalizing before with
  | last => rfl
  | @next gap text rest token tokens between lexeme spelled more ih =>
    rw [Layout.whole, between.tokensFrom_eq, ← behind_append] at htokens
    obtain ⟨kind', lexeme', text', following', hwhole, hpieces, hspelled⟩ :=
      spelled.exists_content lexeme hnone.1
    rw [hpieces] at htokens
    obtain ⟨rfl, hrest⟩ := List.cons.inj htokens
    rw [String.toList_ofList] at spelled
    obtain rfl : text = text' := spelled.text_eq hspelled hwhole
    obtain rfl : rest.whole = following' := append_cancel_left hwhole
    rw [← behind_append] at hrest
    exact congrArg (_ :: ·) (ih hnone.2 hrest)

theorem exists_layout (text before : List Char) : ∃ tokens, ∃ layout : Layout,
    tokensFrom (behind before) (pieces text) = tokens ++ [⟨.eof, "", behind (before ++ text)⟩] ∧
    layout.whole = text ∧ layout.Covers tokens ∧ layout.Uncommented ∧
    layout.Located before tokens := by
  fun_induction pieces text generalizing before with
  | case1 => exact ⟨[], .last [], by simp [tokensFrom], rfl, .last .nil, trivial, rfl⟩
  | case2 c rest piece ih =>
    obtain ⟨text, following, rfl, htext, hfits⟩ := Piece.first_fits c rest
    have hdrop : (text ++ following).drop (piece.text.length - 1) = following := by
      simp [piece, htext]
    obtain ⟨tokens, layout, htokens, rfl, hcovers, hnone, hlocated⟩ :=
      hdrop ▸ ih (before ++ c :: text)
    rw [hdrop, tokensFrom, htext, ← behind_append, htokens, ← cons_append]
    cases hcontent : piece.content with
    | none =>
      rw [Piece.Fits, hcontent, htext] at hfits
      refine ⟨tokens, layout.pad (c :: text), by simp, layout.whole_pad _, hcovers.pad hfits,
        hnone.pad _, ?_⟩
      rwa [Layout.Located, Layout.fronts_pad]
    | some content =>
      rw [Piece.Fits, hcontent, htext] at hfits
      refine ⟨⟨content.1, String.ofList content.2, behind before⟩ :: tokens,
        .next [] (c :: text) layout, by simp, rfl, ?_, ⟨hfits.2.2, hnone⟩, ?_⟩
      · exact .next .nil (by simpa using hfits.1) (by simpa using hfits.2.1) hcovers
      · rw [Layout.Located, Layout.fronts, append_nil, map_cons, map_cons, hlocated]

theorem Layout.Covers.kind_ne_eof (h : Covers tokens layout) :
    ∀ token ∈ tokens, token.kind ≠ .eof := by
  induction h with
  | last => simp
  | next between lexeme spelled more ih => exact forall_mem_cons.2 ⟨lexeme.kind_ne_eof, ih⟩

/-- **The tokens of a text cover it, in one way, and stand where they say.** -/
theorem lex_layout (source : String) : ∃ tokens layout,
    lex source = tokens ++ [⟨.eof, "", Location.behind source.toList⟩] ∧
    (∀ token ∈ tokens, token.kind ≠ .eof) ∧
    layout.whole = source.toList ∧ layout.Covers tokens ∧ layout.Located [] tokens ∧
    layout.Uncommented ∧ ((layout.fronts []).map List.length).Pairwise (· < ·) ∧
    ∀ other : Layout, other.whole = source.toList → other.Covers tokens →
      other.Located [] tokens ∨ other.Uncommented → other = layout := by
  obtain ⟨tokens, layout, htokens, hwhole, hcovers, hnone, hlocated⟩ :=
    exists_layout source.toList []
  refine ⟨tokens, layout, htokens, hcovers.kind_ne_eof, hwhole, hcovers, hlocated, hnone,
    (hcovers.pairwise_fronts []).1, ?_⟩
  rintro other hother hcovers' (hlocated' | hnone')
  · exact hcovers'.eq_of_located hlocated' hcovers hlocated (hother.trans hwhole.symm)
  · have hlocated' := hcovers'.located hnone' (hother ▸ htokens)
    exact hcovers'.eq_of_located hlocated' hcovers hlocated (hother.trans hwhole.symm)

/-- A slash between two comments: `//*` on one line, and `/ /**/` on the next. -/
def betweenComments : String := "//*\n/ /**/"

/-- **The gaps and the texts alone do not determine a layout.** The tokens of this text are covered
by two layouts, one with the slash on the second line and one with the first slash of the text. -/
theorem betweenComments_has_two_layouts :
    lex betweenComments = [⟨.slash, "/", ⟨2, 1⟩⟩, ⟨.eof, "", ⟨2, 7⟩⟩] ∧
    ∃ layout other : Layout, layout ≠ other ∧
      layout.whole = betweenComments.toList ∧ layout.Covers [⟨.slash, "/", ⟨2, 1⟩⟩] ∧
      layout.fronts [] = [['/', '/', '*', '\n']] ∧
      other.whole = betweenComments.toList ∧ other.Covers [⟨.slash, "/", ⟨2, 1⟩⟩] ∧
      other.fronts [] = [[]] := by
  have hslash : IsLexeme .slash "/".toList := .fixed rfl
  have hspelled (following : List Char) : Spells .slash "/".toList ['/'] following :=
    .plain (by decide)
  refine ⟨by with_unfolding_all rfl,
    .next ['/', '/', '*', '\n'] ['/'] (.last [' ', '/', '*', '*', '/']),
    .next [] ['/'] (.last ['/', '*', '\n', '/', ' ', '/', '*', '*', '/']), by simp, rfl, ?_, rfl,
      rfl, ?_, rfl⟩
  · have hline : Filler ['/', '/', '*'] ('\n' :: ['/', ' ', '/', '*', '*', '/']) :=
      .line (by decide) (by simp)
    have hfeed : Gap ['\n'] ['/', ' ', '/', '*', '*', '/'] := .cons (.blank rfl) .nil
    have hblock : Gap ['/', '*', '*', '/'] [] := .cons (@Filler.block [] _ (by decide)) .nil
    exact .next (.cons hline hfeed) hslash (hspelled _) (.last (.cons (.blank rfl) hblock))
  · have hblock : Gap ['/', '*', '\n', '/', ' ', '/', '*', '*', '/'] [] :=
      .cons (@Filler.block ['\n', '/', ' ', '/', '*'] _ (by decide)) .nil
    exact .next .nil hslash (hspelled _) (.last hblock)

end Token

end Trance
