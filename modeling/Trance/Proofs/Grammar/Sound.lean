import Trance.Proofs.Grammar.First
import Trance.Proofs.Grammar.Twins

/-!
# Parsers follow the grammar

Whatever a parser returns, there is a derivation of it from the tokens that were taken. Two parsers
side by side return the same and fail alike, as long as their bounds are greater than the number of
tokens ahead: a loop goes on only behind a token that it has taken, which the derivation shows.
-/

namespace Trance.Grammar

open List Trance.Parser Tape

variable {T : Twins} {n m b b' : Nat} {xs : List Token}

/-! ## Repetition -/

section

variable {α : Type} {item item' : Parser α} {D : List Token → α → List Token → Prop}
  {L : List Token → List α → List Token → Prop}

theorem runs_untilBrace (h : ∀ xs, Runs T m xs item item' (D xs))
    (hlt : ∀ xs a ys, D xs a ys → ys.length < xs.length) (hnil : ∀ xs, L xs [] xs)
    (hcons : ∀ xs a ys as zs, D xs a ys → L ys as zs → L xs (a :: as) zs) (hn : n ≤ m) (hb : n ≤ b)
    (hb' : n ≤ b') (xs : List Token) :
    Runs T n xs (untilBrace item b) (untilBrace item' b') (L xs) := by
  refine .loop (fun k _ _ hk _ _ ih xs => .counted fun hlen => .kind fun t t' halike => ?_) hb hb' xs
  simp only [halike.kind_iff (.inl (rfl : Token.Kind.rightBrace.isMark = true)), halike.kind_iff
    (.inr rfl)]
  split
  · exact .pure (hnil xs)
  · refine .bind ((h xs).mono (by omega)) fun a ys _ hfirst => ?_
    have hless := hlt xs a ys hfirst
    exact .bind ((ih ys).within (by omega)) fun as zs _ hrest =>
      .pure (hcons xs a ys as zs hfirst hrest)

theorem runs_commaSeparated (h : ∀ xs, Runs T m xs item item' (D xs))
    (hlast : ∀ xs a ys, D xs a ys → L xs [a] ys)
    (hmore : ∀ xs a comma ys as zs, D xs a (comma :: ys) → comma.kind = .comma → L ys as zs →
      L xs (a :: as) zs) (hn : n ≤ m) (hb : n ≤ b) (hb' : n ≤ b') (xs : List Token) :
    Runs T n xs (commaSeparated item b) (commaSeparated item' b') (L xs) := by
  refine .loop (fun k _ _ hk _ _ ih xs => .counted fun hlen => ?_) hb hb' xs
  refine .bind ((h xs).mono (by omega)) fun a ys hys hfirst => .ifAccept rfl ?_ fun _ =>
    .pure (hlast xs a ys hfirst)
  rintro comma zs rfl hcomma
  have hless := hys.length_le
  rw [length_cons] at hless
  exact .bind ((ih zs).within (by omega)) fun as ws _ hrest =>
    .pure (hmore xs a comma zs as ws hfirst hcomma hrest)

end

/-! ## Expressions -/

/-- A tree of a form can be derived from the tokens of `xs` before `ys`. -/
abbrev Derivable (form : Form) (xs : List Token) (tree : form.Tree) (ys : List Token) : Prop :=
  Nonempty (Phrase form xs tree ys)

section

variable {expr expr' : Parser Expr} (hexpr : ∀ xs, Runs T m xs expr expr' (Derivable .expression xs))

include hexpr

theorem runs_recordField (hn : n ≤ m) (xs : List Token) :
    Runs T n xs (recordField expr) (recordField expr') fun field ys =>
      ∃ name colon zs, xs = name :: colon :: zs ∧ name.kind = .identifier ∧ colon.kind = .colon ∧
        field.1 = name.lexeme ∧ Derivable .expression zs field.2 ys := by
  refine .identifier fun name ys hxs hname => .expect rfl fun colon zs hys hcolon => ?_
  refine .bind ((hexpr zs).mono hn) fun e ys _ he => .pure ?_
  exact ⟨name, colon, zs, hys ▸ hxs, hname, hcolon, rfl, he⟩

theorem runs_recordFields (hn : n ≤ m) (hb : n ≤ b) (hb' : n ≤ b') (xs : List Token) :
    Runs T n xs (recordFields expr b) (recordFields expr' b') (Derivable .fields xs) := by
  refine .loop (fun k _ _ hk _ _ ih xs => .counted fun hlen => .lookFor rfl ?_ ?_) hb hb' xs
  · exact fun _ _ _ _ => .pure ⟨.noFields⟩
  · refine fun _ _ _ _ _ => .bind (runs_recordField hexpr (by omega) xs) ?_
    rintro ⟨_, e⟩ ys hys ⟨name, colon, zs, rfl, hname, hcolon, rfl, ⟨value⟩⟩
    refine .ifAccept rfl ?_ fun _ => .pure ⟨.lastField hname hcolon value⟩
    rintro comma ws rfl hcomma
    have hless := hys.length_le
    rw [length_cons] at hless
    exact .bind ((ih ws).within (by omega)) fun fields us _ ⟨rest⟩ =>
      .pure ⟨.moreFields hname hcolon value hcomma rest⟩

theorem runs_arguments {closing : Token.Kind} (hclosing : closing.isMark = true) (hn : n ≤ m)
    (hb : n ≤ b) (hb' : n ≤ b') (xs : List Token) :
    Runs T n xs (listUntil closing expr b) (listUntil closing expr' b')
      (Derivable .arguments xs) := by
  refine .lookFor hclosing (fun _ _ _ _ => .pure ⟨.noArguments⟩) fun _ _ _ _ _ => ?_
  have hitems := runs_commaSeparated hexpr (L := Derivable .items) (fun _ _ _ ⟨d⟩ => ⟨.lastItem d⟩)
    (fun _ _ _ _ _ _ ⟨d⟩ hcomma ⟨rest⟩ => ⟨.moreItems d hcomma rest⟩) hn hb hb' xs
  exact hitems.weaken fun _ _ ⟨d⟩ => ⟨.someArguments d⟩

theorem runs_nameOrRecord {t : Token} (ht : t.kind = .identifier) (hn : n ≤ m) (hb : n ≤ b)
    (hb' : n ≤ b') (xs : List Token) :
    Runs T n xs (nameOrRecord expr b t) (nameOrRecord expr' b' t)
      (Derivable .primary (t :: xs)) := by
  refine .cursor fun hxs => ?_
  rw [Twins.opensRecord_right hxs]
  split
  · refine .expect rfl ?_
    rintro l ys rfl hl
    refine .bind (runs_recordFields hexpr hn hb hb' ys) fun fields zs _ ⟨d⟩ => .expect rfl ?_
    rintro r ws rfl hr
    exact .pure ⟨.record ht hl d hr⟩
  · exact .pure ⟨.name ht⟩

end

section

variable {expr expr' : Parser Expr} (hexpr : ∀ xs, Runs T n xs expr expr' (Derivable .expression xs))

include hexpr

theorem runs_primary (hb : n ≤ b) (hb' : n ≤ b') (xs : List Token) :
    Runs T (n + 1) xs (primary expr b) (primary expr' b') (Derivable .primary xs) := by
  refine .inText fun htext => .look fun t t' halike _ hxs => ?_
  obtain rfl | ⟨_, hword, _⟩ := halike.cases
  · split
    case h_8 => exact .fail halike _ (by simp)
    all_goals
      rename_i ht
      obtain ⟨ys, rfl⟩ := hxs.resolve_left (by simp [ht])
      refine .advance ?_
    · split
      · next hvalue => exact .pure ⟨.number ht hvalue⟩
      · next hvalue =>
        refine .failAt ?_ _
        exact ⟨by simp, _, htext.subset (.head _), ht, rfl, hvalue⟩
    · exact .pure ⟨.text ht⟩
    · exact .pure ⟨.yes ht⟩
    · exact .pure ⟨.no ht⟩
    · exact runs_nameOrRecord hexpr ht (Nat.le_refl n) hb hb' ys
    · refine .bind (hexpr ys) fun e zs _ ⟨d⟩ => .expect rfl ?_
      rintro r ws rfl hr
      exact .pure ⟨.paren ht d hr⟩
    · refine .bind (runs_arguments hexpr rfl (Nat.le_refl n) hb hb' ys) fun items zs _ ⟨d⟩ =>
        .expect rfl ?_
      rintro r ws rfl hr
      exact .pure ⟨.array ht d hr⟩
  · generalize t.kind = kind at hword ⊢
    generalize t'.kind = kind' at hword ⊢
    cases hword <;> exact .fail halike _ (by simp)

theorem runs_accesses (hb : n + 1 ≤ b) (hb' : n + 1 ≤ b') (object : Expr) (xs : List Token) :
    Runs T (n + 1) xs (accesses expr b object) (accesses expr' b' object)
      fun e zs => ∀ ws, Derivable .access ws object xs → Derivable .access ws e zs := by
  refine .recursion (p := accesses expr) (q := accesses expr') (D := fun object xs e zs =>
    ∀ ws, Derivable .access ws object xs → Derivable .access ws e zs) ?_ hb hb' object xs
  intro k b b' hk hb hb' ih object xs
  refine .look fun t t' halike _ hxs => ?_
  obtain rfl | ⟨_, hword, _⟩ := halike.cases
  · split
    case h_4 => exact .pure fun _ h => h
    all_goals
      rename_i ht
      obtain ⟨ys, rfl⟩ := hxs.resolve_left (by simp [ht])
      refine .advance ?_
    · refine .bind (runs_arguments hexpr rfl (by omega) hb hb' ys) fun args zs _ ⟨d⟩ =>
        .expect rfl ?_
      rintro r us rfl hr
      exact (ih _ us).weaken fun e vs h ws ⟨o⟩ => h ws ⟨.call o ht d hr⟩
    · refine .identifier ?_
      rintro name zs rfl hname
      exact (ih _ zs).weaken fun e vs h ws ⟨o⟩ => h ws ⟨.field o ht hname⟩
    · refine .bind ((hexpr ys).mono (by omega)) fun i zs _ ⟨d⟩ => .expect rfl ?_
      rintro r us rfl hr
      exact (ih _ us).weaken fun e vs h ws ⟨o⟩ => h ws ⟨.index o ht d hr⟩
  · generalize t.kind = kind at hword ⊢
    generalize t'.kind = kind' at hword ⊢
    cases hword <;> exact .pure fun _ h => h

theorem runs_operand (hb : n + 1 ≤ b) (hb' : n + 1 ≤ b') (xs : List Token) :
    Runs T (n + 1) xs (do let object ← primary expr b; accesses expr b object)
      (do let object ← primary expr' b'; accesses expr' b' object)
      (Derivable .access xs) := by
  refine .bind (runs_primary hexpr (by omega) (by omega) xs) fun object ys _ ⟨d⟩ => ?_
  exact (runs_accesses hexpr hb hb' object ys).weaken fun e zs h => h xs ⟨.base d⟩

end

/-! ## Operators around expressions -/

section

variable {operand operand' : Parser Expr}

theorem runs_signed (h : ∀ xs, Runs T n xs operand operand' (Derivable .access xs)) (hb : n ≤ b)
    (hb' : n ≤ b') (xs : List Token) :
    Runs T n xs (signed operand b) (signed operand' b') (Derivable .signed xs) := by
  refine .loop (fun k _ _ hk _ _ ih xs => .look fun t t' halike _ hxs => ?_) hb hb' xs
  have hsame : UnaryOp.ofKind? t'.kind = UnaryOp.ofKind? t.kind ∧ t'.location = t.location := by
    obtain rfl | ⟨_, hword, hloc⟩ := halike.cases
    · exact ⟨rfl, rfl⟩
    · refine ⟨?_, hloc⟩
      generalize t.kind = kind at hword ⊢
      generalize t'.kind = kind' at hword ⊢
      cases hword <;> rfl
  rw [hsame.1, hsame.2]
  split
  · next op hop =>
    have hsign := ofKind?_eq_some.1 hop
    obtain ⟨ys, rfl⟩ := hxs.resolve_left fun h => signs_ne_eof hsign h.2
    exact .advance (.bind (ih ys) fun e zs _ ⟨d⟩ => .pure ⟨.sign hsign d⟩)
  · exact ((h xs).mono hk).weaken fun e ys ⟨d⟩ => ⟨.unsigned d⟩

theorem Level.lookup_alike (level : Level) {t t' : Token} (h : t.Alike T.synonyms t') :
    level.lookup t'.kind = level.lookup t.kind := by
  obtain rfl | ⟨_, hword, _⟩ := h.cases
  · rfl
  · generalize t.kind = kind at hword ⊢
    generalize t'.kind = kind' at hword ⊢
    cases hword <;> cases level <;> rfl

theorem runs_chain {level : Level} {rest : List Level}
    (h : ∀ xs, Runs T n xs operand operand' (Derivable (.operation rest) xs)) (hb : n ≤ b)
    (hb' : n ≤ b') (left : Expr) (xs : List Token) :
    Runs T n xs (chain level.lookup operand b left) (chain level.lookup operand' b' left)
      fun e zs => ∀ ws, Derivable (.operation (level :: rest)) ws left xs →
        Derivable (.operation (level :: rest)) ws e zs := by
  refine .recursion (p := chain level.lookup operand) (q := chain level.lookup operand')
    (D := fun left xs e zs => ∀ ws, Derivable (.operation (level :: rest)) ws left xs →
      Derivable (.operation (level :: rest)) ws e zs) ?_ hb hb' left xs
  intro k b b' hk _ _ ih left xs
  refine .look fun t t' halike _ hxs => ?_
  rw [level.lookup_alike halike, halike.location]
  split
  · next op hop =>
    have hoperator := Level.lookup_eq_some.1 hop
    obtain ⟨ys, rfl⟩ := hxs.resolve_left fun h => Level.ne_eof hoperator h.2
    refine .advance (.bind ((h ys).mono (by omega)) fun right zs _ ⟨d⟩ => ?_)
    exact (ih _ zs).weaken fun e us h ws ⟨l⟩ => h ws ⟨.binary l hoperator d⟩
  · exact .pure fun _ h => h

theorem runs_operators (h : ∀ xs, Runs T n xs operand operand' (Derivable .signed xs)) (hb : n ≤ b)
    (hb' : n ≤ b') (levels : List Level) (xs : List Token) :
    Runs T n xs (operators operand b (levels.map Level.lookup))
      (operators operand' b' (levels.map Level.lookup)) (Derivable (.operation levels) xs) := by
  induction levels generalizing xs with
  | nil => exact (h xs).weaken fun e ys ⟨d⟩ => ⟨.operand d⟩
  | cons level rest ih =>
    refine .bind (ih xs) fun first ys _ ⟨d⟩ => ?_
    exact (runs_chain ih hb hb' first ys).weaken fun e zs h => h xs ⟨.single d⟩

end

theorem runs_assignment {expr expr' : Parser Expr}
    (hexpr : ∀ xs, Runs T n xs expr expr' (Derivable .expression xs)) (hb : n + 1 ≤ b)
    (hb' : n + 1 ≤ b')
    (xs : List Token) : Runs T (n + 1) xs (assignment expr b) (assignment expr' b')
      (Derivable .expression xs) := by
  have hoperation : Runs T (n + 1) xs (operation expr b) (operation expr' b')
      (Derivable (.operation Level.ladder) xs) := by
    rw [operation, operation, levels_eq_map_ladder]
    exact runs_operators (runs_signed (runs_operand hexpr hb hb') hb hb') hb hb' Level.ladder xs
  refine .counted fun hlen => .bind hoperation fun target ys hys ⟨d⟩ => .here fun loc hloc =>
    .ifAccept rfl ?_ fun _ => .pure ⟨.plain d⟩
  rintro t zs rfl ht
  obtain rfl := hloc t rfl
  split
  · next hplace =>
    have hless := hys.length_le
    rw [length_cons] at hless
    exact .bind ((hexpr zs).within (by omega)) fun value ws _ ⟨v⟩ => .pure ⟨.assign d hplace ht v⟩
  · exact .failAt (by simp) _

/-- **Whatever is read as an expression can be derived as one.** -/
theorem runs_expression (hb : n ≤ b) (hb' : n ≤ b') (xs : List Token) :
    Runs T n xs (expression b) (expression b') (Derivable .expression xs) :=
  .loop (fun _ _ _ _ hb hb' ih xs =>
    runs_assignment ih (Nat.succ_le_succ hb) (Nat.succ_le_succ hb') xs) hb hb' xs

/-! ## Declarations without statements -/

theorem runs_optional {kind : Token.Kind} (hkind : kind.isMark = true) (xs : List Token) :
    Runs T n xs (accept kind) (accept kind) fun taken ys =>
      Nonempty (Optional kind xs taken ys) := by
  refine (Runs.accepting hkind).weaken ?_
  rintro _ ys (⟨rfl, t, rfl, ht⟩ | ⟨rfl, rfl, _⟩)
  · exact ⟨.present ht⟩
  · exact ⟨.absent⟩

theorem runs_typeMark (xs : List Token) : Runs T n xs typeAnnotation typeAnnotation
    fun type ys => Nonempty (TypeMark xs type ys) := by
  refine .ifAccept rfl ?_ fun _ => .pure ⟨.absent⟩
  rintro colon _ rfl hcolon
  refine .identifier ?_
  rintro name ys rfl hname
  exact .pure ⟨.present hcolon hname⟩

section

variable {expr expr' : Parser Expr} (hexpr : ∀ xs, Runs T n xs expr expr' (Derivable .expression xs))

include hexpr

theorem runs_start (xs : List Token) : Runs T n xs (Parser.start expr) (Parser.start expr')
    fun start ys => Nonempty (Opening xs start ys) := by
  refine .ifAccept rfl ?_ fun _ => .ifAccept rfl ?_ fun _ => .pure ⟨.unset⟩
  · rintro t ys rfl ht
    exact .bind (hexpr ys) fun e zs _ ⟨d⟩ => .pure ⟨.value ht d⟩
  · rintro t _ rfl ht
    refine .expect rfl ?_
    rintro word ys rfl hword
    exact .pure ⟨.external ht hword⟩

theorem runs_variableRest {word : Token} (hword : word.kind = .induce) (xs : List Token) :
    Runs T n xs (variableRest expr word.location) (variableRest expr' word.location)
      fun v ys => Nonempty (VariableDecl (word :: xs) v ys) := by
  refine .identifier ?_
  rintro name ys rfl hname
  refine .bind (runs_typeMark ys) fun type zs _ ⟨typed⟩ => .bind (runs_start hexpr zs)
    fun start ws _ ⟨opening⟩ => .expect rfl ?_
  rintro stop us rfl hstop
  exact .pure ⟨.mk hword hname typed opening hstop⟩

theorem runs_fieldStart (xs : List Token) : Runs T n xs (fieldStart expr) (fieldStart expr')
    fun start ys => Nonempty (FieldOpening xs start ys) := by
  refine .ifAccept rfl ?_ fun _ => .pure ⟨.unset⟩
  rintro t ys rfl ht
  exact .bind (hexpr ys) fun e zs _ ⟨d⟩ => .pure ⟨.value ht d⟩

theorem runs_tranceifyField (xs : List Token) : Runs T n xs (tranceifyField expr)
    (tranceifyField expr') fun v ys => Nonempty (FieldDecl xs v ys) := by
  refine .here fun loc hloc => .bind (runs_optional rfl xs) fun induced _ _ ⟨induce⟩ =>
    .identifier ?_
  rintro name _ rfl hname
  refine .expect rfl ?_
  rintro colon _ rfl hcolon
  refine .identifier ?_
  rintro type ys rfl htype
  refine .bind (runs_fieldStart hexpr ys) fun start zs _ ⟨opening⟩ => .expect rfl ?_
  rintro stop ws rfl hstop
  cases xs with
  | nil => cases induce
  | cons first xs =>
    obtain rfl := hloc first rfl
    exact .pure ⟨.mk induce hname hcolon htype opening hstop⟩

theorem runs_tranceifyRest {word : Token} (hword : word.kind = .tranceify) (hb : n ≤ b)
    (hb' : n ≤ b') (xs : List Token) : Runs T n xs (tranceifyRest expr b word.location)
      (tranceifyRest expr' b' word.location)
      fun decl ys => Nonempty (TranceifyDecl (word :: xs) decl ys) := by
  refine .identifier ?_
  rintro name _ rfl hname
  refine .expect rfl ?_
  rintro l ys rfl hl
  have hmembers := runs_untilBrace (runs_tranceifyField hexpr) (fun _ _ _ ⟨d⟩ => d.length_lt)
    (L := fun xs vs ys => Nonempty (Series FieldDecl xs vs ys)) (fun _ => ⟨.nil⟩)
    (fun _ _ _ _ _ ⟨first⟩ ⟨rest⟩ => ⟨.cons first rest⟩) (Nat.le_refl n) hb hb' ys
  refine .bind hmembers fun members zs _ ⟨ms⟩ => .expect rfl ?_
  rintro r ws rfl hr
  exact .pure ⟨.mk hword hname hl ms hr⟩

theorem runs_optionalUntil {closing : Token.Kind} (hclosing : closing.isMark = true)
    (xs : List Token) : Runs T n xs (optionalUntil closing expr) (optionalUntil closing expr')
      fun e ys => Nonempty (OptionalPhrase xs e ys) :=
  .lookFor hclosing (fun _ _ _ _ => .pure ⟨.absent⟩) fun _ _ _ _ _ =>
    .bind (hexpr xs) fun _ _ _ ⟨d⟩ => .pure ⟨.present d⟩

theorem runs_loopStart (xs : List Token) : Runs T n xs (loopStart expr) (loopStart expr')
    fun s ys => Nonempty (LoopOpening xs s ys) := by
  refine .here fun loc hloc => .ifAccept rfl ?_ fun _ => .ifAccept rfl ?_ fun _ => ?_
  · rintro t ys rfl ht
    exact .pure ⟨.none ht⟩
  · rintro t ys rfl ht
    obtain rfl := hloc t rfl
    exact .bind (runs_variableRest hexpr ht ys) fun v zs _ ⟨d⟩ => .pure ⟨.induce d⟩
  · refine .bind (hexpr xs) fun e ys _ ⟨d⟩ => .expect rfl ?_
    rintro stop zs rfl hstop
    cases xs with
    | nil => exact absurd d.length_lt (by simp)
    | cons t xs =>
      obtain rfl := hloc t rfl
      exact .pure ⟨.expr d hstop⟩

end

/-! ## Suggestions -/

theorem runs_param (xs : List Token) :
    Runs T n xs Parser.param Parser.param fun param ys => Nonempty (ParamDecl xs param ys) := by
  refine .identifier ?_
  rintro name ys rfl hname
  exact .bind (runs_typeMark ys) fun type zs _ ⟨typed⟩ => .pure ⟨.mk hname typed⟩

theorem runs_params (hb : n ≤ b) (hb' : n ≤ b') (xs : List Token) :
    Runs T n xs (Parser.params b) (Parser.params b') fun params ys =>
      Nonempty (ParamList xs params ys) := by
  refine .expect rfl ?_
  rintro l ys rfl hl
  have hlisting := runs_commaSeparated (T := T) runs_param
    (L := fun xs params ys => Nonempty (Listing ParamDecl xs params ys)) (fun _ _ _ ⟨d⟩ => ⟨.last d⟩)
    (fun _ _ _ _ _ _ ⟨d⟩ hcomma ⟨rest⟩ => ⟨.more d hcomma rest⟩) (Nat.le_refl n) hb hb' ys
  have hlist : Runs T n ys (listUntil .rightParen Parser.param b)
      (listUntil .rightParen Parser.param b') fun params zs =>
        (params = [] ∧ zs = ys) ∨ Nonempty (Listing ParamDecl ys params zs) :=
    .lookFor rfl (fun _ _ _ _ => .pure (.inl ⟨rfl, rfl⟩)) fun _ _ _ _ _ =>
      hlisting.weaken fun _ _ => .inr
  refine .bind hlist fun params zs _ hparams => .expect rfl ?_
  rintro r ws rfl hr
  obtain ⟨rfl, rfl⟩ | ⟨⟨d⟩⟩ := hparams
  · exact .pure ⟨.none hl hr⟩
  · exact .pure ⟨.some hl d hr⟩

theorem runs_suggestionName (xs : List Token) :
    Runs T n xs suggestionName suggestionName fun name ys =>
    Nonempty (SuggestionName xs name ys) := by
  refine .ifAccept rfl ?_ fun _ => ?_
  · rintro t ys rfl ht
    exact .pure ⟨.constructor ht⟩
  · refine Runs.naming.weaken ?_
    rintro _ ys ⟨t, rfl, ht, rfl⟩
    exact ⟨.named ht⟩

/-! ## Statements -/

/-- A tree of a shape can be derived from the tokens of `xs` before `ys`. -/
abbrev Composable (origin : Origin) (shape : Shape) (xs : List Token) (tree : shape.Tree)
    (ys : List Token) : Prop :=
  Nonempty (Clause origin shape xs tree ys)

section

variable {expr expr' : Parser Expr} (hexpr : ∀ xs, Runs T n xs expr expr' (Derivable .expression xs))
  {stmt stmt' : Parser Stmt} (hstmt : ∀ xs,
    Runs T n xs stmt stmt' (Composable T.left.origin .statement xs))
  (hb : n ≤ b) (hb' : n ≤ b')

include hstmt hb hb'

theorem runs_statements (xs : List Token) : Runs T n xs (untilBrace stmt b) (untilBrace stmt' b')
    (Composable T.left.origin .statements xs) :=
  runs_untilBrace hstmt (fun _ _ _ ⟨d⟩ => d.length_lt) (fun _ => ⟨.nil⟩)
    (fun _ _ _ _ _ ⟨first⟩ ⟨rest⟩ => ⟨.cons first rest⟩) (Nat.le_refl n) hb hb' xs

theorem runs_block (context : String) (xs : List Token) :
    Runs T n xs (Parser.block stmt b context) (Parser.block stmt' b' context)
      (Composable T.left.origin .block xs) := by
  refine .expect rfl ?_
  rintro l ys rfl hl
  refine .bind (runs_statements hstmt hb hb' ys) fun body zs _ ⟨d⟩ => .expect rfl ?_
  rintro r ws rfl hr
  exact .pure ⟨.block hl d hr⟩

theorem runs_suggestionRest (loc : Location) (imperative dominant : Bool) (xs : List Token) :
    Runs T n xs (suggestionRest stmt b loc imperative dominant)
      (suggestionRest stmt' b' loc imperative dominant)
      (Composable T.left.origin (.suggestion loc imperative dominant) xs) := by
  refine .bind (runs_suggestionName xs) fun name ys _ ⟨named⟩ => .bind (runs_params hb hb' ys)
    fun params zs _ ⟨parameters⟩ => .bind (runs_typeMark zs) fun type ws _ ⟨typed⟩ =>
    .bind (runs_block hstmt hb hb' _ ws) fun body us _ ⟨block⟩ => .cursor fun _ => ?_
  rw [show (T.right.cursor us).origin = (T.left.cursor us).origin from T.origin]
  exact .pure ⟨.signature named parameters typed block⟩

theorem runs_suggestion (xs : List Token) :
    Runs T (n + 1) xs (suggestion stmt b) (suggestion stmt' b') fun decl ys =>
      Composable T.left.origin .statement xs (.suggestion decl) ys := by
  have hrest (loc imperative dominant ys) (hys : ys.length < n) :=
    (runs_suggestionRest hstmt hb hb' loc imperative dominant ys).within (m := n + 1) hys
  refine .counted fun hlen => .here fun loc hloc => .accept rfl ?_ fun _ => .accept rfl ?_ fun _ =>
    ?_
  · rintro mark _ rfl hmark
    obtain rfl := hloc mark rfl
    refine .expect rfl ?_
    rintro word ys rfl hword
    simp only [length_cons] at hlen
    exact (hrest _ _ _ ys (by omega)).weaken fun decl zs ⟨d⟩ => ⟨.imperative hmark hword d⟩
  · rintro mark _ rfl hmark
    obtain rfl := hloc mark rfl
    refine .expect rfl ?_
    rintro word ys rfl hword
    simp only [length_cons] at hlen
    exact (hrest _ _ _ ys (by omega)).weaken fun decl zs ⟨d⟩ => ⟨.dominant hmark hword d⟩
  · refine .expect rfl ?_
    rintro word ys rfl hword
    obtain rfl := hloc word rfl
    simp only [length_cons] at hlen
    exact (hrest _ _ _ ys (by omega)).weaken fun decl zs ⟨d⟩ => ⟨.suggestion hword d⟩

include hexpr

theorem runs_memberDecl (dominant : Bool) (xs : List Token) :
    Runs T n xs (memberDecl expr stmt b dominant) (memberDecl expr' stmt' b' dominant)
      (Composable T.left.origin (.declared dominant) xs) := by
  refine .look fun t t' halike _ hxs => ?_
  obtain rfl | ⟨_, hword, _⟩ := halike.cases
  · split
    case h_5 => exact .fail halike _ (by simp)
    all_goals
      rename_i ht
      obtain ⟨ys, rfl⟩ := hxs.resolve_left (by simp [ht])
    · refine (Runs.advance ?_).mono (Nat.le_succ n)
      exact .bind (runs_variableRest hexpr ht ys) fun v zs _ ⟨d⟩ => .pure ⟨.field d⟩
    · refine (Runs.advance ?_).mono (Nat.le_succ n)
      exact .bind (runs_suggestionRest hstmt hb hb' _ _ _ ys) fun decl zs _ ⟨d⟩ =>
        .pure ⟨.method ht d⟩
    · refine (Runs.advance (.expect rfl ?_)).mono (Nat.le_succ n)
      rintro word zs rfl hword
      exact .bind (runs_suggestionRest hstmt hb hb' _ _ _ zs) fun decl ws _ ⟨d⟩ =>
        .pure ⟨.imperativeMethod ht hword d⟩
    · exact .bind (runs_suggestionRest hstmt hb hb' _ _ _ _) fun decl zs _ ⟨d⟩ =>
        .pure ⟨.constructor ht d⟩
  · generalize t.kind = kind at hword ⊢
    generalize t'.kind = kind' at hword ⊢
    cases hword <;> exact .fail halike _ (by simp)

theorem runs_member (xs : List Token) : Runs T n xs (member expr stmt b) (member expr' stmt' b')
    (Composable T.left.origin .member xs) := by
  have hrest {ys : List Token} {exposed : Bool} (visibility : Visibility xs exposed ys) :
      Runs T n ys (do
        let dominant ← accept .dominant
        return (⟨← memberDecl expr stmt b dominant, exposed, dominant⟩ : Member)) (do
        let dominant ← accept .dominant
        return (⟨← memberDecl expr' stmt' b' dominant, exposed, dominant⟩ : Member))
        (Composable T.left.origin .member xs) :=
    .bind (runs_optional rfl ys) fun dominant zs _ ⟨dominance⟩ =>
      .bind (runs_memberDecl hexpr hstmt hb hb' dominant zs) fun decl ws _ ⟨d⟩ =>
        .pure ⟨.member visibility dominance d⟩
  refine .accept rfl ?_ fun _ => .accept rfl ?_ fun _ => hrest .unmarked
  · rintro t ys rfl ht
    exact hrest (.concealed ht)
  · rintro t ys rfl ht
    exact hrest (.exposed ht)

variable {word : Token}

theorem runs_sessionRest (hword : word.kind = .session) (xs : List Token) :
    Runs T n xs (sessionRest expr stmt b word.location)
      (sessionRest expr' stmt' b' word.location) fun decl ys =>
        Composable T.left.origin .statement (word :: xs) (.session decl) ys := by
  refine .identifier ?_
  rintro name _ rfl hname
  refine .expect rfl ?_
  rintro l ys rfl hl
  have hmembers := runs_untilBrace (runs_member hexpr hstmt hb hb') (fun _ _ _ ⟨d⟩ => d.length_le)
    (L := Composable T.left.origin .members) (fun _ => ⟨.noMembers⟩)
    (fun _ _ _ _ _ ⟨first⟩ ⟨rest⟩ => ⟨.moreMembers first rest⟩) (Nat.le_refl n) hb hb' ys
  refine .bind hmembers fun members zs _ ⟨ms⟩ => .expect rfl ?_
  rintro r ws rfl hr
  exact .pure ⟨.session hword hname hl ms hr⟩

omit hexpr in
theorem runs_alternative (hword : word.kind = .elseWord) (xs : List Token) :
    Runs T n xs (Parser.alternative stmt b) (Parser.alternative stmt' b') fun body ys =>
      Composable T.left.origin .alternative (word :: xs) (some body) ys := by
  refine .lookFor rfl ?_ fun _ _ _ _ _ =>
    (runs_block hstmt hb hb' _ xs).weaken fun body ys ⟨d⟩ => ⟨.elseBlock hword d⟩
  rintro t ys rfl ht
  refine .bind (hstmt _) fun s zs _ ⟨d⟩ => ?_
  obtain ⟨branch⟩ := d.branch_of_starts ht
  exact .pure ⟨.elseBranch hword branch⟩

theorem runs_branchRest (hword : word.kind = .ifWord) (xs : List Token) :
    Runs T n xs (branchRest expr stmt b word.location) (branchRest expr' stmt' b' word.location)
      (Composable T.left.origin .branch (word :: xs)) := by
  refine .expect rfl ?_
  rintro l ys rfl hl
  refine .bind (hexpr ys) fun cond zs _ ⟨d⟩ => .expect rfl ?_
  rintro r ws rfl hr
  refine .bind (runs_block hstmt hb hb' _ ws) fun yes us _ ⟨block⟩ => .ifAccept rfl ?_ fun _ =>
    .pure ⟨.branch hword hl d hr block .noElse⟩
  rintro t vs rfl ht
  exact .bind (runs_alternative hstmt hb hb' ht vs) fun no _ _ ⟨alternative⟩ =>
    .pure ⟨.branch hword hl d hr block alternative⟩

theorem runs_whileRest (hword : word.kind = .whileWord) (xs : List Token) :
    Runs T n xs (whileRest expr stmt b word.location) (whileRest expr' stmt' b' word.location)
      (Composable T.left.origin .statement (word :: xs)) := by
  refine .expect rfl ?_
  rintro l ys rfl hl
  refine .bind (hexpr ys) fun cond zs _ ⟨d⟩ => .expect rfl ?_
  rintro r ws rfl hr
  exact .bind (runs_block hstmt hb hb' _ ws) fun body us _ ⟨block⟩ =>
    .pure ⟨.whileLoop hword hl d hr block⟩

theorem runs_loopRest (hword : word.kind = .loop) (xs : List Token) :
    Runs T n xs (loopRest expr stmt b word.location) (loopRest expr' stmt' b' word.location)
      (Composable T.left.origin .statement (word :: xs)) := by
  refine .expect rfl ?_
  rintro l ys rfl hl
  refine .bind (runs_loopStart hexpr ys) fun init zs _ ⟨opening⟩ =>
    .bind (runs_optionalUntil hexpr rfl zs) fun cond ws _ ⟨condition⟩ => .expect rfl ?_
  rintro stop us rfl hstop
  refine .bind (runs_optionalUntil hexpr rfl us) fun step vs _ ⟨stepping⟩ => .expect rfl ?_
  rintro r ts rfl hr
  exact .bind (runs_block hstmt hb hb' _ ts) fun body _ _ ⟨block⟩ =>
    .pure ⟨.loop hword hl opening condition hstop stepping hr block⟩

end

theorem runs_exprStatement (hb : n ≤ b) (hb' : n ≤ b') {t : Token}
    (hxs : (xs = [] ∧ t.kind = .eof) ∨ ∃ ys, xs = t :: ys) :
    Runs T n xs (do
      let value ← expression b
      let _ ← expect .semicolon "after expression"
      return Stmt.expr value t.location) (do
      let value ← expression b'
      let _ ← expect .semicolon "after expression"
      return Stmt.expr value t.location) (Composable T.left.origin .statement xs) := by
  refine .bind (runs_expression hb hb' xs) fun e ys _ ⟨d⟩ => .expect rfl ?_
  rintro stop zs rfl hstop
  obtain ⟨rfl, _⟩ | ⟨ys, rfl⟩ := hxs
  · exact absurd d.length_lt (by simp)
  · exact .pure ⟨.expr d hstop⟩

theorem runs_statementOf {stmt stmt' : Parser Stmt}
    (hstmt : ∀ xs, Runs T n xs stmt stmt' (Composable T.left.origin .statement xs)) (hb : n + 1 ≤ b)
    (hb' : n + 1 ≤ b') {t t' : Token} (halike : t.Alike T.synonyms t')
    (hxs : (xs = [] ∧ t.kind = .eof) ∨ ∃ ys, xs = t :: ys) :
    Runs T (n + 1) xs (statementOf stmt b t) (statementOf stmt' b' t')
      (Composable T.left.origin .statement xs) := by
  have hexpr : ∀ xs, Runs T n xs (expression b) (expression b') (Derivable .expression xs) :=
    runs_expression (Nat.le_of_succ_le hb) (Nat.le_of_succ_le hb')
  have hle := Nat.le_of_succ_le hb
  have hle' := Nat.le_of_succ_le hb'
  unfold statementOf
  obtain rfl | ⟨_, hword, hloc⟩ := halike.cases
  · split
    case h_5 | h_6 | h_7 =>
      exact .bind (runs_suggestion hstmt hle hle' xs) fun decl ys _ d => .pure d
    case h_17 | h_18 => exact .fail halike _ (by simp)
    case h_19 => exact runs_exprStatement hb hb' hxs
    all_goals
      rename_i ht
      obtain ⟨ys, rfl⟩ := hxs.resolve_left (by simp [ht])
      refine .advance ?_
    · exact .bind (runs_variableRest hexpr ht ys) fun v zs _ ⟨d⟩ => .pure ⟨.induce d⟩
    · exact (runs_branchRest hexpr hstmt hle hle' ht ys).weaken fun s zs ⟨d⟩ => ⟨.branching d⟩
    · exact runs_whileRest hexpr hstmt hle hle' ht ys
    · exact runs_loopRest hexpr hstmt hle hle' ht ys
    · exact .bind (runs_sessionRest hexpr hstmt hle hle' ht ys) fun decl zs _ d => .pure d
    · exact .bind (runs_tranceifyRest hexpr ht hle hle' ys) fun decl zs _ ⟨d⟩ => .pure ⟨.tranceify d⟩
    · refine .bind (hexpr ys) fun e zs _ ⟨d⟩ => .expect rfl ?_
      rintro stop ws rfl hstop
      exact .pure ⟨.observe ht d hstop⟩
    · refine .bind (runs_optionalUntil hexpr rfl ys) fun e zs _ ⟨d⟩ => .expect rfl ?_
      rintro stop ws rfl hstop
      exact .pure ⟨.awaken ht d hstop⟩
    · refine .expect rfl ?_
      rintro stop zs rfl hstop
      exact .pure ⟨.snap ht hstop⟩
    · refine .expect rfl ?_
      rintro stop zs rfl hstop
      exact .pure ⟨.sink ht hstop⟩
    · refine .identifier ?_
      rintro name _ rfl hname
      refine .expect rfl ?_
      rintro stop zs rfl hstop
      exact .pure ⟨.sinkTo ht hname hstop⟩
    · refine .identifier ?_
      rintro name _ rfl hname
      refine .expect rfl ?_
      rintro stop zs rfl hstop
      exact .pure ⟨.label ht hname hstop⟩
    · refine .bind (hexpr ys) fun cond zs _ ⟨d⟩ => .look fun next next' halike _ hzs =>
        .accept rfl ?_ ?_
      · rintro text ws rfl htext
        obtain ⟨_, heq⟩ := hzs.resolve_left (by simp)
        obtain rfl := (List.cons.inj heq).1
        obtain rfl := halike.eq_of_mark (htext ▸ rfl)
        refine .expect rfl ?_
        rintro stop us rfl hstop
        exact .pure ⟨.assert ht d (.present htext) hstop⟩
      · refine fun _ => .expect rfl ?_
        rintro stop us rfl hstop
        exact .pure ⟨.assert ht d .absent hstop⟩
  · rw [hloc]
    have hrest := runs_exprStatement (T := T) hb hb' hxs
    generalize t.kind = kind at hword ⊢
    generalize t'.kind = kind' at hword ⊢
    cases hword <;> exact hrest

/-- **Whatever is read as a statement can be derived as one.** -/
theorem runs_statement (hb : n ≤ b) (hb' : n ≤ b') (xs : List Token) :
    Runs T n xs (statement b) (statement b') (Composable T.left.origin .statement xs) :=
  .loop (fun _ _ _ _ hb hb' ih _ => .look fun _ _ halike _ hxs =>
    runs_statementOf ih (Nat.succ_le_succ hb) (Nat.succ_le_succ hb') halike hxs) hb hb' xs

/-! ## Programs -/

theorem runs_topLevel (hb : n ≤ b) (hb' : n ≤ b') (xs : List Token) :
    Runs T n xs (topLevel b) (topLevel b') fun s ys =>
      Nonempty (Top T.left.origin xs s ys) := by
  have hstatement := (runs_statement (T := T) hb hb' xs).weaken fun s ys ⟨d⟩ =>
    (⟨Top.statement d⟩ : Nonempty (Top T.left.origin xs s ys))
  refine .look fun t t' halike _ hxs => ?_
  obtain rfl | ⟨_, hword, _⟩ := halike.cases
  · split
    · next ht =>
      obtain ⟨_, rfl⟩ := hxs.resolve_left (by simp [ht])
      refine (Runs.advance (.expect rfl ?_)).mono (Nat.le_succ n)
      rintro l ys rfl hl
      refine .bind (runs_statements (runs_statement hb hb') hb hb' ys) fun body zs _ ⟨d⟩ =>
        .expect rfl ?_
      rintro r ws rfl hr
      exact .pure ⟨.entrance ht (.block hl d hr)⟩
    · next ht =>
      obtain ⟨_, rfl⟩ := hxs.resolve_left (by simp [ht])
      refine (Runs.advance (.expect rfl ?_)).mono (Nat.le_succ n)
      rintro path _ rfl hpath
      refine .expect rfl ?_
      rintro stop ys rfl hstop
      exact .pure ⟨.mindLink ht hpath hstop⟩
    · exact hstatement
  · generalize t.kind = kind at hword ⊢
    generalize t'.kind = kind' at hword ⊢
    cases hword <;> exact hstatement

theorem runs_topLevels {closing : Token.Kind} (hclosing : closing.isMark = true) {depth depth' : Nat}
    (hd : n ≤ depth) (hd' : n ≤ depth') (hb : n ≤ b) (hb' : n ≤ b') (xs : List Token) :
    Runs T n xs (topLevels closing depth b) (topLevels closing depth' b')
      fun body ys => Nonempty (Series (Top T.left.origin) xs body ys) := by
  refine .loop (D := fun xs body ys => Nonempty (Series (Top T.left.origin) xs body ys)) ?_ hb hb' xs
  refine fun k _ _ hk _ _ ih xs => .counted fun hlen => .lookFor hclosing ?_ ?_
  · exact fun _ _ _ _ => .pure ⟨.nil⟩
  · intro t t' halike _ _
    simp only [halike.kind_iff (.inr rfl)]
    split
    · exact .fail halike (fun _ => _) (by simp)
    · refine .bind ((runs_topLevel hd hd' xs).mono (by omega)) fun s ys _ ⟨first⟩ => ?_
      have hless := first.length_lt
      exact .bind ((ih ys).within (by omega)) fun body zs _ ⟨rest⟩ => .pure ⟨.cons first rest⟩

theorem runs_ending (p : Program) (xs : List Token) : Runs T n xs (do
    let _ ← expect .relax "at end of program"
    let _ ← accept .semicolon
    let last ← peek
    if last.kind = .eof then return p else fail (.trailing last) last.location) (do
    let _ ← expect .relax "at end of program"
    let _ ← accept .semicolon
    let last ← peek
    if last.kind = .eof then return p else fail (.trailing last) last.location)
    fun q ys => q = p ∧ ys = [] ∧ ∃ relax zs stopped, xs = relax :: zs ∧ relax.kind = .relax ∧
      Nonempty (Optional .semicolon zs stopped []) := by
  refine .expect rfl ?_
  rintro relax zs rfl hrelax
  refine .bind (runs_optional rfl zs) fun stopped ys _ stop => .lookForEnd ?_ fun _ _ halike =>
    .fail halike _ (by simp)
  rintro rfl
  exact .pure ⟨rfl, rfl, relax, zs, stopped, rfl, hrelax, stop⟩

/-- **Whatever is read as a program can be derived as one**, and no tokens are left. -/
theorem runs_program (hb : n ≤ b) (hb' : n ≤ b') (xs : List Token) :
    Runs T n xs (program b) (program b') fun p ys =>
      ys = [] ∧ Nonempty (Sentence T.left.origin xs p) := by
  refine .lookFor rfl ?_ fun _ _ halike _ _ => .fail halike _ (by simp)
  rintro focus xs rfl hfocus
  refine (Runs.advance (.accept rfl ?_ fun _ => ?_)).mono (Nat.le_succ n)
  · rintro l ys rfl hl
    refine .bind (runs_topLevels rfl hb hb' hb hb' ys) fun body zs _ ⟨tops⟩ => .expect rfl ?_
    rintro r ws rfl hr
    refine (runs_ending ⟨body⟩ ws).weaken ?_
    rintro _ _ ⟨rfl, rfl, relax, us, stopped, rfl, hrelax, ⟨stop⟩⟩
    exact ⟨rfl, ⟨.braced hfocus hl tops hr hrelax stop⟩⟩
  · refine .bind (runs_topLevels rfl hb hb' hb hb' xs) fun body zs _ ⟨tops⟩ => ?_
    refine (runs_ending ⟨body⟩ zs).weaken ?_
    rintro _ _ ⟨rfl, rfl, relax, us, stopped, rfl, hrelax, ⟨stop⟩⟩
    exact ⟨rfl, ⟨.bare hfocus tops hrelax stop⟩⟩

/-- **Tokens that are alike up to the first end marker spell the same program or fail alike**, and
the program can be derived from them. -/
theorem ofTokens_alike {origin : Origin} {tokens tokens' : List Token} {synonyms : Prop}
    (htext : List.Forall₂ (Token.Alike synonyms) (of origin (Cursor.closed tokens)).text
      (of origin (Cursor.closed tokens')).text)
    (hstop : (of origin (Cursor.closed tokens)).stop.Alike synonyms
      (of origin (Cursor.closed tokens')).stop) :
    (∃ p, Program.ofTokens origin tokens = .ok p ∧ Program.ofTokens origin tokens' = .ok p ∧
      Nonempty (Sentence origin (tokens.takeWhile (·.kind ≠ .eof)) p)) ∨
    ∃ e e', Program.ofTokens origin tokens = .error e ∧ Program.ofTokens origin tokens' = .error e' ∧
      e.Alike synonyms e' ∧ e.cause.From (tokens.takeWhile (·.kind ≠ .eof)) := by
  let T : Twins := ⟨of origin (Cursor.closed tokens), of origin (Cursor.closed tokens'),
    synonyms, rfl, plain_of origin _, htext, hstop⟩
  have hlt := length_text_lt origin (exists_eof_closed tokens)
  have hlt' := length_text_lt origin (exists_eof_closed tokens')
  rw [← htext.length_eq] at hlt'
  obtain ⟨ys, _, hagree⟩ := runs_program (T := T) hlt hlt' T.left.text (Nat.lt_succ_self _)
    (suffix_refl _)
  have hcursor : T.right.cursor T.left.text = T.right.cursor T.right.text := by
    simp only [cursor, T.text.length_eq]
  rw [hcursor] at hagree
  rw [ofTokens_eq_program, ofTokens_eq_program]
  change T.Agree _ _ (program _ (cursor _ (Tape.text _))) _ at hagree
  generalize program _ (cursor (of origin (Cursor.closed tokens)) _) = r at hagree ⊢
  generalize program _ (cursor (of origin (Cursor.closed tokens')) _) = r' at hagree ⊢
  cases hagree with
  | ok known => exact .inl ⟨_, rfl, rfl, takeWhile_closed tokens ▸ known.2⟩
  | error alike source => exact .inr ⟨_, _, rfl, rfl, alike, takeWhile_closed tokens ▸ source⟩

/-- **Whatever tokens spell can be derived from those before the first end marker.** -/
theorem sentence_of_ofTokens {origin : Origin} {tokens : List Token} {p : Program}
    (h : Program.ofTokens origin tokens = .ok p) :
    Nonempty (Sentence origin (tokens.takeWhile (·.kind ≠ .eof)) p) := by
  have htext : List.Forall₂ (Token.Alike False) (of origin (Cursor.closed tokens)).text _ :=
    Token.Alike.list_of_eq rfl
  obtain ⟨q, hq, _, d⟩ | ⟨e, _, he, _⟩ := ofTokens_alike htext (.refl _)
  · obtain rfl := Except.ok.inj (h.symm.trans hq)
    exact d
  · cases h.symm.trans he

end Trance.Grammar
