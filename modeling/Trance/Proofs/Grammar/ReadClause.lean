import Trance.Proofs.Grammar.ReadPhrase

/-!
# Parsers read every derivation of a statement

The statements, declarations and programs that can be derived are read. As with expressions this
needs something of the tokens behind a derivation, but only little: a branch must not be followed
by the word for an alternative, and a list of statements or members ends at a closing brace.
-/

namespace Trance.Grammar

open List Trance.Parser Shape

variable {origin : Origin} {xs ys zs : List Token}

/-! ## Repetition -/

section

variable {α : Type} {p : Parser α} {a : α} {as : List α} {n k : Nat}

abbrev Proceeds (kind : Token.Kind) : Prop := kind ≠ .rightBrace ∧ kind ≠ .eof

theorem reads_untilBrace_nil (hk : xs.length < k) (hxs : Starts (· = .rightBrace) xs) :
    Reads origin (untilBrace p k) xs [] xs := by
  obtain _ | k := k
  · omega
  refine .bind (.kind xs) ?_
  rw [if_pos (by simp [show firstKind xs = .rightBrace from hxs])]
  exact .pure [] xs

theorem reads_untilBrace_cons (hxs : Starts Proceeds xs) (ha : Reads origin p xs a ys)
    (has : Reads origin (untilBrace p k) ys as zs) :
    Reads origin (untilBrace p (k + 1)) xs (a :: as) zs := by
  refine .bind (.kind xs) ?_
  rw [if_neg (by simpa using show Proceeds (firstKind xs) from hxs)]
  exact .bind ha (.bind has (.pure _ zs))

variable {item : List Token → α → List Token → Type}

theorem Series.reads_untilBrace (h : ∀ {xs a ys}, item xs a ys → xs.length < n →
      Reads origin p xs a ys)
    (hlt : ∀ {xs a ys}, item xs a ys → ys.length < xs.length)
    (hstarts : ∀ {xs a ys}, item xs a ys → Starts Proceeds xs)
    (d : Series item xs as ys) (hn : xs.length < n) (hk : xs.length < k)
    (hys : Starts (· = .rightBrace) ys) : Reads origin (untilBrace p k) xs as ys := by
  induction d generalizing k with
  | nil => exact reads_untilBrace_nil hk hys
  | cons first rest ih =>
    have := hlt first
    obtain _ | k := k
    · omega
    exact reads_untilBrace_cons (hstarts first) (h first hn) (ih (by omega) (by omega) hys)

theorem Listing.reads_commaSeparated {ends : Token.Kind → Prop} (hcomma : ends .comma)
    (h : ∀ {xs a ys}, item xs a ys → Starts ends ys → Reads origin p xs a ys)
    (hlt : ∀ {xs a ys}, item xs a ys → ys.length < xs.length)
    (d : Listing item xs as ys) (hk : xs.length < k) (hys : Starts ends ys)
    (hys' : Avoids .comma ys) : Reads origin (commaSeparated p k) xs as ys := by
  induction d generalizing k with
  | last only =>
    obtain _ | k := k
    · omega
    exact .bind (h only hys) (.ifRefused hys' (.pure _ _))
  | @more xs a comma ys as zs first isComma rest ih =>
    have hlen := hlt first
    simp only [length_cons] at hlen
    obtain _ | k := k
    · omega
    have hends : Starts ends (comma :: ys) := by rw [starts_cons, isComma]; exact hcomma
    exact .bind (h first hends) (.ifTaken isComma (.bind (ih (by omega) hys hys') (.pure _ zs)))

end

/-! ## Declarations without statements -/

section

variable {n : Nat}

theorem TypeMark.reads {type : Option String} (d : TypeMark xs type ys) (hys : Avoids .colon ys) :
    Reads origin typeAnnotation xs type ys := by
  cases d with
  | absent => exact .ifRefused hys (.pure none xs)
  | present hcolon hname =>
    exact .ifTaken hcolon (.bind (.identifier hname _ ys) (.pure _ ys))

variable {start : Start} {v : Variable}

theorem Opening.reads (d : Opening xs start ys) (hn : xs.length < n)
    (hys : Starts (· = .semicolon) ys) :
    Reads origin (Parser.start (expression n)) xs start ys := by
  cases d with
  | unset =>
    exact .ifRefused (hys.mono fun _ heq => heq ▸ by decide)
      (.ifRefused (hys.mono fun _ heq => heq ▸ by decide) (.pure _ _))
  | value hequals expr =>
    simp only [length_cons] at hn
    exact .ifTaken hequals
      (.bind (expr.reads (by omega) (hys.mono fun _ heq => heq ▸ by decide)) (.pure _ _))
  | external hfrom hword =>
    refine .ifRefused (by simp [hfrom]) (.ifTaken hfrom (.bind (.expect hword _ _) (.pure _ _)))

theorem Opening.avoids_colon (d : Opening xs start ys) (hys : Starts (· = .semicolon) ys) :
    Avoids .colon xs := by
  cases d with
  | unset => exact hys.mono fun _ heq => heq ▸ by decide
  | value h _ | external h _ => simp [h]

theorem VariableDecl.reads {word : Token} (d : VariableDecl (word :: xs) v ys)
    (hn : xs.length < n) : Reads origin (variableRest (expression n) word.location) xs v ys := by
  obtain ⟨_, hname, typed, opening, hstop⟩ := d
  have hlen := typed.suffix.length_le
  simp only [length_cons] at hn
  exact .bind (.identifier hname _ _) (.bind (typed.reads (opening.avoids_colon hstop))
    (.bind (opening.reads (by omega) hstop) (.bind (.expect hstop _ ys) (.pure _ ys))))

theorem ParamDecl.reads {param : Param} (d : ParamDecl xs param ys) (hys : Avoids .colon ys) :
    Reads origin Parser.param xs param ys := by
  obtain ⟨hname, typed⟩ := d
  exact .bind (.identifier hname _ _) (.bind (typed.reads hys) (.pure _ ys))

theorem ParamList.reads {params : List Param} (d : ParamList xs params ys) (hn : xs.length < n) :
    Reads origin (Parser.params n) xs params ys := by
  cases d with
  | @none l r _ hl hr =>
    refine .bind (.expect hl _ _) (.bind ?_ (.bind (.expect hr _ ys) (.pure _ ys)))
    refine .bind (.peek r ys) ?_
    rw [if_pos hr]
    exact .pure [] _
  | @some l xs _ r _ hl listing hr =>
    simp only [length_cons] at hn
    refine .bind (.expect hl _ _) (.bind ?_ (.bind (.expect hr _ ys) (.pure _ ys)))
    refine .peekKind fun t ht _ => ?_
    have hstart : firstKind xs = .identifier := by
      cases listing with
      | last only => obtain ⟨h, _⟩ := only; exact h
      | more first _ _ => obtain ⟨h, _⟩ := first; exact h
    rw [if_neg (by rw [ht, hstart]; decide)]
    have hends : Starts (· ≠ .colon) (r :: ys) := by simp [hr]
    exact listing.reads_commaSeparated (by decide) ParamDecl.reads ParamDecl.length_lt
      (by omega) hends (by simp [hr])

theorem FieldOpening.reads (d : FieldOpening xs start ys) (hn : xs.length < n)
    (hys : Starts (· = .semicolon) ys) :
    Reads origin (fieldStart (expression n)) xs start ys := by
  cases d with
  | unset => exact .ifRefused (hys.mono fun _ heq => heq ▸ by decide) (.pure _ _)
  | value hequals expr =>
    simp only [length_cons] at hn
    exact .ifTaken hequals
      (.bind (expr.reads (by omega) (hys.mono fun _ heq => heq ▸ by decide)) (.pure _ _))

theorem Optional.reads {kind : Token.Kind} {b : Bool} (d : Optional kind xs b ys)
    (hys : Avoids kind ys) : Reads origin (accept kind) xs b ys := by
  cases d with
  | absent => exact .refuse hys
  | present h => exact .accept h ys

theorem FieldDecl.reads (d : FieldDecl xs v ys) (hn : xs.length < n) :
    Reads origin (tranceifyField (expression n)) xs v ys := by
  obtain ⟨induce, hname, hcolon, htype, opening, hstop⟩ := d
  have hlen := induce.suffix.length_le
  simp only [length_cons] at hlen hn
  refine .hereThen fun loc hloc => ?_
  obtain rfl := hloc _ rfl
  exact .bind (induce.reads (by simp [hname])) (.bind (.identifier hname _ _)
    (.bind (.expect hcolon _ _) (.bind (.identifier htype _ _)
      (.bind (opening.reads (by omega) hstop) (.bind (.expect hstop _ ys) (.pure _ ys))))))

theorem FieldDecl.proceeds (d : FieldDecl xs v ys) : Starts Proceeds xs := by
  obtain ⟨induce, hname, _, _, _, _⟩ := d
  cases induce with
  | absent => simp [hname, Proceeds]
  | present h => simp [h, Proceeds]

theorem TranceifyDecl.reads {word : Token} {decl : Tranceify}
    (d : TranceifyDecl (word :: xs) decl ys) (hn : xs.length < n) :
    Reads origin (tranceifyRest (expression n) n word.location) xs decl ys := by
  obtain ⟨_, hname, hl, members, hr⟩ := d
  simp only [length_cons] at hn
  exact .bind (.identifier hname _ _) (.bind (.expect hl _ _)
    (.bind (members.reads_untilBrace FieldDecl.reads FieldDecl.length_lt FieldDecl.proceeds
      (show _ < n by omega) (by omega) hr) (.bind (.expect hr _ ys) (.pure _ ys))))

theorem OptionalPhrase.reads {closing : Token.Kind} {e : Option Expr} (d : OptionalPhrase xs e ys)
    (hn : xs.length < n) (hclosing : closing ∉ openers ∧ Ends closing)
    (hys : Starts (· = closing) ys) :
    Reads origin (optionalUntil closing (expression n)) xs e ys := by
  refine .peekKind fun t ht _ => ?_
  cases d with
  | absent =>
    rw [if_pos (ht.trans hys)]
    exact .pure none xs
  | present expr =>
    have hne : t.kind ≠ closing := by
      rw [ht]
      rintro rfl
      exact hclosing.1 expr.starts_openers
    rw [if_neg hne]
    exact .bind (expr.reads hn (hys.mono fun _ heq => heq ▸ hclosing.2)) (.pure _ ys)

theorem LoopOpening.reads {s : Option Stmt} (d : LoopOpening xs s ys) (hn : xs.length < n) :
    Reads origin (loopStart (expression n)) xs s ys := by
  refine .hereThen fun loc hloc => ?_
  cases d with
  | none hstop => exact .ifTaken hstop (.pure _ ys)
  | @induce xs v ys decl =>
    have hword := decl.starts
    obtain _ | ⟨word, xs⟩ := xs
    · simp at hword
    obtain rfl := hloc word rfl
    simp only [length_cons, starts_cons] at hn hword
    exact .ifRefused (by simp [hword]) (.ifTaken hword (.bind (decl.reads (by omega)) (.pure _ ys)))
  | @expr first xs e stop ys expr hstop =>
    obtain rfl := hloc first rfl
    have hfirst := expr.starts_openers
    have hends : Starts Ends (stop :: ys) := starts_of_kind hstop (by decide) ys
    refine .ifRefused (hfirst.mono fun _ hmem heq => ?_)
      (.ifRefused (hfirst.mono fun _ hmem heq => ?_)
      (.bind (expr.reads hn hends) (.bind (.expect hstop _ ys) (.pure _ ys))))
    · exact absurd (heq ▸ hmem) (by decide)
    · exact absurd (heq ▸ hmem) (by decide)

theorem SuggestionName.reads {name : String} (d : SuggestionName xs name ys) :
    Reads origin suggestionName xs name ys := by
  cases d with
  | named h => exact .ifRefused (by simp [h]) (.identifier h _ ys)
  | constructor h => exact .ifTaken h (.pure _ ys)

end

/-! ## What is to be shown -/

abbrev branchTail (stmt : Parser Stmt) (bound : Nat) (cond : Expr) (yes : List Stmt)
    (loc : Location) :
    Parser Stmt := do
  if ← accept .elseWord then
    return .branch cond yes (some (← alternative stmt bound)) loc
  else
    return .branch cond yes none loc

/-- The tokens of a derivation of a shape are read by the parser of the shape. A branch is read as
a statement. -/
def Shape.Read (origin : Origin) : (shape : Shape) → List Token → shape.Tree → List Token → Prop
  | .statement, xs, s, ys | .branch, xs, s, ys => ∀ n, xs.length < n → Avoids .elseWord ys →
      Reads origin (Parser.statement n) xs s ys
  | .statements, xs, ss, ys => ∀ n k, xs.length < n → xs.length < k → Starts (· = .rightBrace) ys →
      Reads origin (untilBrace (Parser.statement n) k) xs ss ys
  | .block, xs, body, ys => ∀ n k context, xs.length < n → xs.length < k →
      Reads origin (Parser.block (Parser.statement n) k context) xs body ys
  | .alternative, xs, no, ys => ∀ n k cond yes loc, xs.length < n → xs.length < k →
    Avoids .elseWord ys →
      Reads origin (branchTail (Parser.statement n) k cond yes loc) xs (.branch cond yes no loc) ys
  | .suggestion loc imperative dominant, xs, decl, ys => ∀ n k, xs.length < n → xs.length < k →
      Reads origin (suggestionRest (Parser.statement n) k loc imperative dominant) xs decl ys
  | .declared dominant, xs, decl, ys => ∀ n k, xs.length < n → xs.length < k →
      Reads origin (memberDecl (expression k) (Parser.statement n) k dominant) xs decl ys
  | .member, xs, m, ys => ∀ n k, xs.length < n → xs.length < k →
      Reads origin (Parser.member (expression k) (Parser.statement n) k) xs m ys
  | .members, xs, ms, ys => ∀ n k j, xs.length < n → xs.length < k → xs.length < j →
    Starts (· = .rightBrace) ys →
      Reads origin (untilBrace (Parser.member (expression k) (Parser.statement n) k) j) xs ms ys

/-! ## Lists and blocks -/

section

variable {s : Stmt} {ss body yes : List Stmt} {no : Option (List Stmt)} {l r word mark : Token}
  {decl : Suggestion}

theorem Clause.avoids_else (d : Clause origin .statements xs ss ys)
    (hys : Starts (· = .rightBrace) ys) : Avoids .elseWord xs := by
  cases d with
  | nil => exact hys.mono fun _ heq => heq ▸ by decide
  | cons first _ =>
    refine first.starts.mono ?_
    rintro _ hmem rfl
    exact absurd hmem (by decide)

theorem Clause.proceeds (d : Clause origin .statement xs s ys) : Starts Proceeds xs := by
  have all : ∀ kind ∈ statementOpeners, Proceeds kind := by decide
  exact d.starts.mono all

theorem read_cons (d : Clause origin .statement xs s ys) (h : Read origin .statement xs s ys)
    (d' : Clause origin .statements ys ss zs) (h' : Read origin .statements ys ss zs) :
    Read origin .statements xs (s :: ss) zs := by
  intro n k hn hk hzs
  have hlen := d.length_lt
  obtain _ | k := k
  · omega
  exact reads_untilBrace_cons d.proceeds (h n hn (d'.avoids_else hzs))
    (h' n k (by omega) (by omega) hzs)

/-! ## Statements by their first token -/

theorem read_statementOf (h : ∀ n, xs.length < n → Avoids .elseWord ys →
      Reads origin (statementOf (Parser.statement n) (n + 1) word) (word :: xs) s ys) :
    Read origin .statement (word :: xs) s ys := by
  intro n hn hys
  simp only [length_cons] at hn
  obtain _ | n := n
  · omega
  exact .bind (.peek word xs) (h n (by omega) hys)

theorem Clause.starts_brace (d : Clause origin .block xs body ys) : Starts (· = .leftBrace) xs := by
  cases d; assumption

theorem read_elseBlock (hword : word.kind = .elseWord) (d : Clause origin .block xs body ys)
    (h : Read origin .block xs body ys) :
    Read origin .alternative (word :: xs) (some body) ys := by
  intro n k cond yes loc hn hk _
  simp only [length_cons] at hn hk
  have hblock : Reads origin (alternative (Parser.statement n) k) xs body ys := by
    refine .peekKind fun t ht _ => ?_
    rw [if_neg (by rw [ht, show firstKind xs = .leftBrace from d.starts_brace]; decide)]
    exact h n k _ (by omega) (by omega)
  exact .ifTaken hword (.bind hblock (.pure _ ys))

theorem read_elseBranch (hword : word.kind = .elseWord) (d : Clause origin .branch xs s ys)
    (h : Read origin .branch xs s ys) :
    Read origin .alternative (word :: xs) (some [s]) ys := by
  intro n k cond yes loc hn hk hys
  simp only [length_cons] at hn
  have hbranch : Reads origin (alternative (Parser.statement n) k) xs [s] ys := by
    refine .peekKind fun t ht _ => ?_
    rw [if_pos (ht.trans d.starts_if)]
    exact .bind (h n (by omega) hys) (.pure _ ys)
  exact .ifTaken hword (.bind hbranch (.pure _ ys))

variable {cond e : Expr} {ws us : List Token}

theorem read_branch (hword : word.kind = .ifWord) (hl : l.kind = .leftParen)
    (d : Phrase .expression xs cond (r :: ys)) (hr : r.kind = .rightParen)
    (dyes : Clause origin .block ys yes zs) (hyes : Read origin .block ys yes zs)
    (hno : Read origin .alternative zs no ws) :
    Read origin .branch (word :: l :: xs) (.branch cond yes no word.location) ws := by
  refine read_statementOf fun n hn hws => ?_
  have hlen := d.length_lt
  have hlen' := dyes.length_le
  simp only [length_cons, least] at hn hlen hlen'
  unfold statementOf
  simp only [hword]
  exact .bind (.advance word (l :: xs)) (.bind (.expect hl _ xs)
    (.bind (d.reads (by omega) (starts_of_kind hr (by decide) ys)) (.bind (.expect hr _ ys)
      (.bind (hyes n (n + 1) _
        (by omega) (by omega)) (hno n (n + 1) _ _ _ (by omega) (by omega) hws)))))

theorem read_whileLoop (hword : word.kind = .whileWord) (hl : l.kind = .leftParen)
    (d : Phrase .expression xs cond (r :: ys)) (hr : r.kind = .rightParen)
    (h : Read origin .block ys body zs) :
    Read origin .statement (word :: l :: xs) (.whileLoop cond body word.location) zs := by
  refine read_statementOf fun n hn _ => ?_
  have hlen := d.length_lt
  simp only [length_cons] at hn hlen
  unfold statementOf
  simp only [hword]
  exact .bind (.advance word (l :: xs)) (.bind (.expect hl _ xs)
    (.bind (d.reads (by omega) (starts_of_kind hr (by decide) ys)) (.bind (.expect hr _ ys)
      (.bind (h n (n + 1) _ (by omega) (by omega)) (.pure _ zs)))))

theorem read_loop {init : Option Stmt} {cond step : Option Expr} {stop : Token}
    (hword : word.kind = .loop) (hl : l.kind = .leftParen) (opening : LoopOpening xs init ys)
    (condition : OptionalPhrase ys cond (stop :: zs)) (hstop : stop.kind = .semicolon)
    (stepping : OptionalPhrase zs step (r :: ws)) (hr : r.kind = .rightParen)
    (h : Read origin .block ws body us) :
    Read origin .statement (word :: l :: xs) (.loop init cond step body word.location) us := by
  refine read_statementOf fun n hn _ => ?_
  have hinit := opening.suffix.length_le
  have hcond := condition.suffix.length_le
  have hstep := stepping.suffix.length_le
  simp only [length_cons] at hn hcond hstep
  unfold statementOf
  simp only [hword]
  exact .bind (.advance word (l :: xs)) (.bind (.expect hl _ xs) (.bind (opening.reads (by omega))
    (.bind (condition.reads (by omega) (by decide) hstop) (.bind (.expect hstop _ zs)
      (.bind (stepping.reads (by omega) (by decide) hr) (.bind (.expect hr _ ws)
        (.bind (h n (n + 1) _ (by omega) (by omega)) (.pure _ us))))))))

theorem read_induce {v : Variable} (d : VariableDecl xs v ys) :
    Read origin .statement xs (.induce v) ys := by
  have hword := d.starts
  obtain _ | ⟨word, xs⟩ := xs
  · simp at hword
  simp only [starts_cons] at hword
  refine read_statementOf fun n hn _ => ?_
  unfold statementOf
  simp only [hword]
  exact .bind (.advance word xs) (.bind (d.reads (by omega)) (.pure _ ys))

/-! ## Suggestions -/

theorem read_signature {loc : Location} {imperative dominant : Bool} {name : String}
    {params : List Param} {type : Option String} (named : SuggestionName xs name ys)
    (parameters : ParamList ys params zs) (typed : TypeMark zs type ws)
    (d : Clause origin .block ws body us) (h : Read origin .block ws body us) :
    Read origin (.suggestion loc imperative dominant) xs
      ⟨name, params, type, body, imperative, dominant, loc, origin⟩ us := by
  intro n k hn hk
  have hname := named.length_lt
  have hparams := parameters.length_lt
  have htype := typed.suffix.length_le
  have hbrace : Avoids .colon ws := d.starts_brace.mono fun _ heq => heq ▸ by decide
  refine .bind named.reads (.bind (parameters.reads (by omega)) (.bind (typed.reads hbrace)
    (.bind (h n k _ (by omega) (by omega)) (.cursor fun s hs _ => hs ▸ .pure _ us))))

/-! ## Sessions -/

section

variable {name : Token} {members : List Member} {m : Member} {declared : MemberDecl}
  {dominant exposed : Bool}

/-- The kinds of tokens that a member can start with, behind its modifiers. -/
def memberOpeners : List Token.Kind := [.induce, .suggestion, .imperative, .constructor]

theorem Clause.starts_declared (d : Clause origin (.declared dominant) xs declared ys) :
    Starts (· ∈ memberOpeners) xs := by
  cases d with
  | field decl => exact decl.starts.mono fun _ h => by simp [h, memberOpeners]
  | method h _ | imperativeMethod h _ _ | constructor h _ => simp [h, memberOpeners]

theorem read_variableMember {v : Variable} (d : VariableDecl xs v ys) :
    Read origin (.declared dominant) xs (.field v) ys := by
  intro n k _ hk
  have hword := d.starts
  obtain _ | ⟨word, xs⟩ := xs
  · simp at hword
  simp only [starts_cons, length_cons] at hword hk
  refine .bind (.peek word xs) ?_
  simp only [hword]
  exact .bind (.advance word xs) (.bind (d.reads (by omega)) (.pure _ ys))

theorem starts_dominance (dominance : Optional .dominant xs dominant ys)
    (d : Clause origin (.declared dominant) ys declared zs) :
    Starts (· ∈ Token.Kind.dominant :: memberOpeners) xs := by
  cases dominance with
  | absent => exact d.starts_declared.mono fun _ => mem_cons_of_mem _
  | present h => simp [h]

theorem read_member (visibility : Visibility xs exposed ys)
    (dominance : Optional .dominant ys dominant zs)
    (d : Clause origin (.declared dominant) zs declared ws)
    (h : Read origin (.declared dominant) zs declared ws) :
    Read origin .member xs ⟨declared, exposed, dominant⟩ ws := by
  intro n k hn hk
  have hvisible := visibility.suffix.length_le
  have hdominant := dominance.suffix.length_le
  have hrest : Reads origin (do
      let dominant ← accept .dominant
      return (⟨← memberDecl (expression k) (Parser.statement n) k dominant, exposed,
        dominant⟩ : Member)) ys ⟨declared, exposed, dominant⟩ ws := by
    refine .bind (dominance.reads (d.starts_declared.mono ?_))
      (.bind (h n k (by omega) (by omega)) (.pure _ ws))
    rintro _ hmem rfl
    exact absurd hmem (by decide)
  cases visibility with
  | unmarked =>
    have hstarts := starts_dominance dominance d
    refine .bind (.refuse (hstarts.mono ?_)) (.bind (.refuse (hstarts.mono ?_)) hrest)
    · rintro _ hmem rfl
      exact absurd hmem (by decide)
    · rintro _ hmem rfl
      exact absurd hmem (by decide)
  | exposed ht => exact .bind (.refuse (by simp [ht])) (.bind (.accept ht _) hrest)
  | concealed ht => exact .bind (.accept ht _) (.bind (.pure false _) hrest)

theorem Clause.proceeds_member (d : Clause origin .member xs m ys) : Starts Proceeds xs := by
  have all : ∀ kind ∈ Token.Kind.dominant :: memberOpeners, Proceeds kind := by decide
  cases d with
  | member visibility dominance d =>
    cases visibility with
    | unmarked => exact (starts_dominance dominance d).mono all
    | exposed h | concealed h => simp [h, Proceeds]

theorem read_moreMembers (d : Clause origin .member xs m ys) (h : Read origin .member xs m ys)
    (h' : Read origin .members ys members zs) :
    Read origin .members xs (m :: members) zs := by
  intro n k j hn hk hj hzs
  have hlen := d.length_le
  simp only [least] at hlen
  obtain _ | j := j
  · omega
  exact reads_untilBrace_cons d.proceeds_member (h n k hn hk)
    (h' n k j (by omega) (by omega) (by omega) hzs)

theorem read_session (hword : word.kind = .session) (hname : name.kind = .identifier)
    (hl : l.kind = .leftBrace) (h : Read origin .members xs members (r :: ys))
    (hr : r.kind = .rightBrace) : Read origin .statement (word :: name :: l :: xs)
      (.session ⟨name.lexeme, members, word.location⟩) ys := by
  refine read_statementOf fun n hn _ => ?_
  simp only [length_cons] at hn
  unfold statementOf
  simp only [hword]
  exact .bind (.advance word _) (.bind (.bind (.identifier hname _ _) (.bind (.expect hl _ xs)
    (.bind (h n (n + 1) (n + 1) (by omega) (by omega) (by omega) hr)
      (.bind (.expect hr _ ys) (.pure _ ys))))) (.pure _ ys))

theorem read_tranceify {decl : Tranceify} (d : TranceifyDecl xs decl ys) :
    Read origin .statement xs (.tranceify decl) ys := by
  have hword := d.starts
  obtain _ | ⟨word, xs⟩ := xs
  · simp at hword
  simp only [starts_cons] at hword
  refine read_statementOf fun n hn _ => ?_
  unfold statementOf
  simp only [hword]
  exact .bind (.advance word xs) (.bind (d.reads (by omega)) (.pure _ ys))

end

/-! ## Statements on one line -/

variable {stop name : Token}

theorem read_assert {message : Option String} (hword : word.kind = .assert)
    (d : Phrase .expression xs cond ys) (stated : Message ys message (stop :: zs))
    (hstop : stop.kind = .semicolon) :
    Read origin .statement (word :: xs) (.assert cond message word.location) zs := by
  refine read_statementOf fun n hn _ => ?_
  unfold statementOf
  simp only [hword]
  refine .bind (.advance word xs) ?_
  cases stated with
  | absent =>
    exact .bind (d.reads (by omega) (starts_of_kind hstop (by decide) zs)) (.bind (.peek stop zs)
      (.bind (.refuse (by simp [hstop])) (.bind (.expect hstop _ zs) (.pure _ zs))))
  | @present t _ ht =>
    exact .bind (d.reads (by omega) (starts_of_kind ht (by decide) _)) (.bind (.peek t _)
      (.bind (.accept ht _) (.bind (.expect hstop _ zs) (.pure _ zs))))

theorem read_expr (d : Phrase .expression (word :: xs) e (stop :: ys))
    (hstop : stop.kind = .semicolon) :
    Read origin .statement (word :: xs) (.expr e word.location) ys := by
  refine read_statementOf fun n hn _ => ?_
  have hreads : Reads origin (do
      let value ← expression (n + 1)
      let _ ← expect .semicolon "after expression"
      return Stmt.expr value word.location) (word :: xs) (.expr e word.location) ys :=
    .bind (d.reads (by simp only [length_cons]; omega) (starts_of_kind hstop (by decide) ys))
      (.bind (.expect hstop _ ys) (.pure _ ys))
  have hword : word.kind ∈ openers := d.starts_openers
  simp only [openers, primaryOpeners, signs, map_cons, map_nil, cons_append,
    nil_append, mem_cons, not_mem_nil, or_false] at hword
  unfold statementOf
  rcases hword with h | h | h | h | h | h | h | h | h | h <;> simp only [h] <;> exact hreads

end

/-! ## All shapes -/

/-- **The tokens of a derivation are read by the parser of its shape.** -/
theorem Clause.read {shape : Shape} {tree : shape.Tree} (d : Clause origin shape xs tree ys) :
    shape.Read origin xs tree ys := by
  induction d with
  | nil => exact fun _ _ _ hk hxs => reads_untilBrace_nil hk hxs
  | cons d d' ih ih' => exact read_cons d ih d' ih'
  | @block _ xs _ _ ys hl _ hr ih =>
    intro n k context hn hk
    simp only [length_cons] at hn hk
    exact .bind (.expect hl _ xs)
      (.bind (ih n k (by omega) (by omega) hr) (.bind (.expect hr _ ys) (.pure _ ys)))
  | branch hword hl d hr dyes _ ih ih' => exact read_branch hword hl d hr dyes ih ih'
  | @noElse xs => exact fun _ _ _ _ _ _ _ hxs => .ifRefused hxs (.pure _ xs)
  | elseBlock hword d ih => exact read_elseBlock hword d ih
  | elseBranch hword d ih => exact read_elseBranch hword d ih
  | induce d => exact read_induce d
  | branching _ ih => exact ih
  | whileLoop hword hl d hr _ ih => exact read_whileLoop hword hl d hr ih
  | loop hword hl opening condition hstop stepping hr _ ih =>
    exact read_loop hword hl opening condition hstop stepping hr ih
  | @suggestion word xs _ ys hword _ ih =>
    refine read_statementOf fun n hn _ => ?_
    unfold statementOf
    simp only [hword]
    exact .bind (.bind (.here word xs)
      (.bind (.refuse (by simp [hword])) (.bind (.refuse (by simp [hword]))
      (.bind (.expect hword _ xs) (ih n (n + 1) (by omega) (by omega)))))) (.pure _ ys)
  | @imperative mark word xs _ ys hmark hword _ ih =>
    refine read_statementOf fun n hn _ => ?_
    simp only [length_cons] at hn
    unfold statementOf
    simp only [hmark]
    exact .bind (.bind (.here mark _) (.bind (.accept hmark _) (.bind (.pure false _)
      (.bind (.expect hword _ xs) (ih n (n + 1) (by omega) (by omega)))))) (.pure _ ys)
  | @dominant mark word xs _ ys hmark hword _ ih =>
    refine read_statementOf fun n hn _ => ?_
    simp only [length_cons] at hn
    unfold statementOf
    simp only [hmark]
    exact .bind (.bind (.here mark _) (.bind (.refuse (by simp [hmark])) (.bind (.accept hmark _)
      (.bind (.expect hword _ xs) (ih n (n + 1) (by omega) (by omega)))))) (.pure _ ys)
  | session hword hname hl _ hr ih => exact read_session hword hname hl ih hr
  | tranceify d => exact read_tranceify d
  | @observe word xs _ _ ys hword d hstop =>
    refine read_statementOf fun n hn _ => ?_
    unfold statementOf
    simp only [hword]
    exact .bind (.advance word xs) (.bind (d.reads (by omega) (starts_of_kind hstop (by decide) ys))
      (.bind (.expect hstop _ ys) (.pure _ ys)))
  | @awaken word xs _ _ ys hword d hstop =>
    refine read_statementOf fun n hn _ => ?_
    unfold statementOf
    simp only [hword]
    exact .bind (.advance word xs) (.bind (d.reads (by omega) (by decide) hstop)
      (.bind (.expect hstop _ ys) (.pure _ ys)))
  | @snap word _ ys hword hstop | @sink word _ ys hword hstop =>
    refine read_statementOf fun n hn _ => ?_
    unfold statementOf
    simp only [hword]
    exact .bind (.advance word _) (.bind (.expect hstop _ ys) (.pure _ ys))
  | @sinkTo word _ _ ys hword hname hstop | @label word _ _ ys hword hname hstop =>
    refine read_statementOf fun n hn _ => ?_
    unfold statementOf
    simp only [hword]
    exact .bind (.advance word _) (.bind (.identifier hname _ _)
      (.bind (.expect hstop _ ys) (.pure _ ys)))
  | assert hword d stated hstop => exact read_assert hword d stated hstop
  | expr d hstop => exact read_expr d hstop
  | signature named parameters typed d ih => exact read_signature named parameters typed d ih
  | field d => exact read_variableMember d
  | @method _ word xs _ ys hword _ ih =>
    intro n k hn hk
    simp only [length_cons] at hn hk
    refine .bind (.peek word xs) ?_
    simp only [hword]
    exact .bind (.advance word xs) (.bind (ih n k (by omega) (by omega)) (.pure _ ys))
  | @imperativeMethod _ mark word xs _ ys hmark hword _ ih =>
    intro n k hn hk
    simp only [length_cons] at hn hk
    refine .bind (.peek mark (word :: xs)) ?_
    simp only [hmark]
    exact .bind (.advance mark _) (.bind (.expect hword _ xs)
      (.bind (ih n k (by omega) (by omega)) (.pure _ ys)))
  | @constructor _ word xs _ ys hword _ ih =>
    intro n k hn hk
    refine .bind (.peek word xs) ?_
    simp only [hword]
    exact .bind (ih n k hn hk) (.pure _ ys)
  | member visibility dominance d ih => exact read_member visibility dominance d ih
  | noMembers => exact fun _ _ _ _ _ hj hxs => reads_untilBrace_nil hj hxs
  | moreMembers d _ ih ih' => exact read_moreMembers d ih ih'

/-! ## Programs -/

/-- The kinds of tokens that a statement at the top level can start with. -/
def topOpeners : List Token.Kind := [.entrance, .mindLink] ++ statementOpeners

theorem Top.starts {s : Stmt} (d : Top origin xs s ys) : Starts (· ∈ topOpeners) xs := by
  cases d with
  | entrance h _ | mindLink h _ _ => simp [h, topOpeners]
  | statement d => exact d.starts.mono fun _ => mem_append_right _

variable {n : Nat} {body : List Stmt} {p : Program}

theorem Top.reads {s : Stmt} (d : Top origin xs s ys) (hn : xs.length < n)
    (hys : Avoids .elseWord ys) : Reads origin (topLevel n) xs s ys := by
  cases d with
  | @entrance word xs body ys hword block =>
    cases block with
    | block hl d hr =>
      simp only [length_cons] at hn
      refine .bind (.peek word _) ?_
      simp only [hword]
      exact .bind (.advance word _) (.bind (.expect hl _ _)
        (.bind (d.read n n (by omega) (by omega) hr) (.bind (.expect hr _ ys) (.pure _ ys))))
  | @mindLink word path stop _ hword hpath hstop =>
    refine .bind (.peek word _) ?_
    simp only [hword]
    exact .bind (.advance word _) (.bind (.expect hpath _ _)
      (.bind (.expect hstop _ ys) (.pure _ ys)))
  | statement d =>
    refine .peekKind fun t ht _ => ?_
    have hmem : t.kind ∈ statementOpeners := by rw [ht]; exact d.starts
    split
    · next h => exact absurd (h ▸ hmem) (by decide)
    · next h => exact absurd (h ▸ hmem) (by decide)
    · exact d.read n hn hys

def closers : List Token.Kind := [.rightBrace, .relax]

theorem Series.avoids_else {closing : Token.Kind} (hclosing : closing ∈ closers)
    (d : Series (Top origin) xs body ys) (hys : Starts (· = closing) ys) : Avoids .elseWord xs := by
  cases d with
  | nil =>
    have all : ∀ kind ∈ closers, kind ≠ .elseWord := by decide
    exact hys.mono fun _ heq => heq ▸ all closing hclosing
  | cons first _ =>
    refine first.starts.mono ?_
    rintro _ hmem rfl
    exact absurd hmem (by decide)

theorem Series.reads_topLevels {closing : Token.Kind} (hclosing : closing ∈ closers)
    (d : Series (Top origin) xs body ys) {k : Nat} (hn : xs.length < n) (hk : xs.length < k)
    (hys : Starts (· = closing) ys) : Reads origin (topLevels closing n k) xs body ys := by
  induction d generalizing k with
  | @nil xs =>
    obtain _ | k := k
    · omega
    refine .peekKind fun t ht _ => ?_
    rw [if_pos (ht.trans hys)]
    exact .pure [] xs
  | @cons xs s ys body zs first rest ih =>
    have hlen := first.length_lt
    obtain _ | k := k
    · omega
    refine .peekKind fun t ht _ => ?_
    have hmem : t.kind ∈ topOpeners := by rw [ht]; exact first.starts
    have all : ∀ kind ∈ topOpeners, kind ∉ closers ∧ kind ≠ .eof := by decide
    have hne : t.kind ≠ closing := fun h => (all t.kind hmem).1 (h ▸ hclosing)
    rw [if_neg hne, if_neg (all t.kind hmem).2]
    exact .bind (first.reads hn (rest.avoids_else hclosing hys))
      (.bind (ih (by omega) (by omega) hys) (.pure _ zs))

theorem Series.avoids_brace {relax : Token} (d : Series (Top origin) xs body (relax :: ys))
    (hrelax : relax.kind = .relax) : Avoids .leftBrace xs := by
  have hopens : ∀ kind ∈ topOpeners, kind ≠ .leftBrace := by decide
  cases d with
  | nil => simp [hrelax]
  | cons first _ => exact first.starts.mono hopens

theorem reads_ending {relax : Token} {stopped : Bool} (hrelax : relax.kind = .relax)
    (stop : Optional .semicolon ys stopped []) :
    Reads origin (do
      let _ ← expect .relax "at end of program"
      let _ ← accept .semicolon
      let last ← peek
      if last.kind = .eof then return p else fail (.trailing last) last.location)
      (relax :: ys) p [] := by
  refine .bind (.expect hrelax _ ys) (.bind (stop.reads (by simp)) (.peekKind fun t ht _ => ?_))
  rw [if_pos (show t.kind = .eof from ht)]
  exact .pure p []

/-- **Every derivable program is read.** -/
theorem Sentence.reads (d : Sentence origin xs p) (hn : xs.length < n) :
    Reads origin (program n) xs p [] := by
  cases d with
  | @bare focus xs body relax ys stopped hfocus tops hrelax stop =>
    simp only [length_cons] at hn
    refine .bind (.peek focus xs) ?_
    rw [if_pos hfocus]
    exact .bind (.advance focus xs) (.bind (.refuse (tops.avoids_brace hrelax))
      (.bind (tops.reads_topLevels
        (by decide) (by omega) (by omega) hrelax) (reads_ending hrelax stop)))
  | @braced focus l xs body r relax ys stopped hfocus hl tops hr hrelax stop =>
    simp only [length_cons] at hn
    refine .bind (.peek focus _) ?_
    rw [if_pos hfocus]
    exact .bind (.advance focus _) (.bind (.accept hl xs)
      (.bind (tops.reads_topLevels (by decide) (by omega) (by omega) hr)
        (.bind (.expect hr _ _) (reads_ending hrelax stop))))

/-- **Tokens before an end marker spell the program that is derived from them.** -/
theorem Sentence.ofTokens {tokens : List Token}
    (d : Sentence origin (tokens.takeWhile (·.kind ≠ .eof)) p) :
    Program.ofTokens origin tokens = .ok p := by
  rw [← takeWhile_closed] at d
  have hplain := Tape.plain_of origin (Cursor.closed tokens)
  have hreads := (d.reads (Tape.length_text_lt origin (exists_eof_closed tokens))).2
    (Tape.of origin (Cursor.closed tokens)) rfl (suffix_refl _)
    ⟨_, (append_nil _).symm, hplain⟩
  rw [ofTokens_eq_program]
  exact congrArg Prod.fst hreads

end Trance.Grammar
