import Trance.Proofs.Running.Visits

/-!
# What each task starts

For each task, all the visits that it starts, in the order in which they are started: what is
started first, and what is started once that is done with some result. A visit that starts nothing
is one whose task is done without expressions, statements and links. -/

namespace Trance

/-- Whether a statement starts one visit, and may start another one once that is done. -/
def Stmt.forks : Stmt → Bool
  | .branch .. | .loop (some _) .. => true
  | _ => false

namespace Visit

variable {cfg : Settings} {n k : Nat} {m : Machine} {w : Visit} {loc at' : Location} {name : String}

open Exec

/-! ## Expressions -/

theorem starts_binary {op : BinaryOp} {l r : Expr} :
    Starts cfg ⟨n + 1, .eval (.binary op l r loc), m⟩ w ↔
    w = ⟨n, .eval l, m⟩ ∨ ∃ v m₁, eval cfg n l m = .done v m₁ ∧
      (op = .conj → v.truthy = true) ∧ (op = .disj → v.truthy = false) ∧ w = ⟨n, .eval r, m₁⟩ := by
  constructor
  · intro edge
    cases edge with
    | first => exact .inl rfl
    | second done conj disj => exact .inr ⟨_, _, done, conj, disj, rfl⟩
  · rintro (rfl | ⟨v, m₁, done, conj, disj, rfl⟩)
    · exact .first
    · exact .second done conj disj

variable {e object : Expr} {given : List (String × Expr)} {args : List Value} {symbol : Symbol}
  {decl : Suggestion} {body rest : List Stmt} {s : Stmt}

theorem starts_unary {op : UnaryOp} :
    Starts cfg ⟨n + 1, .eval (.unary op e loc), m⟩ w ↔ w = ⟨n, .eval e, m⟩ := by
  constructor
  · rintro ⟨⟩
    rfl
  · rintro rfl
    exact .operand

theorem starts_field :
    Starts cfg ⟨n + 1, .eval (.field object name loc), m⟩ w ↔ w = ⟨n, .eval object, m⟩ := by
  constructor
  · rintro ⟨⟩
    rfl
  · rintro rfl
    exact .object

theorem starts_index {index : Expr} : Starts cfg ⟨n + 1, .eval (.index object index loc), m⟩ w ↔
    w = ⟨n, .eval object, m⟩ ∨ ∃ v m₁, eval cfg n object m = .done v m₁ ∧
    w = ⟨n, .eval index, m₁⟩ := by
  constructor
  · intro edge
    cases edge with
    | indexed => exact .inl rfl
    | index done => exact .inr ⟨_, _, done, rfl⟩
  · rintro (rfl | ⟨v, m₁, done, rfl⟩)
    · exact .indexed
    · exact .index done

theorem starts_assign {target : Expr} : Starts cfg ⟨n + 1, .eval (.assign target e loc), m⟩ w ↔
    w = ⟨n, .eval e, m⟩ ∨ ∃ v m₁, eval cfg n e m = .done v m₁ ∧ w = ⟨n, .place loc target, m₁⟩ := by
  constructor
  · intro edge
    cases edge with
    | assigned => exact .inl rfl
    | target done => exact .inr ⟨_, _, done, rfl⟩
  · rintro (rfl | ⟨v, m₁, done, rfl⟩)
    · exact .assigned
    · exact .target done

theorem starts_literal :
    Starts cfg ⟨n + 1, .eval (.record name given loc), m⟩ w ↔
    w = ⟨n, .record name given loc, m⟩ := by
  constructor
  · rintro ⟨⟩
    rfl
  · rintro rfl
    exact .literal

theorem starts_array {items : List Expr} :
    Starts cfg ⟨n + 1, .eval (.array items loc), m⟩ w ↔ w = ⟨n, .values items, m⟩ := by
  constructor
  · rintro ⟨⟩
    rfl
  · rintro rfl
    exact .items

theorem starts_values {rest : List Expr} : Starts cfg ⟨n, .values (e :: rest), m⟩ w ↔
    w = ⟨n, .eval e, m⟩ ∨ ∃ v m₁, eval cfg n e m = .done v m₁ ∧ w = ⟨n, .values rest, m₁⟩ := by
  constructor
  · intro edge
    cases edge with
    | value => exact .inl rfl
    | moreValues done => exact .inr ⟨_, _, done, rfl⟩
  · rintro (rfl | ⟨v, m₁, done, rfl⟩)
    · exact .value
    · exact .moreValues done

theorem starts_place_field : Starts cfg ⟨n, .place loc (.field object name at'), m⟩ w ↔
    w = ⟨n, .eval object, m⟩ ∨ ∃ v m₁, eval cfg n object m = .done v m₁ ∧
      (∀ ref, v ≠ .session ref) ∧ w = ⟨n, .place loc object, m₁⟩ := by
  constructor
  · intro edge
    cases edge with
    | placeObject => exact .inl rfl
    | placeInside done plain => exact .inr ⟨_, _, done, plain, rfl⟩
  · rintro (rfl | ⟨v, m₁, done, plain, rfl⟩)
    · exact .placeObject
    · exact .placeInside done plain

theorem starts_place_index {index : Expr} :
    Starts cfg ⟨n, .place loc (.index object index at'), m⟩ w ↔
    w = ⟨n, .eval index, m⟩ ∨ ∃ v m₁, eval cfg n index m = .done v m₁ ∧
    w = ⟨n, .place loc object, m₁⟩ := by
  constructor
  · intro edge
    cases edge with
    | placeIndex => exact .inl rfl
    | placeIndexed done => exact .inr ⟨_, _, done, rfl⟩
  · rintro (rfl | ⟨v, m₁, done, rfl⟩)
    · exact .placeIndex
    · exact .placeIndexed done

theorem starts_detached : Starts cfg ⟨n, .detached e, m⟩ w ↔ w = ⟨n, .eval e, m.push .call⟩ := by
  constructor
  · rintro ⟨⟩
    rfl
  · rintro rfl
    exact .detached

/-! ## Records and sessions -/

theorem starts_record : Starts cfg ⟨n, .record name given loc, m⟩ w ↔
    ∃ decl, m.records.find? name = some decl ∧
      (given.find? fun (field, _) => !decl.members.any (·.name == field)) = none ∧
      w = ⟨n, .fields given decl.members, m⟩ := by
  constructor
  · intro edge
    cases edge with
    | recordFields found fit => exact ⟨_, found, fit, rfl⟩
  · rintro ⟨decl, found, fit, rfl⟩
    exact .recordFields found fit

theorem starts_fields {member : Variable} {rest : List Variable} :
    Starts cfg ⟨n, .fields given (member :: rest), m⟩ w ↔
      ((∃ e, Table.find? given member.name = some e ∧ w = ⟨n, .eval e, m⟩) ∨
        ∃ init, Table.find? given member.name = none ∧ member.start = .value init ∧
        w = ⟨n, .detached init, m⟩) ∨
      ∃ field m₁, recordField (eval cfg n) given member m = .done field m₁ ∧
      w = ⟨n, .fields given rest, m₁⟩ := by
  constructor
  · intro edge
    cases edge with
    | fieldGiven found => exact .inl (.inl ⟨_, found, rfl⟩)
    | fieldStart missing start => exact .inl (.inr ⟨_, missing, start, rfl⟩)
    | moreFields done => exact .inr ⟨_, _, done, rfl⟩
  · rintro ((⟨e, found, rfl⟩ | ⟨init, missing, start, rfl⟩) | ⟨field, m₁, done, rfl⟩)
    · exact .fieldGiven found
    · exact .fieldStart missing start
    · exact .moreFields done

theorem starts_default {typeName : Option String} : Starts cfg ⟨n, .default typeName loc, m⟩ w ↔
    ∃ name, typeName = some name ∧ m.records.has name = true ∧ w = ⟨n, .record name [] loc, m⟩ := by
  constructor
  · intro edge
    cases edge with
    | defaultRecord known => exact ⟨_, rfl, known, rfl⟩
  · rintro ⟨name, rfl, known, rfl⟩
    exact .defaultRecord known

theorem starts_statics {object : Instance} {member : Member} {rest : List Member} :
    Starts cfg ⟨n, .statics object (member :: rest), m⟩ w ↔
      (∃ field init, member.decl = .field field ∧ field.start = .value init ∧
        w = ⟨n, .detached init, m⟩) ∨
      ∃ object' m₁, addStatic (eval cfg n) object member m = .done object' m₁ ∧
        w = ⟨n, .statics object' rest, m₁⟩ := by
  constructor
  · intro edge
    cases edge with
    | staticStart decl start => exact .inl ⟨_, _, decl, start, rfl⟩
    | moreStatics done => exact .inr ⟨_, _, done, rfl⟩
  · rintro (⟨field, init, decl, start, rfl⟩ | ⟨object', m₁, done, rfl⟩)
    · exact .staticStart decl start
    · exact .moreStatics done

theorem starts_members {object : Instance} {member : Member} {rest : List Member} :
    Starts cfg ⟨n, .members loc object (member :: rest), m⟩ w ↔
    (∃ field, member.decl = .field field ∧
        ((∃ init, field.start = .value init ∧ w = ⟨n, .detached init, m⟩) ∨
          (∀ init, field.start ≠ .value init) ∧ w = ⟨n, .default field.typeName loc, m⟩)) ∨
      ∃ object' m₁, addMember (eval cfg n) loc object member m = .done object' m₁ ∧
        w = ⟨n, .members loc object' rest, m₁⟩ := by
  constructor
  · intro edge
    cases edge with
    | memberStart decl start => exact .inl ⟨_, decl, .inl ⟨_, start, rfl⟩⟩
    | memberDefault decl start => exact .inl ⟨_, decl, .inr ⟨start, rfl⟩⟩
    | moreMembers done => exact .inr ⟨_, _, done, rfl⟩
  · rintro (⟨field, decl, ⟨init, start, rfl⟩ | ⟨start, rfl⟩⟩ | ⟨object', m₁, done, rfl⟩)
    · exact .memberStart decl start
    · exact .memberDefault decl start
    · exact .moreMembers done

theorem starts_instantiate : Starts cfg ⟨n, .instantiate name args loc, m⟩ w ↔
    ∃ decl, m.sessions.find? name = some decl ∧
    ∃ u m₁, requireDepth cfg.maxDepth loc m = .done u m₁ ∧
        (w = ⟨n, .members loc (.empty decl.name) (decl.members.filter (!·.dominant)), m₁.deepen⟩ ∨
          ∃ object m₂, deeper (buildInstance (eval cfg n) decl loc) m₁ = .done object m₂ ∧
            ∃ ref m₃, allocate object m₂ = .done ref m₃ ∧
              ∃ init, decl.constructor? = some init ∧
              w = ⟨n, .call init args (some ref) loc, m₃⟩) := by
  constructor
  · intro edge
    cases edge with
    | build found allowed => exact ⟨_, found, _, _, allowed, .inl rfl⟩
    | construct found allowed built known constructor =>
      exact ⟨_, found, _, _, allowed, .inr ⟨_, _, built, _, _, known, _, constructor, rfl⟩⟩
  · rintro ⟨decl, found, u, m₁, allowed,
      rfl | ⟨object, m₂, built, ref, m₃, known, init, constructor, rfl⟩⟩
    · exact .build found allowed
    · exact .construct found allowed built known constructor

/-! ## Calls -/

/-- The call of a member. The object comes first, then the arguments, and then the call, which is on
the object if that is a session. -/
theorem starts_call_member {args : List Expr} :
    Starts cfg ⟨n + 1, .eval (.call (.field object name at') args loc), m⟩ w ↔
      w = ⟨n, .eval object, m⟩ ∨ ∃ target m₁, eval cfg n object m = .done target m₁ ∧
        ∃ method m₂, memberValue target name object.isThis loc m₁ = .done method m₂ ∧
          (w = ⟨n, .values args, m₂⟩ ∨ ∃ values m₃, args.mapM (eval cfg n) m₂ = .done values m₃ ∧
            ∃ decl, method = .suggestion decl ∧
              ((∃ ref, target = .session ref ∧ ∃ own m₄, receiver ref decl m₃ = .done own m₄ ∧
                  w = ⟨n, .call decl values (some own) loc, m₄⟩) ∨
                (∀ ref, target ≠ .session ref) ∧ w = ⟨n, .call decl values none loc, m₃⟩)) := by
  constructor
  · intro edge
    cases edge with
    | receiver => exact .inl rfl
    | memberArgs done found => exact .inr ⟨_, _, done, _, _, found, .inl rfl⟩
    | methodCall done found given chosen =>
      exact .inr ⟨_, _, done, _, _, found,
        .inr ⟨_, _, given, _, rfl, .inl ⟨_, rfl, _, _, chosen, rfl⟩⟩⟩
    | fieldCall done plain found given =>
      exact .inr ⟨_, _, done, _, _, found, .inr ⟨_, _, given, _, rfl, .inr ⟨plain, rfl⟩⟩⟩
    | callee other | valueArgs other | valueCall other => cases other
  · rintro (rfl | ⟨target, m₁, done, method, m₂, found, rfl | ⟨values, m₃, given, decl, rfl,
      ⟨ref, rfl, own, m₄, chosen, rfl⟩ | ⟨plain, rfl⟩⟩⟩)
    · exact .receiver
    · exact .memberArgs done found
    · exact .methodCall done found given chosen
    · exact .fieldCall done plain found given

/-- A call by name. The arguments come first, if there is something to call, or if the name may be
that of a built-in. -/
theorem starts_call_name {args : List Expr} :
    Starts cfg ⟨n + 1, .eval (.call (.name name at') args loc), m⟩ w ↔
      (m.scopes.resolve? name = none ∧ w = ⟨n, .values args, m⟩) ∨
      ∃ symbol, m.scopes.resolve? name = some symbol ∧
        ((∃ decl, symbol.value = some (.suggestion decl) ∧ (w = ⟨n, .values args, m⟩ ∨
            ∃ values m₁, args.mapM (eval cfg n) m = .done values m₁ ∧
            w = ⟨n, .call decl values none loc, m₁⟩)) ∨
          symbol.kind = .session ∧ (w = ⟨n, .values args, m⟩ ∨
            (∀ decl, symbol.value ≠ some (.suggestion decl)) ∧
              ∃ values m₁, args.mapM (eval cfg n) m = .done values m₁ ∧
                w = ⟨n, .instantiate name values loc, m₁⟩)) := by
  constructor
  · intro edge
    cases edge with
    | builtinArgs free => exact .inl ⟨free, rfl⟩
    | nameArgs found value => exact .inr ⟨_, found, .inl ⟨_, value, .inl rfl⟩⟩
    | nameCall found value given => exact .inr ⟨_, found, .inl ⟨_, value, .inr ⟨_, _, given, rfl⟩⟩⟩
    | sessionArgs found kind => exact .inr ⟨_, found, .inr ⟨kind, .inl rfl⟩⟩
    | sessionCall found kind value given =>
      exact .inr ⟨_, found, .inr ⟨kind, .inr ⟨value, _, _, given, rfl⟩⟩⟩
    | callee other | valueArgs other | valueCall other => cases other
  · rintro (⟨free, rfl⟩ | ⟨symbol, found, ⟨decl, value, rfl | ⟨values, m₁, given, rfl⟩⟩ |
      ⟨kind, rfl | ⟨value, values, m₁, given, rfl⟩⟩⟩)
    · exact .builtinArgs free
    · exact .nameArgs found value
    · exact .nameCall found value given
    · exact .sessionArgs found kind
    · exact .sessionCall found kind value given

theorem starts_call_value {callee : Expr} {args : List Expr} (other : callee.calledByValue = true) :
    Starts cfg ⟨n + 1, .eval (.call callee args loc), m⟩ w ↔
      w = ⟨n, .eval callee, m⟩ ∨ ∃ v m₁, eval cfg n callee m = .done v m₁ ∧
        ∃ decl, v = .suggestion decl ∧ (w = ⟨n, .values args, m₁⟩ ∨
          ∃ values m₂, args.mapM (eval cfg n) m₁ = .done values m₂ ∧
          w = ⟨n, .call decl values none loc, m₂⟩) := by
  constructor
  · intro edge
    cases edge with
    | callee => exact .inl rfl
    | valueArgs _ done => exact .inr ⟨_, _, done, _, rfl, .inl rfl⟩
    | valueCall _ done given => exact .inr ⟨_, _, done, _, rfl, .inr ⟨_, _, given, rfl⟩⟩
    | _ => cases other
  · rintro (rfl | ⟨v, m₁, done, decl, rfl, rfl | ⟨values, m₂, given, rfl⟩⟩)
    · exact .callee other
    · exact .valueArgs other done
    · exact .valueCall other done given

theorem starts_call {receiver : Option SessionRef} :
    Starts cfg ⟨n + 1, .call decl args receiver loc, m⟩ w ↔
      args.length = decl.params.length ∧ ∃ u m₁, requireDepth cfg.maxDepth loc m = .done u m₁ ∧
        w = ⟨n, .body decl args receiver, m₁.deepen.push .call⟩ := by
  constructor
  · intro edge
    cases edge with
    | called count allowed => exact ⟨count, _, _, allowed, rfl⟩
  · rintro ⟨count, u, m₁, allowed, rfl⟩
    exact .called count allowed

theorem starts_body {receiver : Option SessionRef} :
    Starts cfg ⟨n, .body decl args receiver, m⟩ w ↔ ∃ u m₁, bindThis receiver m = .done u m₁ ∧
        ∃ u' m₂, bindParams decl.location (decl.params.zip args) m₁ = .done u' m₂ ∧
          w = ⟨n, .list decl.body decl.body n, m₂⟩ := by
  constructor
  · intro edge
    cases edge with
    | bodyList this params => exact ⟨_, _, this, _, _, params, rfl⟩
  · rintro ⟨u, m₁, this, u', m₂, params, rfl⟩
    exact .bodyList this params

/-! ## Statements -/

theorem starts_branch {yes : List Stmt} {no : Option (List Stmt)} :
    Starts cfg ⟨n + 1, .exec (.branch e yes no loc), m⟩ w ↔
      w = ⟨n, .eval e, m⟩ ∨ ∃ v m₁, eval cfg n e m = .done v m₁ ∧
      (v.truthy = true ∧ w = ⟨n, .block yes, m₁⟩ ∨
          v.truthy = false ∧ ∃ body, no = some body ∧ w = ⟨n, .block body, m₁⟩) := by
  constructor
  · intro edge
    cases edge with
    | cond => exact .inl rfl
    | yes done holds => exact .inr ⟨_, _, done, .inl ⟨holds, rfl⟩⟩
    | no done fails => exact .inr ⟨_, _, done, .inr ⟨fails, _, rfl, rfl⟩⟩
    | declared decl => cases decl
  · rintro (rfl | ⟨v, m₁, done, ⟨holds, rfl⟩ | ⟨fails, body, rfl, rfl⟩⟩)
    · exact .cond
    · exact .yes done holds
    · exact .no done fails

theorem starts_loop {init : Stmt} {cond step : Option Expr} :
    Starts cfg ⟨n + 1, .exec (.loop (some init) cond step body loc), m⟩ w ↔
    w = ⟨n, .exec init, m.push .block⟩ ∨
        ∃ flow m₁, exec cfg n init (m.push .block) = .done flow m₁ ∧
          flow = .normal ∧ w = ⟨n, .rounds cond step body n, m₁⟩ := by
  constructor
  · intro edge
    cases edge with
    | loopStart => exact .inl rfl
    | loopStarted done => exact .inr ⟨_, _, done, rfl, rfl⟩
    | declared decl => cases decl
  · rintro (rfl | ⟨flow, m₁, done, rfl, rfl⟩)
    · exact .loopStart
    · exact .loopStarted done

/-- The one visit that any other statement starts, if it starts one. -/
def only? (n : Nat) (m : Machine) : Stmt → Option Visit
  | .induce decl => some ⟨n, .induce decl, m⟩
  | .whileLoop e body _ => some ⟨n, .rounds (some e) none body n, m⟩
  | .loop none cond step body _ => some ⟨n, .rounds cond step body n, m.push .block⟩
  | .suggestion decl => some ⟨n, .declare (.suggestion decl), m⟩
  | .session decl => some ⟨n, .declare (.session decl), m⟩
  | .tranceify decl => some ⟨n, .declare (.tranceify decl), m⟩
  | .observe e _ | .awaken (some e) _ | .assert e _ _ | .expr e _ => some ⟨n, .eval e, m⟩
  | .entrance body _ => some ⟨n, .block body, m⟩
  | .mindLink path loc => some ⟨n, .link path loc, m⟩
  | _ => none

theorem starts_exec (h : s.forks = false) :
    Starts cfg ⟨n + 1, .exec s, m⟩ w ↔ only? n m s = some w := by
  constructor
  · intro edge
    cases edge with
    | cond => cases h
    | yes => cases h
    | no => cases h
    | loopStart => cases h
    | loopStarted => cases h
    | declared decl =>
      cases s with
      | suggestion | session | tranceify => rfl
      | _ => cases decl
    | _ => rfl
  · intro hv
    cases s with
    | induce => cases hv; exact .induced
    | branch => cases h
    | whileLoop => cases hv; exact .whileLoop
    | loop init =>
      cases init with
      | none => cases hv; exact .loop
      | some => cases h
    | suggestion | session | tranceify => cases hv; exact .declared rfl
    | observe => cases hv; exact .observed
    | awaken value =>
      cases value with
      | none => cases hv
      | some => cases hv; exact .awakened
    | assert => cases hv; exact .asserted
    | entrance => cases hv; exact .entrance
    | mindLink => cases hv; exact .linked
    | expr => cases hv; exact .performed
    | snap | sink | sinkTo | label => cases hv

theorem starts_declare {decl : Session} : Starts cfg ⟨n, .declare (.session decl), m⟩ w ↔
    w = ⟨n, .statics (.empty decl.name) (decl.members.filter (·.dominant)), m⟩ := by
  constructor
  · rintro ⟨⟩
    rfl
  · rintro rfl
    exact .staticMembers

theorem starts_induce {decl : Variable} : Starts cfg ⟨n, .induce decl, m⟩ w ↔
    (∃ init, decl.start = .value init ∧ w = ⟨n, .eval init, m⟩) ∨
      decl.start = .unset ∧ w = ⟨n, .default decl.typeName decl.location, m⟩ := by
  constructor
  · intro edge
    cases edge with
    | induceValue start => exact .inl ⟨_, start, rfl⟩
    | induceDefault start => exact .inr ⟨start, rfl⟩
  · rintro (⟨init, start, rfl⟩ | ⟨start, rfl⟩)
    · exact .induceValue start
    · exact .induceDefault start

theorem starts_block :
    Starts cfg ⟨n, .block body, m⟩ w ↔ w = ⟨n, .list body body n, m.push .block⟩ := by
  constructor
  · rintro ⟨⟩
    rfl
  · rintro rfl
    exact .block

/-- How a list goes on behind a statement: with the rest, or behind the label that is jumped to. -/
def GoesOn (all rest : List Stmt) (flow : Flow) (behind : List Stmt) : Prop :=
  flow = .normal ∧ behind = rest ∨ ∃ label loc, flow = .jump label loc ∧
    Stmt.afterLabel? label all = some behind

theorem starts_list {all : List Stmt} : Starts cfg ⟨n, .list all (s :: rest) (k + 1), m⟩ w ↔
    w = ⟨n, .exec s, m⟩ ∨ ∃ flow m₁, exec cfg n s m = .done flow m₁ ∧
      ∃ behind, GoesOn all rest flow behind ∧ w = ⟨n, .list all behind k, m₁⟩ := by
  constructor
  · intro edge
    cases edge with
    | head => exact .inl rfl
    | next done => exact .inr ⟨_, _, done, _, .inl ⟨rfl, rfl⟩, rfl⟩
    | jumped done found => exact .inr ⟨_, _, done, _, .inr ⟨_, _, rfl, found⟩, rfl⟩
  · rintro (rfl | ⟨flow, m₁, done, behind, ⟨rfl, rfl⟩ | ⟨label, loc, rfl, found⟩, rfl⟩)
    · exact .head
    · exact .next done
    · exact .jumped done found

theorem starts_main {all : List Stmt} : Starts cfg ⟨n, .main all (s :: rest) (k + 1), m⟩ w ↔
    (s.isHoisted = false ∧ w = ⟨n, .exec s, m⟩) ∨
    ∃ flow m₁, mainStmt (exec cfg n) s m = .done flow m₁ ∧
        ∃ behind, GoesOn all rest flow behind ∧ w = ⟨n, .main all behind k, m₁⟩ := by
  constructor
  · intro edge
    cases edge with
    | mainHead here => exact .inl ⟨here, rfl⟩
    | mainNext done => exact .inr ⟨_, _, done, _, .inl ⟨rfl, rfl⟩, rfl⟩
    | mainJumped done found => exact .inr ⟨_, _, done, _, .inr ⟨_, _, rfl, found⟩, rfl⟩
  · rintro (⟨here, rfl⟩ | ⟨flow, m₁, done, behind, ⟨rfl, rfl⟩ | ⟨label, loc, rfl, found⟩, rfl⟩)
    · exact .mainHead here
    · exact .mainNext done
    · exact .mainJumped done found

theorem starts_rounds {cond step : Option Expr} :
    Starts cfg ⟨n, .rounds cond step body (k + 1), m⟩ w ↔
    (∃ e, cond = some e ∧ w = ⟨n, .eval e, m⟩) ∨
        ∃ held m₁, holds (eval cfg n) cond m = .done held m₁ ∧ held = true ∧
        (w = ⟨n, .block body, m₁⟩ ∨
            ∃ flow m₂, Exec.block (exec cfg n) n body m₁ = .done flow m₂ ∧
              (flow = .normal ∨ ∃ loc, flow = .sink loc) ∧
              ((∃ e, step = some e ∧ w = ⟨n, .eval e, m₂⟩) ∨
                ∃ u m₃, perform (eval cfg n) step m₂ = .done u m₃ ∧
                  w = ⟨n, .rounds cond step body k, m₃⟩)) := by
  constructor
  · intro edge
    cases edge with
    | roundCond => exact .inl ⟨_, rfl, rfl⟩
    | roundBody held => exact .inr ⟨_, _, held, rfl, .inl rfl⟩
    | roundStep held done goesOn =>
      exact .inr ⟨_, _, held, rfl, .inr ⟨_, _, done, goesOn, .inl ⟨_, rfl, rfl⟩⟩⟩
    | again held done goesOn stepped =>
      exact .inr ⟨_, _, held, rfl, .inr ⟨_, _, done, goesOn, .inr ⟨_, _, stepped, rfl⟩⟩⟩
  · rintro (⟨e, rfl, rfl⟩ | ⟨held, m₁, hheld, rfl, rfl | ⟨flow, m₂, done, goesOn,
      ⟨e, rfl, rfl⟩ | ⟨u, m₃, stepped, rfl⟩⟩⟩)
    · exact .roundCond
    · exact .roundBody hheld
    · exact .roundStep hheld done goesOn
    · exact .again hheld done goesOn stepped

/-! ## Links and programs -/

theorem starts_link {path : String} : Starts cfg ⟨n + 1, .link path loc, m⟩ w ↔
    m.linked.contains (cfg.files.key (Path.join m.baseDir path)) = false ∧
      ∃ source, cfg.files.read (Path.join m.baseDir path) = .ok source ∧
        ∃ p, Program.ofText (cfg.files.key (Path.join m.baseDir path)).origin source = .ok p ∧
          w = ⟨n, .merge p.statements,
            { m with linked := cfg.files.key (Path.join m.baseDir path) :: m.linked }.moved
                (Path.parent (Path.join m.baseDir path))⟩ := by
  constructor
  · intro edge
    cases edge with
    | linkedFile new read parsed => exact ⟨new, _, read, _, parsed, rfl⟩
  · rintro ⟨new, source, read, p, parsed, rfl⟩
    exact .linkedFile new read parsed

theorem starts_merge : Starts cfg ⟨n, .merge (s :: rest), m⟩ w ↔
    ((∃ path loc, s = .mindLink path loc ∧ w = ⟨n, .link path loc, m⟩) ∨
      (s.declaredName?.map m.scopes.globals.has).getD false = false ∧
        ((∃ decl, s = .induce decl ∧ w = ⟨n, .induce decl, m⟩) ∨ s.isDeclaration = true ∧
          w = ⟨n, .declare s, m⟩)) ∨
    ∃ u m₁, mergeStmt (eval cfg n) (link cfg n) s m = .done u m₁ ∧ w = ⟨n, .merge rest, m₁⟩ := by
  constructor
  · intro edge
    cases edge with
    | mergeLink => exact .inl (.inl ⟨_, _, rfl, rfl⟩)
    | mergeVariable free => exact .inl (.inr ⟨free, .inl ⟨_, rfl, rfl⟩⟩)
    | mergeDeclaration decl free => exact .inl (.inr ⟨free, .inr ⟨decl, rfl⟩⟩)
    | moreMerged done => exact .inr ⟨_, _, done, rfl⟩
  · rintro ((⟨path, loc, rfl, rfl⟩ | ⟨free, ⟨decl, rfl, rfl⟩ | ⟨decl, rfl⟩⟩) | ⟨u, m₁, done, rfl⟩)
    · exact .mergeLink
    · exact .mergeVariable free
    · exact .mergeDeclaration decl free
    · exact .moreMerged done

theorem starts_hoist : Starts cfg ⟨n, .hoist (s :: rest), m⟩ w ↔
    w = ⟨n, .declare s, m⟩ ∨ ∃ u m₁, declare (eval cfg n) s m = .done u m₁ ∧
    w = ⟨n, .hoist rest, m₁⟩ := by
  constructor
  · intro edge
    cases edge with
    | hoisted => exact .inl rfl
    | moreHoisted done => exact .inr ⟨_, _, done, rfl⟩
  · rintro (rfl | ⟨u, m₁, done, rfl⟩)
    · exact .hoisted
    · exact .moreHoisted done

theorem starts_follow : Starts cfg ⟨n, .follow (s :: rest), m⟩ w ↔
    (∃ path loc, s = .mindLink path loc ∧ w = ⟨n, .link path loc, m⟩) ∨
      ∃ u m₁, followLink (link cfg n) s m = .done u m₁ ∧ w = ⟨n, .follow rest, m₁⟩ := by
  constructor
  · intro edge
    cases edge with
    | followed => exact .inl ⟨_, _, rfl, rfl⟩
    | moreFollowed done => exact .inr ⟨_, _, done, rfl⟩
  · rintro (⟨path, loc, rfl, rfl⟩ | ⟨u, m₁, done, rfl⟩)
    · exact .followed
    · exact .moreFollowed done

theorem starts_entrances : Starts cfg ⟨n, .entrances (.entrance body loc :: rest), m⟩ w ↔
    w = ⟨n, .block body, m⟩ ∨ ∃ flow m₁, Exec.block (exec cfg n) n body m = .done flow m₁ ∧
      flow = .normal ∧ w = ⟨n, .entrances rest, m₁⟩ := by
  constructor
  · intro edge
    cases edge with
    | entered => exact .inl rfl
    | moreEntered done => exact .inr ⟨_, _, done, rfl, rfl⟩
    | passed other => exact absurd rfl (other _ _)
  · rintro (rfl | ⟨flow, m₁, done, rfl, rfl⟩)
    · exact .entered
    · exact .moreEntered done

theorem starts_entrances_of_ne (other : ∀ body loc, s ≠ .entrance body loc) :
    Starts cfg ⟨n, .entrances (s :: rest), m⟩ w ↔ w = ⟨n, .entrances rest, m⟩ := by
  constructor
  · intro edge
    cases edge with
    | entered | moreEntered => exact absurd rfl (other _ _)
    | passed => rfl
  · rintro rfl
    exact .passed other

theorem starts_program {p : Program} : Starts cfg ⟨n, .program p, m⟩ w ↔
    w = ⟨n, .hoist p.statements, m⟩ ∨
    ∃ u m₁, p.statements.forM (declare (eval cfg n)) m = .done u m₁ ∧
    (w = ⟨n, .follow p.statements, m₁⟩ ∨
        ∃ u' m₂, p.statements.forM (followLink (link cfg n)) m₁ = .done u' m₂ ∧
          (w = ⟨n, .entrances p.statements, m₂⟩ ∨
            ∃ flow m₃, Exec.entrances (exec cfg n) n p.statements m₂ = .done flow m₃ ∧
              (∀ value, flow ≠ .awaken value) ∧
              w = ⟨n, .main p.statements p.statements n, m₃⟩)) := by
  constructor
  · intro edge
    cases edge with
    | hoisting => exact .inl rfl
    | following hoisted => exact .inr ⟨_, _, hoisted, .inl rfl⟩
    | entering hoisted followed => exact .inr ⟨_, _, hoisted, .inr ⟨_, _, followed, .inl rfl⟩⟩
    | starting hoisted followed entered goesOn =>
      exact .inr ⟨_, _, hoisted, .inr ⟨_, _, followed, .inr ⟨_, _, entered, goesOn, rfl⟩⟩⟩
  · rintro (rfl | ⟨u, m₁, hoisted, rfl | ⟨u', m₂, followed, rfl | ⟨flow, m₃, entered, goesOn, rfl⟩⟩⟩)
    · exact .hoisting
    · exact .following hoisted
    · exact .entering hoisted followed
    · exact .starting hoisted followed entered goesOn

end Visit

end Trance
