import Trance.Proofs.Running.Restoration

/-!
# Frames in an arena

Frames can be kept side by side in an arena, numbered from the global one on, which is 0. Each frame
then needs two links: to its parent, in which names are looked for next, and to the frame that is
current again once it is closed. A block has the frame as parent that was current when it was
opened, and a call has the global frame.

An arena can go wrong where a stack of frames cannot: a link may lead nowhere, and parents may lead
in a circle. Neither happens. Whatever is done to a new arena, its links are those that a stack of
frames lays out, and it gives the answers of the stack.

A frame has its symbols by the names under which they were defined. A symbol says its own name as
well, and a change may let it say another one; it is found under the name of its definition all the
same. Scopes know a symbol only by what it says, so they are such a stack as long as no change lets
a symbol say another name. -/

namespace Trance

open List Option

/-! ## Arenas -/

/-- A frame in an arena: its symbols by name, its parent, and the frame that is current again once
it is closed. -/
structure Arena.Cell where
  symbols : Table Symbol
  parent : Option Nat
  resume : Nat

/-- Frames in the order in which they were opened, and the number of the current one. -/
structure Arena where
  cells : List Arena.Cell
  current : Nat

namespace Arena

/-- The global frame alone. -/
def new : Arena := ⟨[⟨[], none, 0⟩], 0⟩

def push (a : Arena) (parent : Nat) : Arena :=
  ⟨a.cells ++ [⟨[], some parent, a.current⟩], a.cells.length⟩

def enter (a : Arena) : Frame.Kind → Arena
  | .block => a.push a.current
  | .call => a.push 0

/-- Close the frame that was opened last, but never the global one. -/
def exit (a : Arena) : Arena :=
  match a.cells.getLast? with
  | some cell => if 1 < a.cells.length then ⟨a.cells.dropLast, cell.resume⟩ else a
  | none => a

/-- Bind a name in a frame if it is free there, and tell whether it was. -/
def define? (a : Arena) (number : Nat) (symbol : Symbol) : Option (Bool × Arena) := do
  let cell ← a.cells[number]?
  if cell.symbols.has symbol.name then
    return (false, a)
  else
    let symbols := cell.symbols.insert symbol.name symbol
    return (true, { a with cells := a.cells.set number { cell with symbols } })

/-- Walk along parents to a frame that binds a name, at most for a number of steps. -/
def walk? (a : Arena) (name : String) : Nat → Option Nat → Option (Option Nat)
  | _, none => some none
  | 0, some _ => none
  | steps + 1, some number => do
    let cell ← a.cells[number]?
    if cell.symbols.has name then return some number else walk? a name steps cell.parent

/-- The frame that binds a name, if one does, on the walk from the current frame. No frame is passed
twice on a walk that ends. -/
def owner? (a : Arena) (name : String) : Option (Option Nat) :=
  a.walk? name a.cells.length (some a.current)

/-- What a name stands for, if anything. Here and below there is no answer if a link leads nowhere.
-/
def resolve? (a : Arena) (name : String) : Option (Option Symbol) := do
  match ← a.owner? name with
  | none => return none
  | some number =>
    let cell ← a.cells[number]?
    return cell.symbols.find? name

/-- Change the symbol that a name stands for, and tell whether there is one. -/
def update? (a : Arena) (name : String) (change : Symbol → Symbol) : Option (Bool × Arena) := do
  match ← a.owner? name with
  | none => return (false, a)
  | some number =>
    let cell ← a.cells[number]?
    let symbol ← cell.symbols.find? name
    let symbols := cell.symbols.insert name (change symbol)
    return (true, { a with cells := a.cells.set number { cell with symbols } })

def reset? (a : Arena) : Option Arena :=
  a.cells.head?.map fun first => ⟨[{ first with symbols := [] }], 0⟩

def binds? (a : Arena) (number : Nat) (name : String) : Option Bool :=
  a.cells[number]?.map (·.symbols.has name)

def depth? (a : Arena) : Option Nat := a.cells.tail?.map List.length

def isGlobal (a : Arena) : Bool := a.current == 0

def globals? (a : Arena) : Option (List Symbol) := a.cells[0]?.map (·.symbols.map Prod.snd)

end Arena

/-! ## Stacks -/

/-- A frame of a stack, with its symbols by the names under which they were defined. -/
structure Stack.Layer where
  kind : Frame.Kind
  symbols : Table Symbol

/-- Frames, the innermost first, and the global symbols below them. -/
structure Stack where
  layers : List Stack.Layer
  globals : Table Symbol

namespace Stack

/-- No frame but the global one. -/
def empty : Stack := ⟨[], []⟩

/-- The symbols of the innermost frame. -/
def innermost (s : Stack) : Table Symbol :=
  match s.layers with
  | [] => s.globals
  | layer :: _ => layer.symbols

/-- The frames down to the nearest call. -/
def downToCall : List Layer → List Layer
  | [] => []
  | layer :: below =>
    match layer.kind with
    | .call => [layer]
    | .block => layer :: downToCall below

/-- The symbols among which a name is looked for, in this order: those of the frames down to the
nearest call, and the global ones. -/
def visible (s : Stack) : List (Table Symbol) := (downToCall s.layers).map (·.symbols) ++ [s.globals]

/-- What a name stands for. -/
def resolve? (s : Stack) (name : String) : Option Symbol := s.visible.findSome? (·.find? name)

/-- Define a symbol in the global frame, or nothing if its name is taken there. -/
def defineGlobal? (s : Stack) (symbol : Symbol) : Option Stack :=
  if s.globals.has symbol.name then none
  else some { s with globals := s.globals.insert symbol.name symbol }

/-- Define a symbol in the innermost frame, or nothing if its name is taken there. -/
def define? (s : Stack) (symbol : Symbol) : Option Stack :=
  match s.layers with
  | [] => s.defineGlobal? symbol
  | layer :: below =>
    if layer.symbols.has symbol.name then none
    else some { s with
      layers := { layer with symbols := layer.symbols.insert symbol.name symbol } :: below }

/-- Change the symbol of a name in the frame where the name is found; nothing if it is found
nowhere. -/
def updateIn (layers : List Layer) (globals : Table Symbol) (name : String)
    (change : Symbol → Symbol) :
    Option Stack :=
  match layers with
  | [] => (globals.find? name).map fun symbol => ⟨[], globals.insert name (change symbol)⟩
  | layer :: below =>
    match layer.symbols.find? name with
    | some symbol =>
      some ⟨{ layer with symbols := layer.symbols.insert name (change symbol) } :: below, globals⟩
    | none =>
      match layer.kind with
      | .call =>
        (globals.find? name).map fun symbol => ⟨layer :: below, globals.insert name (change symbol)⟩
      | .block =>
        (updateIn below globals name change).map fun s => { s with layers := layer :: s.layers }

/-- Change the symbol that a name stands for; nothing if it stands for none. -/
def update? (s : Stack) (name : String) (change : Symbol → Symbol) : Option Stack :=
  updateIn s.layers s.globals name change

end Stack

/-! ## Acts -/

/-- What can be done to frames. -/
inductive Act where
  | enter (kind : Frame.Kind)
  | exit
  | define (symbol : Symbol)
  | defineGlobal (symbol : Symbol)
  | assign (name : String) (value : Value)
  | update (name : String) (change : Symbol → Symbol)
  | reset

namespace Act

/-- The symbol with a value. -/
def setting (value : Value) (symbol : Symbol) : Symbol := { symbol with value := some value }

theorem name_setting (value : Value) (symbol : Symbol) :
    (setting value symbol).name = symbol.name := rfl

/-- No symbol says another name afterwards. -/
def KeepsNames : Act → Prop
  | .update _ change => ∀ symbol, (change symbol).name = symbol.name
  | _ => True

section

variable {σ : Type} (s : σ)

/-- What has changed, or what was there before, and whether it has changed. -/
def attempt : Option σ → Bool × σ
  | some t => (true, t)
  | none => (false, s)

/-- Do several things one after the other, and tell of each whether it took effect. -/
def all (act : σ → Act → Bool × σ) : σ → List Act → List Bool × σ
  | s, [] => ([], s)
  | s, first :: rest =>
    let (answer, s) := act s first
    let (answers, s) := all act s rest
    (answer :: answers, s)

end

end Act

/-- Do something to a stack, and tell whether it took effect. -/
def Stack.act (s : Stack) : Act → Bool × Stack
  | .enter kind => (true, { s with layers := ⟨kind, []⟩ :: s.layers })
  | .exit => (true, { s with layers := s.layers.tail })
  | .define symbol => Act.attempt s (s.define? symbol)
  | .defineGlobal symbol => Act.attempt s (s.defineGlobal? symbol)
  | .assign name value => Act.attempt s (s.update? name (Act.setting value))
  | .update name change => Act.attempt s (s.update? name change)
  | .reset => (true, empty)

/-- Do something to scopes, and tell whether it took effect. -/
def Scopes.act (s : Scopes) : Act → Bool × Scopes
  | .enter kind => (true, s.enter kind)
  | .exit => (true, s.exit)
  | .define symbol => Act.attempt s (s.define? symbol)
  | .defineGlobal symbol => Act.attempt s (s.defineGlobal? symbol)
  | .assign name value => Act.attempt s (s.assign? name value)
  | .update name change => Act.attempt s (s.update? name change)
  | .reset => (true, empty)

/-- Do something to an arena, and tell whether it took effect. -/
def Arena.act? (a : Arena) : Act → Option (Bool × Arena)
  | .enter kind => some (true, a.enter kind)
  | .exit => some (true, a.exit)
  | .define symbol => a.define? a.current symbol
  | .defineGlobal symbol => a.define? 0 symbol
  | .assign name value => a.update? name (Act.setting value)
  | .update name change => a.update? name change
  | .reset => a.reset?.map (true, ·)

/-- Do several things to an arena, and tell of each whether it took effect. -/
def Arena.acts? (a : Arena) : List Act → Option (List Bool × Arena)
  | [] => some ([], a)
  | first :: rest => do
    let (answer, a) ← a.act? first
    let (answers, a) ← a.acts? rest
    return (answer :: answers, a)

/-! ## Stacks as arenas -/

namespace Stack

/-- The number of the frame where a name is found, with the global frame as 0. -/
def ownerIn (layers : List Layer) (globals : Table Symbol) (name : String) : Option Nat :=
  match layers with
  | [] => if globals.has name then some 0 else none
  | layer :: below =>
    if layer.symbols.has name then some (below.length + 1)
    else
      match layer.kind with
      | .call => if globals.has name then some 0 else none
      | .block => ownerIn below globals name

def owner? (s : Stack) (name : String) : Option Nat := ownerIn s.layers s.globals name

/-- The frames of a stack side by side. -/
def cellsOf (globals : Table Symbol) : List Layer → List Arena.Cell
  | [] => [⟨globals, none, 0⟩]
  | layer :: below =>
    let links := layer.kind.links below.length
    cellsOf globals below ++ [⟨layer.symbols, some links.parent, links.resume⟩]

/-- The arena that a stack lays out. -/
def arena (s : Stack) : Arena := ⟨cellsOf s.globals s.layers, s.layers.length⟩

variable {layers : List Layer} {globals : Table Symbol} {name : String}

@[simp] theorem length_cellsOf (globals : Table Symbol) (layers : List Layer) :
    (cellsOf globals layers).length = layers.length + 1 := by
  induction layers with
  | nil => rfl
  | cons layer below ih => simp [cellsOf, ih]

theorem head?_cellsOf (globals : Table Symbol) (layers : List Layer) :
    (cellsOf globals layers).head? = some ⟨globals, none, 0⟩ := by
  induction layers with
  | nil => rfl
  | cons layer below ih => simp [cellsOf, ih]

theorem getElem?_cellsOf_zero (globals : Table Symbol) (layers : List Layer) :
    (cellsOf globals layers)[0]? = some ⟨globals, none, 0⟩ := by
  rw [← head?_eq_getElem?, head?_cellsOf]

theorem set_cellsOf_zero (globals globals' : Table Symbol) (layers : List Layer) :
    (cellsOf globals layers).set 0 ⟨globals', none, 0⟩ = cellsOf globals' layers := by
  induction layers with
  | nil => rfl
  | cons layer below ih => simp [cellsOf, ih]

theorem resume_links (kind : Frame.Kind) (below : Nat) :
    (kind.links below).resume = below := by cases kind <;> rfl

theorem getElem?_cellsOf_top (globals : Table Symbol) (layer : Layer) (below : List Layer) :
    (cellsOf globals (layer :: below))[below.length + 1]? =
      some ⟨layer.symbols, some (layer.kind.links below.length).parent, below.length⟩ := by
  simp only [cellsOf, resume_links]
  rw [getElem?_append_right (by simp)]
  simp

theorem getElem?_cellsOf_below {number : Nat} (globals : Table Symbol) (layer : Layer)
    {below : List Layer} (h : number ≤ below.length) :
    (cellsOf globals (layer :: below))[number]? = (cellsOf globals below)[number]? := by
  simp only [cellsOf]
  rw [getElem?_append_left (by simp; omega)]

theorem ownerIn_le {number : Nat} (h : ownerIn layers globals name = some number) :
    number ≤ layers.length := by
  induction layers with
  | nil => simp [ownerIn] at h; omega
  | cons layer below ih =>
    simp only [ownerIn] at h
    split at h
    · simp at h
      simp [← h]
    · cases hkind : layer.kind with
      | call => simp [hkind] at h; omega
      | block =>
        simp only [hkind] at h
        have := ih h
        simp
        omega

/-- **The frame where a name is found has its symbol.** What the name stands for is in the cell of
this frame, and to change it is to change this cell. -/
theorem resolve_update_of_owner (layers : List Layer) (globals : Table Symbol) (name : String)
    (change : Symbol → Symbol) :
    (ownerIn layers globals name = none ∧ resolve? ⟨layers, globals⟩ name = none ∧
      updateIn layers globals name change = none) ∨
    ∃ number cell symbol t, ownerIn layers globals name = some number ∧
      (cellsOf globals layers)[number]? = some cell ∧ cell.symbols.find? name = some symbol ∧
      resolve? ⟨layers, globals⟩ name = some symbol ∧ updateIn layers globals name change = some t ∧
      t.layers.length = layers.length ∧
      cellsOf t.globals t.layers = (cellsOf globals layers).set number
        { cell with symbols := cell.symbols.insert name (change symbol) } := by
  induction layers with
  | nil =>
    cases hfind : globals.find? name with
    | none => simp [ownerIn, resolve?, visible, downToCall, updateIn, Table.has, hfind]
    | some symbol =>
      exact .inr ⟨0, _, symbol, ⟨[], globals.insert name (change symbol)⟩,
        by simp [ownerIn, Table.has, hfind],
        getElem?_cellsOf_zero globals [], hfind, by simp [resolve?, visible, downToCall, hfind],
        by simp [updateIn, hfind], rfl, rfl⟩
  | cons layer below ih =>
    cases hlayer : layer.symbols.find? name with
    | some symbol =>
      refine .inr ⟨_, _, symbol, ⟨⟨layer.kind, layer.symbols.insert name (change symbol)⟩ :: below,
        globals⟩,
        by simp [ownerIn, Table.has, hlayer], getElem?_cellsOf_top globals layer below, hlayer, ?_,
        by simp only [updateIn, hlayer], rfl, by simp [cellsOf, resume_links]⟩
      cases hkind : layer.kind <;> simp [resolve?, visible, downToCall, hkind, hlayer]
    | none =>
      cases hkind : layer.kind with
      | call =>
        cases hfind : globals.find? name with
        | none =>
          simp [ownerIn, resolve?, visible, downToCall, updateIn, Table.has, hkind, hlayer, hfind]
        | some symbol =>
          exact .inr ⟨0, _, symbol, ⟨layer :: below, globals.insert name (change symbol)⟩,
            by simp [ownerIn, Table.has, hkind, hlayer, hfind], getElem?_cellsOf_zero globals _,
              hfind,
            by simp [resolve?, visible, downToCall, hkind, hlayer, hfind],
            by simp [updateIn, hkind, hlayer, hfind], rfl, (set_cellsOf_zero globals _ _).symm⟩
      | block =>
        -- the name is found below, as it would be without this frame
        have hresolve : resolve? ⟨layer :: below, globals⟩ name =
            resolve? ⟨below, globals⟩ name := by
          simp [resolve?, visible, downToCall, hkind, hlayer]
        simp only [ownerIn, updateIn, Table.has, hkind, hlayer, isSome_none, Bool.false_eq_true,
          if_false, hresolve]
        obtain ⟨howner, hnone, hupdate⟩ | ⟨number, cell, symbol, t, howner, hcell, hsymbol, hfound,
          hupdate, hlength, hcells⟩ := ih
        · exact .inl ⟨howner, hnone, by rw [hupdate]; rfl⟩
        · have hle := ownerIn_le howner
          have hlt : number < below.length + 1 := by omega
          refine .inr ⟨number, cell, symbol, _, howner,
            (getElem?_cellsOf_below globals layer hle).trans hcell,
            hsymbol, hfound, by rw [hupdate]; rfl, by simp [hlength], ?_⟩
          simp [cellsOf, hcells, hlength, hlt]

end Stack

/-! ## An arena gives the answers of a stack -/

namespace Arena

open Stack

theorem walk?_cellsOf (globals : Table Symbol) (name : String) (layers : List Layer)
    (above : List Cell) (current : Nat) (steps : Nat) (h : layers.length < steps) :
    walk? ⟨cellsOf globals layers ++ above, current⟩ name steps (some layers.length) =
      some (ownerIn layers globals name) := by
  have hglobal : ∀ (layers : List Layer) (above : List Cell) {steps : Nat}, 0 < steps →
      walk? ⟨cellsOf globals layers ++ above, current⟩ name steps (some 0) =
        some (if globals.has name then some 0 else none) := by
    intro layers above steps hsteps
    obtain ⟨steps, rfl⟩ := Nat.exists_eq_add_of_lt hsteps
    have hcell : (cellsOf globals layers ++ above)[0]? = some ⟨globals, none, 0⟩ := by
      rw [getElem?_append_left (by simp), getElem?_cellsOf_zero]
    simp only [walk?, hcell, bind_eq_bind, bind_some]
    cases globals.has name <;> simp
  induction layers generalizing above steps with
  | nil => exact hglobal [] above (by omega)
  | cons layer below ih =>
    simp only [length_cons] at h
    obtain ⟨steps, rfl⟩ : ∃ less, steps = less + 1 := ⟨steps - 1, by omega⟩
    have hcell : (cellsOf globals (layer :: below) ++ above)[below.length + 1]? =
        some ⟨layer.symbols, some (layer.kind.links below.length).parent, below.length⟩ := by
      rw [getElem?_append_left (by simp), getElem?_cellsOf_top]
    simp only [walk?, length_cons, hcell, bind_eq_bind, bind_some, ownerIn]
    split
    · rfl
    · cases hkind : layer.kind with
      | call => exact hglobal (layer :: below) above (by omega)
      | block =>
        have hwalk := ih (⟨layer.symbols, some below.length, below.length⟩ :: above) steps (by omega)
        rw [append_cons] at hwalk
        simpa [cellsOf, hkind, Frame.Kind.links] using hwalk

/-- **The walk along parents ends in the frame that owns the name.** -/
theorem owner?_arena (s : Stack) (name : String) : s.arena.owner? name = some (s.owner? name) := by
  have hwalk := walk?_cellsOf s.globals name s.layers [] s.layers.length _ (Nat.lt_succ_self _)
  simpa [owner?, arena, Stack.owner?] using hwalk

theorem resolve?_arena (s : Stack) (name : String) :
    s.arena.resolve? name = some (s.resolve? name) := by
  simp only [resolve?, owner?_arena, Stack.owner?, bind_eq_bind, bind_some]
  obtain ⟨howner, hnone, -⟩ | ⟨number, cell, symbol, t, howner, hcell, hsymbol, hfound, -⟩ :=
    resolve_update_of_owner s.layers s.globals name id
  · simp [howner, hnone]
  · simp [howner, hfound, arena, hcell, hsymbol]

theorem update?_arena (s : Stack) (name : String) (change : Symbol → Symbol) :
    s.arena.update? name change =
    some ((Act.attempt s (s.update? name change)).1,
      (Act.attempt s (s.update? name change)).2.arena) := by
  simp only [update?, owner?_arena, Stack.update?, Stack.owner?, bind_eq_bind, bind_some]
  obtain ⟨howner, -, hupdate⟩ | ⟨number, cell, symbol, t, howner, hcell, hsymbol, -, hupdate,
      hlength, hcells⟩ :=
    resolve_update_of_owner s.layers s.globals name change
  · simp [howner, hupdate, Act.attempt]
  · simp [howner, hupdate, Act.attempt, arena, hcell, hsymbol, hcells, hlength]

theorem getElem?_arena_current (s : Stack) :
    ∃ cell, s.arena.cells[s.arena.current]? = some cell ∧ cell.symbols = s.innermost := by
  obtain ⟨layers, globals⟩ := s
  cases layers with
  | nil => exact ⟨_, getElem?_cellsOf_zero globals [], rfl⟩
  | cons layer below => exact ⟨_, getElem?_cellsOf_top globals layer below, rfl⟩

theorem defineGlobal?_arena (s : Stack) (symbol : Symbol) : s.arena.define? 0 symbol =
    some ((Act.attempt s (s.defineGlobal? symbol)).1,
      (Act.attempt s (s.defineGlobal? symbol)).2.arena) := by
  simp only [define?, arena, getElem?_cellsOf_zero, Stack.defineGlobal?]
  cases hhas : s.globals.has symbol.name <;> simp [hhas, Act.attempt, set_cellsOf_zero]

theorem define?_arena (s : Stack) (symbol : Symbol) : s.arena.define? s.arena.current symbol =
    some ((Act.attempt s (s.define? symbol)).1, (Act.attempt s (s.define? symbol)).2.arena) := by
  obtain ⟨layers, globals⟩ := s
  cases layers with
  | nil => exact defineGlobal?_arena ⟨[], globals⟩ symbol
  | cons layer below =>
    simp only [define?, arena, getElem?_cellsOf_top, length_cons, Stack.define?]
    cases hhas : layer.symbols.has symbol.name <;> simp [hhas, Act.attempt, cellsOf, resume_links]

theorem depth?_arena (s : Stack) : s.arena.depth? = some s.layers.length := by
  have hlength := length_cellsOf s.globals s.layers
  simp only [depth?, arena]
  cases hcells : cellsOf s.globals s.layers with
  | nil => simp [hcells] at hlength
  | cons first rest => simpa [hcells] using hlength

theorem isGlobal_arena (s : Stack) : s.arena.isGlobal = s.layers.isEmpty := by
  cases hlayers : s.layers <;> simp [isGlobal, arena, hlayers]

theorem act?_arena (s : Stack) (what : Act) :
    s.arena.act? what = some ((s.act what).1, (s.act what).2.arena) := by
  cases what with
  | enter kind => cases kind <;> simp [act?, act, enter, push, arena, cellsOf, Frame.Kind.links]
  | exit =>
    obtain ⟨layers, globals⟩ := s
    cases layers with
    | nil => simp [act?, act, exit, arena, cellsOf]
    | cons layer below => simp [act?, act, exit, arena, cellsOf, resume_links]
  | define symbol => exact define?_arena s symbol
  | defineGlobal symbol => exact defineGlobal?_arena s symbol
  | assign name value => exact update?_arena s name _
  | update name change => exact update?_arena s name change
  | reset => simp [act?, act, reset?, arena, head?_cellsOf, Stack.empty, cellsOf]

theorem acts?_arena (s : Stack) (whats : List Act) :
    s.arena.acts? whats = some ((Act.all act s whats).1, (Act.all act s whats).2.arena) := by
  induction whats generalizing s with
  | nil => rfl
  | cons first rest ih => simp [acts?, Act.all, act?_arena, ih]

end Arena

/-! ## Scopes are a stack -/

namespace Bindings

/-- The symbols by the names that they say. -/
def table (bindings : Bindings) : Table Symbol := bindings.map fun symbol => (symbol.name, symbol)

variable {bindings : Bindings} {name : String} {symbol : Symbol}

@[simp] theorem find?_table (bindings : Bindings) (name : String) :
    bindings.table.find? name = bindings.find? name := by
  induction bindings with
  | nil => rfl
  | cons first rest ih =>
    simp only [table, map_cons, Table.find?, find?, find?_cons] at ih ⊢
    by_cases hname : first.name = name
    · simp [hname]
    · simp [hname, beq_eq_false_iff_ne.2 hname, ih]

@[simp] theorem has_table (bindings : Bindings) (name : String) :
    bindings.table.has name = bindings.has name := by
  simp [Table.has, has]

theorem insert_table_of_free (h : bindings.has symbol.name = false) :
    bindings.table.insert symbol.name symbol = Bindings.table (bindings ++ [symbol]) := by
  induction bindings with
  | nil => rfl
  | cons first rest ih =>
    have hname : first.name ≠ symbol.name := by
      intro hname
      simp [has, find?, hname] at h
    have hrest : Bindings.has rest symbol.name = false := by
      simpa [has, find?, find?_cons, hname] using h
    have ih := ih hrest
    simp only [table, map_cons, cons_append, Table.insert, if_neg hname] at ih ⊢
    rw [ih]

theorem insert_table_of_found (hdistinct : (bindings.map Symbol.name).Nodup)
    (hfound : bindings.find? name = some symbol) (change : Symbol → Symbol)
    (hchange : ∀ symbol, (change symbol).name = symbol.name) :
    bindings.table.insert name (change symbol) = (bindings.update name change).table := by
  induction bindings with
  | nil => cases hfound
  | cons first rest ih =>
    obtain ⟨hnew, hrest⟩ := nodup_cons.1 hdistinct
    simp only [find?, find?_cons] at hfound
    by_cases hname : first.name = name
    · obtain rfl : first = symbol := by simpa [hname] using hfound
      have hothers : ∀ other ∈ rest, (if other.name == name then change other else other) =
          other := by
        intro other hother
        have hne : other.name ≠ name := fun h => hnew (mem_map.2 ⟨other, hother, h.trans hname.symm⟩)
        simp [hne]
      have hkeep : Bindings.update rest name change = rest := by
        rw [update, List.map_congr_left hothers, List.map_id']
      simp only [table, update, map_cons, Table.insert, hname, if_true, beq_self_eq_true, hchange]
        at hkeep ⊢
      rw [hkeep]
    · simp only [beq_eq_false_iff_ne.2 hname] at hfound
      have hrestFound : Bindings.find? rest name = some symbol := hfound
      have ih := ih hrest hrestFound
      simp only [table, update, map_cons, Table.insert, hname, if_false, beq_iff_eq] at ih ⊢
      rw [ih]

end Bindings

namespace Scopes

/-- The frames of scopes, with their symbols by the names that they say. -/
def layers (frames : List Frame) : List Stack.Layer :=
  frames.map fun frame => ⟨frame.kind, frame.bindings.table⟩

/-- The stack that scopes are. -/
def stack (s : Scopes) : Stack := ⟨layers s.frames, s.globals.table⟩

/-- No frame binds a name twice. -/
structure Distinct (s : Scopes) : Prop where
  globals : (s.globals.map Symbol.name).Nodup
  frames : ∀ frame ∈ s.frames, (frame.bindings.map Symbol.name).Nodup

namespace Distinct

variable {s t : Scopes}

theorem define? {symbol : Symbol} (hs : s.Distinct) (h : s.define? symbol = some t) :
    t.Distinct := by
  unfold Scopes.define? at h
  split at h
  · obtain ⟨globals, hadd, rfl⟩ := map_eq_some_iff.1 h
    exact ⟨Bindings.nodup_add? hadd hs.globals, hs.frames⟩
  · rename_i frame below hframes
    obtain ⟨bindings, hadd, rfl⟩ := map_eq_some_iff.1 h
    obtain ⟨hframe, hbelow⟩ := forall_mem_cons.1 (hframes ▸ hs.frames)
    exact ⟨hs.globals, forall_mem_cons.2 ⟨Bindings.nodup_add? hadd hframe, hbelow⟩⟩

theorem defineGlobal? {symbol : Symbol} (hs : s.Distinct) (h : s.defineGlobal? symbol = some t) :
    t.Distinct := by
  obtain ⟨globals, hadd, rfl⟩ := map_eq_some_iff.1 h
  exact ⟨Bindings.nodup_add? hadd hs.globals, hs.frames⟩

theorem update? {name : String} {change : Symbol → Symbol}
    (hchange : ∀ symbol, (change symbol).name = symbol.name)
    (hs : s.Distinct) (h : s.update? name change = some t) : t.Distinct := by
  have hchanged {bindings : Bindings} (hbindings : (bindings.map Symbol.name).Nodup) :
      ((bindings.update name change).map Symbol.name).Nodup := by
    rw [Bindings.names_update _ _ _ hchange]
    exact hbindings
  obtain ⟨_, -, ⟨-, rfl⟩ | ⟨above, frame, below, hframes, -, rfl⟩⟩ := update?_eq_some h
  · exact ⟨hchanged hs.globals, hs.frames⟩
  · obtain ⟨habove, hbelow⟩ := forall_mem_append.1 (hframes ▸ hs.frames)
    obtain ⟨hframe, hbelow⟩ := forall_mem_cons.1 hbelow
    exact ⟨hs.globals, forall_mem_append.2 ⟨habove, forall_mem_cons.2 ⟨hchanged hframe, hbelow⟩⟩⟩

theorem attempt {result : Option Scopes} (hs : s.Distinct) (h : ∀ t, result = some t → t.Distinct) :
    (Act.attempt s result).2.Distinct := by
  cases result with
  | none => exact hs
  | some t => exact h t rfl

theorem act (hs : s.Distinct) {what : Act} (hwhat : what.KeepsNames) : (s.act what).2.Distinct := by
  cases what with
  | enter kind => exact ⟨hs.globals, forall_mem_cons.2 ⟨nodup_nil, hs.frames⟩⟩
  | exit => exact ⟨hs.globals, fun frame hframe => hs.frames frame (mem_of_mem_tail hframe)⟩
  | define symbol => exact hs.attempt fun t h => hs.define? h
  | defineGlobal symbol => exact hs.attempt fun t h => hs.defineGlobal? h
  | assign name value => exact hs.attempt fun t h => hs.update? (Act.name_setting value) h
  | update name change => exact hs.attempt fun t h => hs.update? hwhat h
  | reset => exact ⟨nodup_nil, forall_mem_nil _⟩

end Distinct

theorem resolve?_stack (s : Scopes) (name : String) : s.stack.resolve? name = s.resolve? name := by
  obtain ⟨frames, globals⟩ := s
  simp only [Stack.resolve?, Stack.visible, stack, resolve?]
  induction frames with
  | nil => simp [layers, Stack.downToCall, resolveIn]
  | cons frame below ih =>
    simp only [layers, map_cons, Stack.downToCall, resolveIn] at ih ⊢
    cases frame.kind with
    | call => cases hframe : frame.bindings.find? name <;> simp [hframe]
    | block => cases hframe : frame.bindings.find? name <;> simp_all

theorem define?_stack (s : Scopes) (symbol : Symbol) :
    s.stack.define? symbol = (s.define? symbol).map stack := by
  obtain ⟨frames, globals⟩ := s
  cases frames with
  | nil =>
    simp only [stack, layers, map_nil, Stack.define?, Stack.defineGlobal?, define?, Bindings.add?,
      Bindings.has_table]
    cases hhas : globals.has symbol.name <;>
      simp [Bindings.insert_table_of_free, hhas, stack, layers]
  | cons frame below =>
    simp only [stack, layers, map_cons, Stack.define?, define?, Bindings.add?, Bindings.has_table]
    cases hhas : frame.bindings.has symbol.name <;>
      simp [Bindings.insert_table_of_free, hhas, stack, layers]

theorem defineGlobal?_stack (s : Scopes) (symbol : Symbol) :
    s.stack.defineGlobal? symbol = (s.defineGlobal? symbol).map stack := by
  simp only [stack, Stack.defineGlobal?, defineGlobal?, Bindings.add?, Bindings.has_table]
  cases hhas : s.globals.has symbol.name <;> simp [Bindings.insert_table_of_free, hhas, stack]

variable {s : Scopes}

theorem update?_stack (hs : s.Distinct) (name : String) {change : Symbol → Symbol}
    (hchange : ∀ symbol, (change symbol).name = symbol.name) :
    s.stack.update? name change = (s.update? name change).map stack := by
  obtain ⟨frames, globals⟩ := s
  have hglobals : (globals.map Symbol.name).Nodup := hs.globals
  have hframes : ∀ frame ∈ frames, (frame.bindings.map Symbol.name).Nodup := hs.frames
  clear hs
  have hglobal (frames : List Frame) : ((globals.table.find? name).map fun symbol =>
      (⟨layers frames, globals.table.insert name (change symbol)⟩ : Stack)) =
      (if globals.has name then some ⟨frames,
        globals.update name change⟩ else none : Option Scopes).map stack := by
    cases hfind : globals.find? name with
    | none => simp [Bindings.has, hfind]
    | some symbol =>
      simp [Bindings.has, hfind, stack, Bindings.insert_table_of_found hglobals hfind change hchange]
  simp only [Stack.update?, stack, update?]
  induction frames with
  | nil => exact hglobal []
  | cons frame below ih =>
    obtain ⟨hframe, hbelow⟩ := forall_mem_cons.1 hframes
    simp only [layers, map_cons, Stack.updateIn, updateIn, Bindings.find?_table] at ih ⊢
    cases hfind : frame.bindings.find? name with
    | some symbol =>
      simp [Bindings.has, hfind, stack, layers,
        Bindings.insert_table_of_found hframe hfind change hchange]
    | none =>
      simp only [Bindings.has, hfind, isSome_none, Bool.false_eq_true, if_false]
      cases hkind : frame.kind with
      | call =>
        have hcall := hglobal (frame :: below)
        simp only [layers, map_cons, hkind, Bindings.find?_table, Bindings.has] at hcall
        exact hcall
      | block =>
        simp only [ih hbelow, Option.map_map]
        cases updateIn below globals name change with
        | none => rfl
        | some t => simp [stack, layers, hkind]

theorem attempt_stack (s : Scopes) (result : Option Scopes) :
    Act.attempt s.stack (result.map stack) =
      ((Act.attempt s result).1, (Act.attempt s result).2.stack) := by
  cases result <;> rfl

theorem act_stack (hs : s.Distinct) {what : Act} (hwhat : what.KeepsNames) :
    s.stack.act what = ((s.act what).1, (s.act what).2.stack) := by
  cases what with
  | enter kind => rfl
  | exit => simp [Stack.act, act, stack, layers, exit]
  | define symbol => rw [Stack.act, define?_stack, attempt_stack]; rfl
  | defineGlobal symbol => rw [Stack.act, defineGlobal?_stack, attempt_stack]; rfl
  | assign name value =>
    rw [Stack.act, update?_stack hs name (Act.name_setting value), attempt_stack]; rfl
  | update name change => rw [Stack.act, update?_stack hs name hwhat, attempt_stack]; rfl
  | reset => rfl

theorem acts_stack (hs : s.Distinct) {whats : List Act} (hwhats : ∀ what ∈ whats, what.KeepsNames) :
    Act.all Stack.act s.stack whats = ((Act.all act s whats).1, (Act.all act s whats).2.stack) := by
  induction whats generalizing s with
  | nil => rfl
  | cons first rest ih =>
    obtain ⟨hfirst, hrest⟩ := forall_mem_cons.1 hwhats
    simp [Act.all, act_stack hs hfirst, ih (hs.act hfirst) hrest]

end Scopes

/-- **An arena answers as a stack of frames does.** Whatever is done to a new arena, no link leads
out of it and every walk along parents ends; what is done takes effect in the arena exactly where it
takes effect in the stack. Afterwards both give the same answers: what each name stands for, whether
it is bound in the innermost frame and in the global one, how many frames are open, whether the
global frame is the current one, and which symbols it has. In a stack a name is looked for from the
innermost frame down to the nearest call, and then in the global frame. Scopes are this stack,
unless a symbol is made to say another name. -/
theorem arena_answers_as_stack (whats : List Act) :
    (∃ a, Arena.new.acts? whats = some ((Act.all Stack.act .empty whats).1, a) ∧
      let s := (Act.all Stack.act .empty whats).2
      (∀ name, a.resolve? name = some (s.resolve? name) ∧
        a.binds? a.current name = some (s.innermost.has name) ∧
        a.binds? 0 name = some (s.globals.has name)) ∧
      a.depth? = some s.layers.length ∧ a.isGlobal = s.layers.isEmpty ∧
      a.globals? = some (s.globals.map Prod.snd)) ∧
    ((∀ what ∈ whats, what.KeepsNames) → Act.all Stack.act .empty whats =
      ((Act.all Scopes.act .empty whats).1, (Act.all Scopes.act .empty whats).2.stack) ∧
      ∀ name, (Act.all Stack.act .empty whats).2.resolve? name =
        (Act.all Scopes.act .empty whats).2.resolve? name) := by
  constructor
  · refine ⟨_, Arena.acts?_arena .empty whats, ?_⟩
    generalize (Act.all Stack.act .empty whats).2 = s
    have hglobal : s.arena.cells[0]? = some ⟨s.globals, none, 0⟩ := Stack.getElem?_cellsOf_zero _ _
    refine ⟨fun name => ⟨Arena.resolve?_arena s name, ?_, ?_⟩, Arena.depth?_arena s,
      Arena.isGlobal_arena s, ?_⟩
    · obtain ⟨cell, hcell, hsymbols⟩ := Arena.getElem?_arena_current s
      rw [Arena.binds?, hcell, Option.map_some, hsymbols]
    · rw [Arena.binds?, hglobal, Option.map_some]
    · rw [Arena.globals?, hglobal, Option.map_some]
  · intro hwhats
    have hstack := Scopes.acts_stack (s := .empty) ⟨nodup_nil, forall_mem_nil _⟩ hwhats
    refine ⟨hstack, fun name => ?_⟩
    rw [← Scopes.resolve?_stack]
    exact congrArg (fun answers => answers.2.resolve? name) hstack

end Trance
