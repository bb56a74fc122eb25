import Trance.Proofs.Places.Paths

/-!
# Slots

What holds a value in a machine: a name that is bound in one of the frames, or a field of an object.
An assignment to a name changes the symbol in the frame where the name is found, and in no other
frame, and a field of an object is changed in that object alone. -/

namespace Trance

/-! ## Where names are bound -/

/-- Where a name is bound: in a frame, counted from the innermost one, or among the global names. -/
structure Scopes.Cell where
  frame : Option Nat
  name : String
deriving DecidableEq

def Scopes.Cell.outward (cell : Cell) : Cell := { cell with frame := cell.frame.map (· + 1) }

def Symbol.holding (value : Value) (symbol : Symbol) : Symbol := { symbol with value := some value }

namespace Bindings

variable (bindings : Bindings) (name : String) (value last : Value)

theorem find?_update_holding (other : String) :
    (bindings.update name (Symbol.holding value)).find? other =
    if name = other then (bindings.find? other).map
      (Symbol.holding value) else bindings.find? other := by
  rw [find?_update bindings name other (Symbol.holding value) fun _ => rfl]
  cases hfind : bindings.find? other with
  | none => simp
  | some symbol =>
    obtain rfl := name_of_find? hfind
    by_cases hname : name = symbol.name
    · simp [hname]
    · simp [hname, Ne.symm hname]

theorem update_holding_twice : (bindings.update name (Symbol.holding value)).update name
    (Symbol.holding last) = bindings.update name (Symbol.holding last) := by
  rw [update, update, update, List.map_map]
  refine List.map_congr_left fun symbol _ => ?_
  by_cases hname : symbol.name = name <;> simp [Symbol.holding, hname]

theorem has_update_holding (other : String) :
    (bindings.update name (Symbol.holding value)).has other = bindings.has other := by
  rw [has, has, find?_update_holding]
  split <;> simp

end Bindings

namespace Scopes

def bindings? (s : Scopes) : Option Nat → Option Bindings
  | none => some s.globals
  | some i => s.frames[i]?.map Frame.bindings

def symbol? (s : Scopes) (cell : Cell) : Option Symbol :=
  (s.bindings? cell.frame).bind (·.find? cell.name)

/-- Let a cell hold another value. -/
def write (s : Scopes) (cell : Cell) (value : Value) : Scopes :=
  match cell.frame with
  | none => { s with globals := s.globals.update cell.name (Symbol.holding value) }
  | some i => { s with frames := s.frames.modify i fun frame =>
      { frame with bindings := frame.bindings.update cell.name (Symbol.holding value) } }

def globalCell? (globals : Bindings) (name : String) : Option Cell :=
  if globals.has name then some ⟨none, name⟩ else none

/-- The cell in which a name is found, looked for as its symbol is. -/
def cellIn (frames : List Frame) (globals : Bindings) (name : String) : Option Cell :=
  match frames with
  | [] => globalCell? globals name
  | frame :: below =>
    if frame.bindings.has name then some ⟨some 0, name⟩
    else
      match frame.kind with
      | .call => globalCell? globals name
      | .block => (cellIn below globals name).map Cell.outward

def cell? (s : Scopes) (name : String) : Option Cell := cellIn s.frames s.globals name

theorem symbol?_globalCell? (frames : List Frame) (globals : Bindings) (name : String) :
    (globalCell? globals name).bind (symbol? ⟨frames, globals⟩) = globals.find? name := by
  unfold globalCell? Bindings.has
  cases hfind : globals.find? name with
  | none => rfl
  | some symbol => exact hfind

theorem symbol?_outward (frame : Frame) (below : List Frame) (globals : Bindings) (cell : Cell) :
    symbol? ⟨frame :: below, globals⟩ cell.outward = symbol? ⟨below, globals⟩ cell := by
  obtain ⟨_ | i, name⟩ := cell <;> rfl

theorem write_outward (frame : Frame) (below : List Frame) (globals : Bindings) (cell : Cell)
    (value : Value) : write ⟨frame :: below, globals⟩ cell.outward value =
      let s := write ⟨below, globals⟩ cell value
      { s with frames := frame :: s.frames } := by
  obtain ⟨_ | i, name⟩ := cell <;> rfl

theorem resolve?_eq (s : Scopes) (name : String) :
    s.resolve? name = (s.cell? name).bind s.symbol? := by
  obtain ⟨frames, globals⟩ := s
  show resolveIn frames globals name = (cellIn frames globals name).bind (symbol? ⟨frames, globals⟩)
  induction frames with
  | nil => exact (symbol?_globalCell? [] globals name).symm
  | cons frame below ih =>
    rw [resolveIn, cellIn, Bindings.has]
    cases hfind : frame.bindings.find? name with
    | some symbol => exact hfind.symm
    | none =>
      cases frame.kind with
      | call => exact (symbol?_globalCell? (frame :: below) globals name).symm
      | block =>
        simp only [Option.isSome_none, Bool.false_eq_true, if_false, ih, Option.bind_map]
        exact congrArg _ (funext fun cell => (symbol?_outward frame below globals cell).symm)

theorem resolve?_of_cell {s : Scopes} {name : String} {cell : Cell} {symbol : Symbol}
    (hcell : s.cell? name = some cell) (hsymbol : s.symbol? cell = some symbol) :
    s.resolve? name = some symbol := by
  rw [resolve?_eq, hcell]
  exact hsymbol

theorem assign?_eq (s : Scopes) (name : String) (value : Value) :
    s.assign? name value = (s.cell? name).map (s.write · value) := by
  obtain ⟨frames, globals⟩ := s
  show updateIn frames globals name (Symbol.holding value) =
    (cellIn frames globals name).map (write ⟨frames, globals⟩ · value)
  induction frames with
  | nil =>
    rw [updateIn, cellIn, globalCell?]
    split <;> rfl
  | cons frame below ih =>
    rw [updateIn, cellIn]
    cases frame.bindings.has name with
    | true => rfl
    | false =>
      cases frame.kind with
      | call =>
        simp only [Bool.false_eq_true, if_false, globalCell?]
        split <;> rfl
      | block =>
        simp only [Bool.false_eq_true, if_false, ih, Option.map_map]
        exact congrArg (Option.map · _) (funext fun cell =>
          (write_outward frame below globals cell value).symm)

section

variable (s : Scopes) (cell : Cell) (value last : Value)

theorem symbol?_write (other : Cell) : (s.write cell value).symbol? other =
    if cell = other then (s.symbol? other).map (Symbol.holding value) else s.symbol? other := by
  obtain ⟨frame, name⟩ := cell
  obtain ⟨frame', name'⟩ := other
  cases frame with
  | none =>
    cases frame' with
    | none => simp [write, symbol?, bindings?, Bindings.find?_update_holding]
    | some j => simp [write, symbol?, bindings?]
  | some i =>
    cases frame' with
    | none => simp [write, symbol?, bindings?]
    | some j =>
      simp only [write, symbol?, bindings?, List.getElem?_modify]
      by_cases hij : i = j
      · cases s.frames[j]? <;> simp [hij, Bindings.find?_update_holding]
      · simp [hij]

theorem write_write : (s.write cell value).write cell last = s.write cell last := by
  obtain ⟨_ | i, name⟩ := cell
  · simp [write, Bindings.update_holding_twice]
  · simp only [write, Scopes.mk.injEq, and_true]
    refine List.ext_getElem? fun j => ?_
    simp only [List.getElem?_modify]
    by_cases hij : i = j
    · cases s.frames[j]? <;> simp [hij, Bindings.update_holding_twice]
    · simp [hij]

end

theorem cell?_write (s : Scopes) (cell : Cell) (value : Value) (name : String) :
    (s.write cell value).cell? name = s.cell? name := by
  obtain ⟨frames, globals⟩ := s
  obtain ⟨frame?, written⟩ := cell
  cases frame? with
  | none =>
    show cellIn frames (globals.update written (Symbol.holding value)) name =
        cellIn frames globals name
    induction frames with
    | nil => simp only [cellIn, globalCell?, Bindings.has_update_holding]
    | cons frame below ih =>
      simp only [cellIn, globalCell?, Bindings.has_update_holding, ih]
  | some i =>
    show cellIn (frames.modify i _) globals name = cellIn frames globals name
    induction frames generalizing i with
    | nil => rw [List.modify_nil]
    | cons frame below ih =>
      cases i with
      | zero => simp [cellIn, Bindings.has_update_holding]
      | succ i => simp only [List.modify_succ_cons, cellIn, ih]

end Scopes

/-! ## Slots -/

/-- What holds a value: a name that is bound somewhere, or a field of an object. -/
inductive Slot where
  | binding (cell : Scopes.Cell)
  | field (id : Nat) (name : String)
deriving DecidableEq

namespace Machine

/-- The value that a slot holds. -/
def held? (m : Machine) : Slot → Option Value
  | .binding cell => (m.scopes.symbol? cell).bind Symbol.value
  | .field id name => m.heap[id]?.bind (·.fields.find? name)

/-- Let a slot hold another value. -/
def write (m : Machine) (value : Value) : Slot → Machine
  | .binding cell => { m with scopes := m.scopes.write cell value }
  | .field id name => { m with heap := m.heap.modify id (·.setField name value) }

variable (m : Machine) (slot : Slot) (value last : Value)

/-- **Every other slot holds what it held.** -/
theorem held?_write_of_ne {other : Slot} (h : other ≠ slot) :
    (m.write value slot).held? other = m.held? other := by
  cases slot with
  | binding cell =>
    cases other with
    | binding other =>
      have hne : cell ≠ other := fun hcell => h (hcell ▸ rfl)
      simp [held?, write, Scopes.symbol?_write, hne]
    | field => rfl
  | field id name =>
    cases other with
    | binding => rfl
    | field other member =>
      simp only [held?, write, Array.getElem?_modify]
      by_cases hid : id = other
      · have hname : name ≠ member := fun hname => h (by rw [hid, hname])
        cases m.heap[other]? <;> simp [hid, Instance.setField, Table.find?_insert, hname]
      · simp [hid]

theorem write_write : (m.write value slot).write last slot = m.write last slot := by
  cases slot with
  | binding cell => simp [write, Scopes.write_write]
  | field id name =>
    simp only [write, Machine.mk.injEq, and_true, true_and]
    refine Array.ext_getElem? fun i => ?_
    simp only [Array.getElem?_modify]
    by_cases hid : id = i
    · cases m.heap[i]? <;> simp [hid, Instance.setField, Table.insert_insert]
    · simp [hid]

end Machine

end Trance
