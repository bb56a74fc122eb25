import Trance.Value

/-!
# Scopes

Names are bound in frames over a global frame. A block frame lets names of the frame below it
through; a call frame hides everything between itself and the global frame, so that a callee
never sees the locals of its caller.
-/

namespace Trance

/-! ## Symbols -/

/-- What a name stands for. -/
inductive Symbol.Kind where
  | variable | suggestion | session | record | parameter | label | builtin | module
deriving DecidableEq, Repr, Inhabited

/-- What a name is bound to: its kind, its declared type and its value, the last two where
there are any. -/
structure Symbol where
  name : String
  kind : Symbol.Kind
  typeName : Option String := none
  value : Option Value := none
deriving Inhabited

/-- The symbols of one frame in the order of their definition. -/
abbrev Bindings := List Symbol

namespace Bindings

def find? (bindings : Bindings) (name : String) : Option Symbol :=
  List.find? (fun symbol => symbol.name == name) bindings

def has (bindings : Bindings) (name : String) : Bool :=
  (bindings.find? name).isSome

/-- The bindings with one more symbol, or nothing if its name is taken. -/
def add? (bindings : Bindings) (symbol : Symbol) : Option Bindings :=
  if bindings.has symbol.name then none else some (bindings ++ [symbol])

/-- The bindings with the symbol of a name changed. -/
def update (bindings : Bindings) (name : String) (change : Symbol → Symbol) : Bindings :=
  bindings.map fun symbol => if symbol.name == name then change symbol else symbol

end Bindings

/-! ## Frames -/

/-- How a frame relates to the frames below it: a block sees them, a call does not. -/
inductive Frame.Kind where
  | block | call
deriving DecidableEq, Repr, Inhabited

/-- A frame of bindings. -/
structure Frame where
  kind : Frame.Kind
  bindings : Bindings
deriving Inhabited

/-- The frames that are open, the innermost first, and the global bindings below them. -/
structure Scopes where
  frames : List Frame
  globals : Bindings
deriving Inhabited

namespace Scopes

/-- No names and no frame but the global one. -/
def empty : Scopes := ⟨[], []⟩

def enter (kind : Frame.Kind) (s : Scopes) : Scopes :=
  { s with frames := ⟨kind, []⟩ :: s.frames }

/-- Close the innermost frame. The global frame stays open. -/
def exit (s : Scopes) : Scopes :=
  { s with frames := s.frames.tail }

/-- The number of frames above the global one. -/
def depth (s : Scopes) : Nat := s.frames.length

/-- Whether the global frame is the innermost one. -/
def isGlobal (s : Scopes) : Bool := s.frames.isEmpty

def innermost (s : Scopes) : Bindings :=
  match s.frames with
  | [] => s.globals
  | frame :: _ => frame.bindings

/-- Bind a name in the innermost frame, or nothing if it is taken there. -/
def define? (s : Scopes) (symbol : Symbol) : Option Scopes :=
  match s.frames with
  | [] => (s.globals.add? symbol).map fun globals => { s with globals }
  | frame :: below =>
    (frame.bindings.add? symbol).map fun bindings =>
      { s with frames := { frame with bindings } :: below }

/-- Bind a name in the global frame, or nothing if it is taken there. -/
def defineGlobal? (s : Scopes) (symbol : Symbol) : Option Scopes :=
  (s.globals.add? symbol).map fun globals => { s with globals }

/-- The symbol that a name has in frames over global bindings: it is looked for from the
innermost frame down to the nearest call, and then among the globals. -/
def resolveIn (frames : List Frame) (globals : Bindings) (name : String) : Option Symbol :=
  match frames with
  | [] => globals.find? name
  | frame :: below =>
    match frame.bindings.find? name with
    | some symbol => some symbol
    | none =>
      match frame.kind with
      | .call => globals.find? name
      | .block => resolveIn below globals name

def resolve? (s : Scopes) (name : String) : Option Symbol :=
  resolveIn s.frames s.globals name

/-- Frames over global bindings with the symbol of a name changed, in the frame where the name
is found; nothing if it is found nowhere. -/
def updateIn (frames : List Frame) (globals : Bindings) (name : String)
    (change : Symbol → Symbol) : Option Scopes :=
  match frames with
  | [] => if globals.has name then some ⟨[], globals.update name change⟩ else none
  | frame :: below =>
    if frame.bindings.has name then
      some ⟨{ frame with bindings := frame.bindings.update name change } :: below, globals⟩
    else
      match frame.kind with
      | .call =>
        if globals.has name then some ⟨frame :: below, globals.update name change⟩ else none
      | .block =>
        (updateIn below globals name change).map fun s => { s with frames := frame :: s.frames }

/-- The scopes with the symbol that a name stands for changed; nothing if it stands for none. -/
def update? (s : Scopes) (name : String) (change : Symbol → Symbol) : Option Scopes :=
  updateIn s.frames s.globals name change

/-- The scopes with a new value for a name; nothing if the name stands for none. -/
def assign? (s : Scopes) (name : String) (value : Value) : Option Scopes :=
  s.update? name fun symbol => { symbol with value := some value }

end Scopes

end Trance
