/-!
# Positions in a text

Lines and columns count from one, and columns count characters. A position moves over
a character by one rule, so the position of any part of a text is a fold over what stands
before it.
-/

namespace Trance

/-- A line and a column, both counted from one in a text. -/
structure Location where
  line : Nat
  column : Nat
deriving DecidableEq, Repr, Inhabited

namespace Location

def start : Location := ⟨1, 1⟩

/-- The position behind a character: a line feed starts the next line, and everything else
takes one column. -/
def next (loc : Location) (c : Char) : Location :=
  if c = '\n' then ⟨loc.line + 1, 1⟩ else ⟨loc.line, loc.column + 1⟩

def after (loc : Location) (text : List Char) : Location :=
  text.foldl next loc

@[simp] theorem after_nil (loc : Location) : loc.after [] = loc := rfl

@[simp] theorem after_cons (loc : Location) (c : Char) (text : List Char) :
    loc.after (c :: text) = (loc.next c).after text := rfl

theorem after_append (loc : Location) (s t : List Char) :
    loc.after (s ++ t) = (loc.after s).after t := by
  simp [after, List.foldl_append]

def text (loc : Location) : String :=
  s!"{loc.line}:{loc.column}"

end Location

/-- The text that a declaration was read from: the program itself, or a linked file named
by its canonical path. Together with a position it identifies a declaration. -/
inductive Origin where
  | main
  | file (path : List String)
deriving DecidableEq, Repr, Inhabited

end Trance
