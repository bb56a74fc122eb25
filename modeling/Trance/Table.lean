/-!
# Tables by name

A table is a list of named entries. Where a name occurs twice the first entry counts; inserting
replaces the entry of a name in its place, or adds a new one at the end, so a table keeps the
order in which its names first appeared.
-/

namespace Trance

/-- A list of named entries, of which the first with a name counts. -/
abbrev Table (α : Type) := List (String × α)

namespace Table

variable {α ε : Type}

def find? (table : Table α) (name : String) : Option α :=
  match table with
  | [] => none
  | (key, entry) :: rest => if key = name then some entry else find? rest name

def has (table : Table α) (name : String) : Bool :=
  (table.find? name).isSome

def insert (table : Table α) (name : String) (entry : α) : Table α :=
  match table with
  | [] => [(name, entry)]
  | (key, old) :: rest =>
    if key = name then (key, entry) :: rest else (key, old) :: insert rest name entry

/-- The table with the entry of a name changed, or nothing if the name has no entry. A change
that fails leaves no table. -/
def modify? (table : Table α) (name : String) (change : α → Except ε α) :
    Option (Except ε (Table α)) :=
  match table with
  | [] => none
  | (key, entry) :: rest =>
    if key = name then
      some ((change entry).map fun entry => (key, entry) :: rest)
    else
      (modify? rest name change).map (·.map ((key, entry) :: ·))

def names (table : Table α) : List String :=
  table.map (·.1)

end Table

end Trance
