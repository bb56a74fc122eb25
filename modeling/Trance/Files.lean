import Trance.Location

/-!
# Files

A store is a finite tree of files and directories with a working directory. Paths are texts;
they are resolved name by name from the root or from the working directory, and every
step that leaves a name needs a directory to leave from.
-/

namespace Trance

/-! ## Paths as text -/

namespace Path

/-- A path as seen from a base directory. An absolute path does not depend on the base. -/
def join (base path : String) : String :=
  if path.startsWith "/" || base.isEmpty then path
  else if base.endsWith "/" then base ++ path
  else base ++ "/" ++ path

/-- The parts of a path between slashes, empty ones included. -/
def segments (path : String) : List String :=
  (path.toList.splitOn '/').map String.ofList

/-- The names of a path. A dot stands for the directory it is in and is left out, except at the
start of a relative path. -/
def parts (path : String) : List String :=
  match segments path with
  | "." :: rest => "." :: rest.filter fun s => s ≠ "" && s ≠ "."
  | all => all.filter fun s => s ≠ "" && s ≠ "."

/-- The directory that the last name of a path is in. -/
def parent (path : String) : String :=
  (if path.startsWith "/" then "/" else "") ++ "/".intercalate (parts path).dropLast

end Path

/-! ## The store -/

/-- A file or a directory. A file whose bytes are no text has no content. -/
inductive Node where
  | file (content : Option String)
  | directory
deriving DecidableEq, Repr, Inhabited

def Node.ofBytes (bytes : ByteArray) : Node :=
  .file (String.fromUTF8? bytes)

/-- Files and directories by their names from the root, and the working directory. A directory
that some file is in need not be listed. -/
structure Store where
  nodes : List (List String × Node)
  workDir : List String
deriving Inhabited

/-- Why a file cannot be read. -/
inductive FileError where
  | missing | notDirectory | isDirectory | notText | badName
deriving DecidableEq, Repr, Inhabited

def FileError.message : FileError → String
  | missing => "No such file or directory (os error 2)"
  | notDirectory => "Not a directory (os error 20)"
  | isDirectory => "Is a directory (os error 21)"
  | notText => "stream did not contain valid UTF-8"
  | badName => "file name contained an unexpected NUL byte"

namespace Store

def empty : Store := ⟨[], []⟩

/-- What stands at the end of a list of names. -/
def node? (store : Store) (names : List String) : Option Node :=
  match store.nodes.find? (·.1 = names) with
  | some (_, node) => some node
  | none =>
    if names.isEmpty || names.isPrefixOf store.workDir ||
        store.nodes.any (names.isPrefixOf ·.1) then
      some .directory
    else
      none

/-- Follow the parts of a path from a list of names. Each part, also an empty one, needs a
directory to start from. -/
def follow (store : Store) (names : List String) : List String → Except FileError (List String)
  | [] => .ok names
  | part :: rest =>
    if store.node? names ≠ some .directory then .error .notDirectory
    else if part = "" || part = "." then store.follow names rest
    else if part = ".." then store.follow names.dropLast rest
    else if (store.node? (names ++ [part])).isNone then .error .missing
    else store.follow (names ++ [part]) rest

/-- The names that a path leads to. The empty path leads nowhere, and no name has a zero
character. -/
def resolve (store : Store) (path : String) : Except FileError (List String) :=
  if path.toList.contains (Char.ofNat 0) then .error .badName
  else if path.isEmpty then .error .missing
  else store.follow (if path.startsWith "/" then [] else store.workDir) (Path.segments path)

def read (store : Store) (path : String) : Except FileError String :=
  match store.resolve path with
  | .error e => .error e
  | .ok names =>
    match store.node? names with
    | some (.file (some content)) => .ok content
    | some (.file none) => .error .notText
    | some .directory => .error .isDirectory
    | none => .error .missing

end Store

/-! ## Linked files -/

/-- What tells one linked file from another: a path, taken as its parts. Whether there is a file
at the path plays no role, so a path that leads nowhere can have the key of a file. -/
structure FileKey where
  absolute : Bool
  parts : List String
deriving DecidableEq, Repr, Inhabited

/-- The key of a path: the names that it leads to from the root or, if it leads nowhere, its own
parts. -/
def Store.key (store : Store) (path : String) : FileKey :=
  match store.resolve path with
  | .ok names => ⟨true, names⟩
  | .error _ => ⟨path.startsWith "/", Path.parts path⟩

/-- Where declarations of the file with a key come from. -/
def FileKey.origin (key : FileKey) : Origin := .file key.parts

end Trance
