import Trance.CommandLine

/-!
# The program

Gathers the files that a command can reach, carries the command out, and shows its reply. Input
is read line by line, when the program asks for it.
-/

namespace Trance.Shell

/-- What stands at a list of names from the root. -/
def nodeAt (names : List String) : IO (Option Node) := do
  let path := "/" ++ "/".intercalate names
  try
    if ← (← IO.FS.realPath path).isDir then
      return some .directory
    else
      return some (Node.ofBytes (← IO.FS.readBinFile path))
  catch _ =>
    return none

def survey (store : Store) (names : List String) : List String → IO Store
  | [] => return store
  | part :: rest => do
    if part = "" || part = "." then
      survey store names rest
    else if part = ".." then
      survey store names.dropLast rest
    else
      let names := names ++ [part]
      match ← nodeAt names with
      | none => return store
      | some node => survey { store with nodes := (names, node) :: store.nodes } names rest

/-- Add the file at a path, and the files that it links, to a store. The visited files are known
by their names from the root. -/
partial def gather (store : Store) (visited : List (List String)) : List String → IO Store
  | [] => return store
  | path :: rest => do
    let start := if path.startsWith "/" then [] else store.workDir
    let store ← survey store start (Path.segments path)
    match store.resolve path, store.read path with
    | .ok names, .ok source =>
      if visited.contains names then
        gather store visited rest
      else
        let links := match Program.ofText .main source with
          | .ok program => program.links.map (Path.join (Path.parent path))
          | .error _ => []
        gather store (names :: visited) (links ++ rest)
    | _, _ => gather store visited rest

def display : Shown → IO Unit
  | .event (.pause milliseconds) => IO.sleep (UInt32.ofNat (min milliseconds (Nat.pow 2 32 - 1)))
  | piece => do
    (← IO.getStdout).putStr piece.output
    (← IO.getStdout).flush
    (← IO.getStderr).putStr piece.errors

def nextLine : IO (Option String) := do
  try
    let line ← (← IO.getStdin).getLine
    return if line.isEmpty then none else some (stripBreak line)
  catch _ =>
    return none

/-- The pieces of a reply up to the prompt for a line of input that has not been given. -/
def untilPrompt (given : Nat) : List Shown → List Shown
  | [] => []
  | piece :: rest =>
    match piece, given with
    | .event (.prompt _), 0 => [piece]
    | .event (.prompt _), given + 1 => piece :: untilPrompt given rest
    | _, given => piece :: untilPrompt given rest

/-- Carry a command out. When it asks for more input than has been given, what it shows up to
there is shown, and it is carried out again with one more line. -/
partial def converse (command : Command) (files : Store) (given : List String) (seen : Nat) :
    IO UInt32 := do
  match command.perform files given Program.ampleBound with
  | none => return 1
  | some reply =>
    if given.length < reply.prompts then
      let pieces := untilPrompt given.length reply.shown
      (pieces.drop seen).forM display
      match ← nextLine with
      | some line => converse command files (given ++ [line]) pieces.length
      | none =>
        (reply.shown.drop pieces.length).forM display
        return reply.exit
    else
      (reply.shown.drop seen).forM display
      return reply.exit

end Trance.Shell

def main (args : List String) : IO UInt32 := do
  let command := Trance.Command.ofArgs args
  let workDir := Trance.Path.parts (← IO.currentDir).toString
  let files ← Trance.Shell.gather ⟨[], workDir⟩ [] command.file?.toList
  Trance.Shell.converse command files [] 0
