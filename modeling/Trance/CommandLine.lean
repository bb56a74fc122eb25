import Trance.Checking.Program
import Trance.Running.Engine

/-!
# The command line

What a command shows and how it ends, as a function of its arguments, the files and the input.
Before a program is run it is checked; it is run only if there is no error, and warnings do
not stop it.
-/

namespace Trance

/-! ## Commands -/

/-- What the arguments ask for. -/
inductive Command where
  | run (file : String)
  | check (file : String)
  | nothing
  | unclear
deriving DecidableEq, Repr, Inhabited

/-- The command that arguments spell. A single argument is always a file. -/
def Command.ofArgs : List String → Command
  | [] => .nothing
  | [file] => .run file
  | ["run", file] => .run file
  | ["check", file] => .check file
  | _ => .unclear

/-! ## Replies -/

/-- A piece of what a command shows: an event of a run, or a note, which goes to the error
stream. -/
inductive Shown where
  | event (event : Event)
  | note (text : String)
deriving DecidableEq, Repr, Inhabited

namespace Shown

def output : Shown → String
  | event (.line text) => text ++ "\n"
  | event (.prompt text) => text
  | event (.pause _) | note _ => ""

def errors : Shown → String
  | event _ => ""
  | note text => text ++ "\n"

def alarm (text : String) : Shown := note ("\x1b[38;5;9m" ++ text ++ "\x1b[39m")

def caution (text : String) : Shown := note ("\x1b[38;5;11m" ++ text ++ "\x1b[39m")

end Shown

/-- What a command shows, in order, and its exit code. -/
structure Reply where
  shown : List Shown
  exit : UInt32
deriving DecidableEq, Repr, Inhabited

namespace Reply

/-- All that is written to the output stream. -/
def output (r : Reply) : String := String.join (r.shown.map Shown.output)

def errors (r : Reply) : String := String.join (r.shown.map Shown.errors)

/-- The number of lines of input that the command asked for. -/
def prompts (r : Reply) : Nat :=
  r.shown.countP fun
    | .event (.prompt _) => true
    | _ => false

/-- The reply with something shown before it. -/
def after (before : List Shown) (r : Reply) : Reply := { r with shown := before ++ r.shown }

end Reply

/-! ## Carrying a command out -/

namespace Command

def usage : List Shown :=
  [.note "Usage: hypno [run|check] <file.hyp>",
   .note "",
   .note "Commands:",
   .note "  run    Type check, then execute the program (default)",
   .note "  check  Type check only",
   .note "",
   .note "Set HYPNO_LOG (e.g. HYPNO_LOG=debug) to enable logging."]

/-- The end of a run: what it showed, the assertions that did not hold, and the error that ended
it, if there was one. A run that panics has no time to tell of assertions. -/
def conclude (m : Machine) (error : Option RuntimeError) : Reply :=
  let shown := m.events.toList.map Shown.event ++ m.failures.map fun f => Shown.caution f.text
  match error with
  | some .panicked => ⟨m.events.toList.map Shown.event ++ [.note RuntimeError.panicked.message], 101⟩
  | some e => ⟨shown ++ [.alarm ("Runtime error: " ++ e.message)], 1⟩
  | none => ⟨shown, if m.failures.isEmpty then 0 else 2⟩

def runChecked (files : Store) (baseDir : String) (input : List String) (bound : Nat)
    (program : Program) : Option Reply :=
  match program.run ⟨files, Settings.defaultDepth⟩ bound (Machine.new baseDir input none) with
  | .done _ m => some (conclude m none)
  | .failed e m => some (conclude m (some e))
  | .exhausted => none

/-- What a report shows: the warnings, the errors, and how many there are if there is an error. -/
def reportShown (report : Report) : List Shown :=
  report.warnings.map (fun d => .caution d.text) ++ report.errors.map (fun d => .alarm d.text) ++
    if report.hasErrors then
      [.alarm s!"{report.errors.length} error(s), {report.warnings.length} warning(s)"]
    else []

/-- Check the program in a file and, if asked, run it. -/
def process (files : Store) (input : List String) (bound : Nat) (file : String) (execute : Bool) :
    Option Reply :=
  match files.read file with
  | .error e => some ⟨[.note s!"Error: Cannot read '{file}': {e.message}"], 1⟩
  | .ok source =>
    match Program.ofText .main source with
    | .error e => some ⟨[.alarm e.message], 1⟩
    | .ok program =>
      let baseDir := Path.parent file
      let report := ((Linker.ofFiles files).check program (Checker.new baseDir)).report
      let shown := reportShown report
      if report.hasErrors then
        some ⟨shown, 1⟩
      else if execute then
        (runChecked files baseDir input bound program).map (Reply.after shown)
      else
        some ⟨shown ++ [.note s!"No errors, {report.warnings.length} warning(s)"], 0⟩

/-- Carry a command out, with files and lines of input. There is no reply if the program needs
more steps than the bound allows. -/
def perform (files : Store) (input : List String) (bound : Nat) : Command → Option Reply
  | run file => process files input bound file true
  | check file => process files input bound file false
  | nothing => some ⟨.note "Error: No input file provided" :: .note "" :: usage, 1⟩
  | unclear => some ⟨usage, 1⟩

def file? : Command → Option String
  | run file | check file => some file
  | nothing | unclear => none

end Command

/-! ## Input -/

/-- A line of input without the line break at its end. -/
def stripBreak (line : String) : String :=
  String.ofList (line.toList.reverse.dropWhile fun c => c = '\n' || c = '\r').reverse

/-- The lines of a text that is given as input. A line break ends a line, so there is no line
behind the last one. -/
def inputLines (text : String) : List String :=
  let lines := (text.toList.splitOn '\n').map fun cs => stripBreak (String.ofList cs)
  if text.isEmpty || text.endsWith "\n" then lines.dropLast else lines

end Trance
