import Monkey.Command

/-! # The program

All that is decided is decided elsewhere: what a command is to do by `Command.taskOf`, what comes of
a script by `Command.script`, and what the prompt does about a line by `Prompt.react`. Here files
and lines are read, and output is written. There is no log, so every log filter will do.
-/

namespace Monkey.Main

open Command

/-! ## Arguments -/

def usage : String := "Usage: monkey [--ast] [--log-level <LEVEL>] [FILE]\n"

def wrongUsage : Exit := ⟨2, "", usage⟩

/-- Whether an argument can only be an option. -/
def isOption (arg : String) : Bool := "-".isPrefixOf arg && arg ≠ "-"

/-- What the arguments have said so far. -/
structure Seen where
  file? : Option String := none
  ast : Bool := false
  level? : Option String := none

namespace Seen

/-- Takes `arg` for the name of the script, unless there is one already. -/
def addFile (o : Seen) (arg : String) : Except Exit Seen :=
  if o.file?.isSome || arg = "" then .error wrongUsage else .ok { o with file? := some arg }

def addLevel (o : Seen) (level : String) : Except Exit Seen :=
  if o.level?.isSome then .error wrongUsage else .ok { o with level? := some level }

def addAst (o : Seen) : Except Exit Seen :=
  if o.ast then .error wrongUsage else .ok { o with ast := true }

/-- Reads arguments in order. Behind `--` all are names of scripts. -/
def read (o : Seen) : List String → Except Exit Seen
  | [] => .ok o
  | "--" :: files => files.foldlM addFile o
  | "--log-level" :: level :: args => do
    if isOption level then .error wrongUsage else (← o.addLevel level).read args
  | "--ast" :: args => do (← o.addAst).read args
  | arg :: args =>
    if arg = "--help" || arg = "-h" then .error ⟨0, usage, ""⟩
    else if "--log-level=".isPrefixOf arg then do
      (← o.addLevel (arg.drop "--log-level=".length).toString).read args
    else if isOption arg then .error wrongUsage
    else do (← o.addFile arg).read args

end Seen

def options (args : List String) : Except Exit Options :=
  (({} : Seen).read args).map fun o => ⟨o.file?, o.ast, o.level?.getD "warn"⟩

/-! ## Failures -/

def reason : Cause → String
  | .notText => "stream did not contain valid UTF-8"
  | .given reason => reason

def report (f : Failure) : String :=
  "Error: " ++ f.task ++ "\n\nCaused by:\n    " ++ reason f.cause ++ "\n"

def libraries : Libraries where
  options := options
  setsFilter := false
  filterFault? _ := none
  report := report

/-- Why the system could not read a file. -/
def reasonOf : IO.Error → String
  | .noFileOrDirectory .. => "No such file or directory (os error 2)"
  | .inappropriateType _ code details | .permissionDenied _ code details =>
    details ++ " (os error " ++ code.toNat.repr ++ ")"
  | e => e.toString

/-! ## Input and output -/

def contents (name : String) : IO (Except String (List UInt8)) := do
  try
    return .ok (← IO.FS.readBinFile name).toList
  catch e =>
    return .error (reasonOf e)

def finish (exit : Option Exit) : IO UInt32 := do
  match exit with
  | none =>
    IO.eprintln "the evaluation goes too deep"
    return 1
  | some exit =>
    IO.print exit.stdout
    IO.eprint exit.stderr
    return exit.status.toUInt32

/-- Everything up to and with the next line feed. -/
partial def readLine (input : IO.FS.Stream) (line : List UInt8) : IO (List UInt8) := do
  let next ← input.read 1
  match next.toList with
  | [] => return line.reverse
  | b :: _ => if b = 10 then return (b :: line).reverse else readLine input (b :: line)

partial def converse (input output : IO.FS.Stream) (s : Store) : IO UInt32 := do
  output.putStr Prompt.mark
  output.flush
  let line ← readLine input []
  if line.isEmpty then return 0
  match Prompt.react depth line s with
  | none => finish none
  | some .stopped => finish (some (afterPrompt report ⟨[], false, s⟩))
  | some (.answered x t) =>
    for write in x.writes do output.putStr write.text
    converse input output t

end Monkey.Main

open Monkey Monkey.Main in
def main (args : List String) : IO UInt32 := do
  match Command.taskOf libraries args with
  | .error exit => finish (some exit)
  | .ok (.script name ast) =>
    finish (Command.script report Command.depth name ast (← contents name))
  | .ok .prompt => Main.converse (← IO.getStdin) (← IO.getStdout) .fresh
