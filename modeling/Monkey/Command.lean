import Monkey.Program.Render
import Monkey.Prompt

/-! # The command line

A command names a script to run, or none to start the prompt. It may ask for the script to be shown
in full parentheses, and not to be run.

Arguments are read, log filters are checked and failures are reported by libraries. What they do is
not said here: `Command.Libraries` stands for it. What is logged is left out.
-/

namespace Monkey.Command

/-- How deep an evaluation may go. -/
def depth : Nat := 1000000

/-- What the arguments of a command say. -/
structure Options where
  file? : Option String
  /-- Whether the script is to be shown and not to be run. -/
  ast : Bool
  /-- The log filter to use where the environment sets none. -/
  logLevel : String
deriving DecidableEq, Repr

/-- How a command ends. -/
structure Exit where
  status : Nat
  stdout : String
  stderr : String
deriving DecidableEq, Repr

/-- Why something could not be done. -/
inductive Cause where
  /-- What was to be read as text is not text. -/
  | notText
  /-- The reason that the system or a library gives. -/
  | given (reason : String)
deriving DecidableEq, Repr

/-- What could not be done, and why. -/
structure Failure where
  task : String
  cause : Cause
deriving DecidableEq, Repr

/-- What libraries do for a command. -/
structure Libraries where
  /-- What arguments say. A command with wrong arguments, or one that asks for help, ends here. -/
  options : List String → Except Exit Options
  /-- Whether the environment sets a log filter that is valid. -/
  setsFilter : Bool
  /-- What is wrong with a log filter, if it is not valid. -/
  filterFault? : String → Option String
  /-- The report on a failure. -/
  report : Failure → String

namespace Libraries

/-- What is wrong with the log filter of a command. The environment has precedence. -/
def refusedFilter? (lib : Libraries) (o : Options) : Option String :=
  if lib.setsFilter then none else lib.filterFault? o.logLevel

end Libraries

section Tasks

variable (report : Failure → String)

/-- A command fails, after it has written to the output. -/
def fail (stdout task : String) (cause : Cause) : Exit := ⟨1, stdout, report ⟨task, cause⟩⟩

/-- A script with faults: the lines of their report under a heading. -/
def refusal (faults : List Reading.Fault) : Exit :=
  ⟨1, "", Prompt.complaint (Text.lines (Reading.Fault.report faults))⟩

/-- Shows a script in full parentheses. -/
def showScript (source : String) : Exit :=
  match Program.parse source with
  | .ok p => ⟨0, p.render ++ "\n", ""⟩
  | .error faults => refusal faults

/-- Runs a script, and shows what it printed and its value. -/
def runScript (depth : Nat) (source : String) : Option Exit :=
  (run depth source).map fun
    | (.ok v, s) => ⟨if v.isError then 1 else 0, s.output ++ v.inspect ++ "\n", ""⟩
    | (.error faults, _) => refusal faults

/-- The text of a script, from what the system gives for its name. -/
def sourceOf : Except String (List UInt8) → Except Cause String
  | .error reason => .error (.given reason)
  | .ok bytes =>
    match Text.decode? bytes with
    | some source => .ok source
    | none => .error .notText

def script (depth : Nat) (name : String) (ast : Bool) (contents : Except String (List UInt8)) :
    Option Exit :=
  match sourceOf contents with
  | .error cause => some (fail report "" ("failed to read " ++ name) cause)
  | .ok source => if ast then some (showScript source) else runScript depth source

/-- The end of a conversation at the prompt. -/
def afterPrompt (t : Prompt.Transcript) : Exit :=
  if t.complete then ⟨0, t.whole, ""⟩ else fail report t.whole "failed to read from input" .notText

def prompt (depth : Nat) (stdin : List UInt8) : Option Exit :=
  (Prompt.start depth stdin).map (afterPrompt report)

end Tasks

/-- What a command is to do. -/
inductive Task where
  | script (name : String) (ast : Bool)
  | prompt
deriving DecidableEq, Repr

/-- The task that arguments set, unless the command ends before. The log filter is checked first. -/
def taskOf (lib : Libraries) (args : List String) : Except Exit Task :=
  match lib.options args with
  | .error exit => .error exit
  | .ok o =>
    match lib.refusedFilter? o with
    | some reason => .error (fail lib.report "" "invalid log filter" (.given reason))
    | none =>
      match o.file? with
      | some name => .ok (.script name o.ast)
      | none => .ok .prompt

/-- Carries out a command. `files` says what the system gives for the name of a file. -/
def execute (lib : Libraries) (depth : Nat) (files : String → Except String (List UInt8))
    (stdin : List UInt8) (args : List String) : Option Exit :=
  match taskOf lib args with
  | .error exit => some exit
  | .ok (.script name ast) => script lib.report depth name ast (files name)
  | .ok .prompt => prompt lib.report depth stdin

end Monkey.Command
