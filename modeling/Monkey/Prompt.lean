import Monkey.Session
import Monkey.Text.Lines
import Monkey.Text.WhiteSpace

/-! # The interactive prompt

The prompt asks for a line, runs it, shows what came of it, and asks again. All lines run in the
same frame. A line that is not text ends the conversation.
-/

namespace Monkey.Prompt

open Reading

/-- What asks for a line. -/
def mark : String := ">> "

/-- The faults of a text, one to a line under a heading. -/
def complaint (messages : List String) : String :=
  "parser errors:\n" ++ String.join (messages.map ("\t" ++ · ++ "\n"))

/-- What one line led to. -/
structure Exchange where
  /-- What the program printed while it ran. -/
  printed : String
  /-- What the prompt showed afterwards. -/
  response : String
deriving DecidableEq, Repr

/-- Shows what came of running a text. -/
def respond : Except (List Fault) Value → String
  | .ok v => v.inspect ++ "\n"
  | .error faults => complaint (faults.map Fault.message)

/-- Runs one line in the first frame. White space at its end does not count, and a line without
anything else is passed over. -/
def exchange (depth : Nat) (line : String) (s : Store) : Option (Exchange × Store) :=
  let text := Text.trimEnd line
  if text = "" then some (⟨"", ""⟩, s)
  else
    (s.silent.run depth 0 text).map fun (result, t) => (⟨t.output, respond result⟩, t)

/-- A piece of output. -/
inductive Write where
  /-- The prompt shows something. -/
  | shown (text : String)
  /-- A program prints something while it runs. -/
  | printed (text : String)
deriving DecidableEq, Repr

namespace Write

def text : Write → String
  | .shown text | .printed text => text

def shown? : Write → Option String
  | .shown text => some text
  | .printed _ => none

def printed? : Write → Option String
  | .shown _ => none
  | .printed text => some text

end Write

/-- The output that a line leads to. The program has run before anything is shown. -/
def Exchange.writes (x : Exchange) : List Write := [.printed x.printed, .shown x.response]

/-- What the prompt does about a line. -/
inductive Reaction where
  /-- The line is not text, and the conversation is over. -/
  | stopped
  /-- The conversation goes on in the store `s`. -/
  | answered (x : Exchange) (s : Store)

def react (depth : Nat) (line : List UInt8) (s : Store) : Option Reaction :=
  match Text.decode? line with
  | none => some .stopped
  | some text => (exchange depth text s).map fun (x, t) => .answered x t

theorem react_eq_answered_iff {depth : Nat} {line : List UInt8} {s t : Store} {x : Exchange} :
    react depth line s = some (.answered x t) ↔
      ∃ text, Text.decode? line = some text ∧ exchange depth text s = some (x, t) := by
  unfold react
  cases Text.decode? line with
  | none => exact ⟨nofun, nofun⟩
  | some text =>
    constructor
    · intro h
      obtain ⟨r, hr, heq⟩ := Option.map_eq_some_iff.1 h
      cases heq
      exact ⟨text, rfl, hr⟩
    · rintro ⟨_, ⟨⟩, hx⟩
      exact Option.map_eq_some_iff.2 ⟨(x, t), hx, rfl⟩

/-- A whole conversation. -/
structure Transcript where
  /-- All output, in the order in which it was written. -/
  writes : List Write
  /-- Whether all lines were text. -/
  complete : Bool
  /-- The store in the end. -/
  store : Store

namespace Transcript

/-- The same conversation with one exchange before it. -/
def after (x : Exchange) (t : Transcript) : Transcript :=
  { t with writes := .shown mark :: (x.writes ++ t.writes) }

/-- What the prompt wrote. -/
def screen (t : Transcript) : String := String.join (t.writes.filterMap Write.shown?)

/-- What the programs printed. -/
def printed (t : Transcript) : String := String.join (t.writes.filterMap Write.printed?)

/-- Both, in the order in which they were written. -/
def whole (t : Transcript) : String := String.join (t.writes.map Write.text)

end Transcript

/-- Asks for a line, reacts to it, and asks for the next one. The end of the input and a line that
is not text are found after asking. -/
def converse (depth : Nat) : List (List UInt8) → Store → Option Transcript
  | [], s => some ⟨[.shown mark], true, s⟩
  | line :: lines, s =>
    match react depth line s with
    | none => none
    | some .stopped => some ⟨[.shown mark], false, s⟩
    | some (.answered x t) => (converse depth lines t).map (.after x)

/-- The conversation over some input. -/
def start (depth : Nat) (input : List UInt8) : Option Transcript :=
  converse depth (Text.byteLines input) .fresh

end Monkey.Prompt
