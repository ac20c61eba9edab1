import Monkey.Eval.Program
import Monkey.Reading.Reader

/-! # Sessions

A session works on one store. Frames can be made and asked about from outside, and texts can be run
in them, one after the other.
-/

namespace Monkey

open Reading

namespace Store

/-- A store with one frame, which is empty and lies in no other. -/
def fresh : Store := empty.addFrame (.empty none)

/-- The same, with nothing printed yet. -/
def silent (s : Store) : Store := { s with output := "" }

/-- Runs a text in the frame `scope`. A text with faults is not run at all. -/
def run (depth : Nat) (scope : FrameId) (source : String) (s : Store) :
    Option (Except (List Fault) Value × Store) :=
  match Program.parse source with
  | .error faults => some (.error faults, s)
  | .ok p => (p.eval depth scope s).map fun (v, t) => (.ok v, t)

/-- Either the text has faults, and nothing happens; or it is read, and what was read is evaluated. -/
theorem run_eq_some_iff {depth : Nat} {scope : FrameId} {source : String} {s t : Store}
    {result : Except (List Fault) Value} : s.run depth scope source = some (result, t) ↔
      (∃ faults, Program.parse source = .error faults ∧ result = .error faults ∧ t = s) ∨
      ∃ p v, Program.parse source = .ok p ∧ p.eval depth scope s = some (v, t) ∧
        result = .ok v := by
  constructor
  · intro h
    unfold run at h
    split at h
    · rename_i faults hparse
      cases h
      exact .inl ⟨faults, hparse, rfl, rfl⟩
    · rename_i p hparse
      obtain ⟨⟨v, u⟩, heval, heq⟩ := Option.map_eq_some_iff.1 h
      cases heq
      exact .inr ⟨p, v, hparse, heval, rfl⟩
  · rintro (⟨faults, hparse, rfl, rfl⟩ | ⟨p, v, hparse, heval, rfl⟩)
    · rw [run, hparse]
    · simp only [run, hparse, heval, Option.map_some]

end Store

/-- The value of a text that is run on its own, in a store in which nothing is bound. -/
def run (depth : Nat) (source : String) : Option (Except (List Fault) Value × Store) :=
  Store.fresh.run depth 0 source

namespace Session

inductive Step where
  /-- Makes a frame that lies in no other. -/
  | new
  /-- Makes a frame inside another one. -/
  | enclose (outer : FrameId)
  | get (frame : FrameId) (name : String)
  | set (frame : FrameId) (name : String) (value : Value)
  | run (frame : FrameId) (source : String)

inductive Answer where
  | made (frame : FrameId)
  | found (value? : Option Value)
  | bound (value : Value)
  /-- How a text ran, and what it printed. -/
  | ran (result : Except (List Fault) Value) (output : String)

/-- Takes a step, unless the text that it runs is cut off. -/
def perform (depth : Nat) (s : Store) : Step → Option (Answer × Store)
  | .new => some (.made s.next, s.addFrame (.empty none))
  | .enclose outer => some (.made s.next, s.addFrame (.empty (some outer)))
  | .get frame x => some (.found (s.get? frame x), s)
  | .set frame x v => some (.bound v, s.set frame x v)
  | .run frame source =>
    (s.silent.run depth frame source).map fun (result, t) => (.ran result t.output, t)

/-- Takes steps one after the other. -/
def performAll (depth : Nat) : List Step → Store → Option (List Answer × Store)
  | [], s => some ([], s)
  | step :: steps, s => do
    let (answer, t) ← perform depth s step
    let (answers, u) ← performAll depth steps t
    some (answer :: answers, u)

end Session
end Monkey
