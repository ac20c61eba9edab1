import Monkey.Reading.Grammar
import Monkey.Token.Scan

/-! # Reading whole programs

A `Reader` stands somewhere in a text and keeps the faults that it has met. It reads all there is in
one go; asked again, it stands at the end and reads the empty program.
-/

namespace Monkey

open Reading

structure Reader where
  unread : List Token
  faults : List Fault
deriving DecidableEq, Repr

namespace Reader

/-- Stands at the start of a text. -/
def ofSource (source : String) : Reader := ⟨Token.scan source, []⟩

/-- Reads the statements that are left, without those that could not be read. -/
def readAll (r : Reader) : Program × Reader :=
  let out := statements r.unread
  (⟨out.value?.getD []⟩, ⟨out.rest, r.faults ++ out.faults⟩)

/-- Reads what is left, and hands over all faults met so far in place of the program if there are
any. -/
def finish (r : Reader) : Except (List Fault) Program × Reader :=
  match r.readAll with
  | (program, ⟨unread, []⟩) => (.ok program, ⟨unread, []⟩)
  | (_, ⟨unread, fault :: faults⟩) => (.error (fault :: faults), ⟨unread, []⟩)

end Reader

/-- The program that a text spells, or the faults in it. -/
def Program.parse (source : String) : Except (List Fault) Program :=
  (Reader.ofSource source).finish.1

end Monkey
