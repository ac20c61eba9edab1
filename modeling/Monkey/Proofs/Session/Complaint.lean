import Monkey.Command
import Monkey.Proofs.Reading.Requests
import Monkey.Proofs.Reading.Together
import Monkey.Proofs.Session.Conversation

/-! # What is said about faults

A command writes the lines of a report: the messages are joined to a text, which is then taken apart
at the ends of lines. The prompt writes the messages themselves. It comes to the same, since no
message is empty or has the end of a line in it.

This holds of the fixed parts of all messages. What else a message shows is the name of a kind of
token, or the digits of a number; and a number in a fault is one of the tokens of the text
(`Reading.dueTo_of_mem_faults`), which consist of digits (`Token.lexed_of_mem_scan`).
-/

namespace Monkey

open Reading

/-! ## Where faults come from -/

theorem Program.dueTo_of_parse {source : String} {faults : List Fault}
    (h : Program.parse source = .error faults) :
    faults ≠ [] ∧ ∀ f ∈ faults, f.DueTo Token.Lexed := by
  rw [Program.parse, Reader.finish_eq] at h
  split at h
  · cases h
  · rename_i hne
    cases h
    exact ⟨hne, dueTo_of_mem_faults (Token.lexed_of_mem_scan source)⟩

/-! ## Messages -/

open Text

theorem Token.Kind.unbroken_name (k : Token.Kind) : Unbroken k.name := by
  cases k with
  | sym s => cases s <;> decide
  | word k => cases k <;> decide
  | _ => decide

theorem IsNumeral.unbroken {digits : String} (h : IsNumeral digits) : Unbroken digits :=
  ⟨fun hmem => absurd (h.2 _ hmem) (by decide), fun hmem => absurd (h.2 _ hmem) (by decide)⟩

namespace Reading.Fault

theorem isLine_message {f : Fault} (h : f.DueTo Token.Lexed) : IsLine f.message := by
  cases f with
  | unexpected expected got =>
    have hexpected : IsLine ("expected next token to be " ++ expected.name) :=
      .append (by decide) expected.unbroken_name
    have hgot : IsLine ("expected next token to be " ++ expected.name ++ ", got " ++ got.name) :=
      (hexpected.append (by decide)).append got.unbroken_name
    exact hgot.append (by decide)
  | noOperand got =>
    have hgot : IsLine ("no prefix parse function for " ++ got.name) :=
      .append (by decide) got.unbroken_name
    exact hgot.append (by decide)
  | invalidInteger digits =>
    have hdigits : IsLine ("could not parse " ++ digits) :=
      .append (by decide) (IsNumeral.unbroken h)
    exact hdigits.append (by decide)

variable {faults : List Fault}

/-- The report is taken apart into the messages that it has been put together from. -/
theorem lines_report (h : ∀ f ∈ faults, f.DueTo Token.Lexed) :
    lines (report faults) = faults.map message := by
  refine lines_intercalate fun l hl => ?_
  obtain ⟨f, hf, rfl⟩ := List.mem_map.1 hl
  exact isLine_message (h f hf)

theorem refusal_eq (h : ∀ f ∈ faults, f.DueTo Token.Lexed) :
    Command.refusal faults = ⟨1, "", listing faults⟩ := by
  rw [Command.refusal, lines_report h, complaint_messages]

end Reading.Fault

/-! ## The answers to a text with faults -/

section Answers

variable {source : String} {faults : List Fault}

theorem Program.ne_empty_of_parse (h : Program.parse source = .error faults) : source ≠ "" := by
  rintro rfl
  have hempty : Program.parse "" = .ok ⟨[]⟩ := by decide +kernel
  cases hempty.symm.trans h

theorem Command.script_of_parse {bytes : List UInt8} (h : Program.parse source = .error faults)
    (hbytes : decode? bytes = some source) (report : Failure → String) (depth : Nat)
    (name : String) (ast : Bool) :
    script report depth name ast (.ok bytes) = some (refusal faults) := by
  have hsource : sourceOf (.ok bytes) = .ok source := by rw [sourceOf, hbytes]
  rw [script, hsource]
  cases ast with
  | true =>
    change some (showScript source) = _
    rw [showScript, h]
  | false =>
    change runScript depth source = _
    rw [runScript, run, Store.run, h]
    rfl

namespace Prompt

theorem exchange_of_parse {line : String} (h : Program.parse source = .error faults)
    (htrim : TrimsTo line source) (depth : Nat) (s : Store) :
    exchange depth line s = some (⟨"", Fault.listing faults⟩, s.silent) :=
  exchange_eq_some_iff.2 (.runs htrim (Program.ne_empty_of_parse h) (.refused h))

/-- The prompt complains about a line with faults, and goes on. -/
theorem converse_of_parse {bytes : List UInt8} {line : String}
    (h : Program.parse source = .error faults) (htrim : TrimsTo line source)
    (hbytes : decode? bytes = some line) (depth : Nat) (lines : List (List UInt8)) (s : Store) :
    converse depth (bytes :: lines) s =
      (converse depth lines s.silent).map (.after ⟨"", Fault.listing faults⟩) := by
  rw [converse_cons_of_some hbytes, exchange_of_parse h htrim]
  rfl

/-- There is nothing else on the screen if nothing else is entered. -/
theorem screen_of_parse {bytes : List UInt8} {line : String}
    (h : Program.parse source = .error faults) (htrim : TrimsTo line source)
    (hbytes : decode? bytes = some line) (hline : byteLines bytes = [bytes]) (depth : Nat) :
    ∃ tr, start depth bytes = some tr ∧ tr.screen = ">> " ++ Fault.listing faults ++ ">> " := by
  refine ⟨⟨dialogue [⟨"", Fault.listing faults⟩], true, Store.fresh.silent⟩, ?_, ?_⟩
  · rw [start, hline, converse_of_parse h htrim hbytes]
    rfl
  · rw [Transcript.screen, join_shown_dialogue, List.map_singleton, String.join_cons,
      String.join_nil, String.append_empty]

end Prompt

/-- A text with faults gets the same answer from a command as from the prompt, if it is a line that
can be entered there and that is not cut at its end: a heading, and then a line for each fault. -/
theorem Program.complaints_agree (h : Program.parse source = .error faults) :
    faults ≠ [] ∧
    (∀ f ∈ faults, f.message ≠ "" ∧ '\n' ∉ f.message.toList ∧ '\r' ∉ f.message.toList) ∧
    Command.refusal faults = ⟨1, "", Fault.listing faults⟩ ∧
    (∀ report depth name ast bytes, decode? bytes = some source →
      Command.script report depth name ast (.ok bytes) = some ⟨1, "", Fault.listing faults⟩) ∧
    ('\n' ∉ source.toList → (∀ c ∈ source.toList.getLast?, isWhiteSpace c = false) →
      ∀ ending ∈ ["", "\n"], ∀ depth bytes, decode? bytes = some (source ++ ending) →
        (∀ lines s, Prompt.converse depth (bytes :: lines) s =
          (Prompt.converse depth lines s.silent).map (.after ⟨"", Fault.listing faults⟩)) ∧
        ∃ tr, Prompt.start depth bytes = some tr ∧
          tr.screen = ">> " ++ Fault.listing faults ++ ">> ") := by
  obtain ⟨hne, hdue⟩ := Program.dueTo_of_parse h
  have hrefusal := Fault.refusal_eq hdue
  refine ⟨hne, fun f hf => Fault.isLine_message (hdue f hf), hrefusal, ?_, ?_⟩
  · intro report depth name ast bytes hbytes
    rw [Command.script_of_parse h hbytes, hrefusal]
  · intro hlf hlast ending hending depth bytes hbytes
    have htrim : TrimsTo (source ++ ending) source := by
      refine ⟨⟨ending, rfl, ?_⟩, hlast⟩
      simp only [List.mem_cons, List.not_mem_nil, or_false] at hending
      rcases hending with rfl | rfl
      · exact List.forall_mem_nil _
      · exact List.forall_mem_singleton.2 (by decide)
    have hline : byteLines bytes = [bytes] :=
      byteLines_of_decode? (Program.ne_empty_of_parse h) hlf hending hbytes
    exact ⟨Prompt.converse_of_parse h htrim hbytes depth,
      Prompt.screen_of_parse h htrim hbytes hline depth⟩

/-- A line with two faults, one of which shows a number. -/
def mistaken : String := "let 1; 99999999999999999999"

theorem Program.complaints_agree_mistaken :
    Program.parse mistaken =
      .error [.unexpected .ident .int, .invalidInteger "99999999999999999999"] ∧
    ∃ complaint, complaint = "parser errors:\n" ++
        "\texpected next token to be IDENT, got INT instead\n" ++
        "\tcould not parse 99999999999999999999 as integer\n" ∧
      Command.script (·.task) 0 "mistaken" true (.ok (encode mistaken)) =
        some ⟨1, "", complaint⟩ ∧
      ∃ tr, Prompt.start 0 (encode (mistaken ++ "\n")) = some tr ∧
        tr.screen = ">> " ++ complaint ++ ">> " := by
  have hparse : Program.parse mistaken =
      .error [.unexpected .ident .int, .invalidInteger "99999999999999999999"] := by decide +kernel
  have hlf : '\n' ∉ mistaken.toList := by decide +kernel
  have hdigit : mistaken.toList.getLast? = some '9' := by decide +kernel
  have hlast : ∀ c ∈ mistaken.toList.getLast?, isWhiteSpace c = false := by
    rw [hdigit]
    rintro c ⟨⟩
    decide
  obtain ⟨-, -, -, hscript, hprompt⟩ := Program.complaints_agree hparse
  obtain ⟨-, hstart⟩ := hprompt hlf hlast "\n" (by decide) 0 _ (decode?_eq_some_iff.2 rfl)
  refine ⟨hparse, Fault.listing _, by decide +kernel, ?_, hstart⟩
  exact hscript (·.task) 0 "mistaken" true _ (decode?_eq_some_iff.2 rfl)

end Answers
end Monkey
