import Monkey.Command
import Monkey.Proofs.Eval.Invariant

/-! # Errors are not stored

There are two ways for something to go wrong: a builtin answers with an error, which is a value, and
an evaluation raises a fault. Within a program, the first is turned into the second as soon as the
builtin has answered, and only when the program is over is a fault shown as an error. So an error is
never bound to a name and never put into an array or a hash, unless it was there from the start.

It follows that the value of a program is an error exactly if a fault was raised, and that a command
can tell from the value whether a script has failed.
-/

namespace Monkey

/-- Neither the value nor anything in it is an error. -/
def Value.ErrorFree (v : Value) : Prop := ∀ u : Value, u.Within v → u.isError = false

/-- No error is bound to a name, nor is one contained in what is. -/
def Store.ErrorFree (s : Store) : Prop := s.Forall Value.ErrorFree

theorem Value.ErrorFree.isError_eq {v : Value} (h : v.ErrorFree) : v.isError = false := h v .self

namespace Invariant

/-- There are no errors. -/
def noErrors : Invariant := .ofErrors False

theorem holds_noErrors_iff {v : Value} : noErrors.Holds v ↔ v.ErrorFree := by
  constructor
  · rintro ⟨-, h⟩ u hu
    cases u with
    | error m => exact (h m hu).elim
    | _ => rfl
  · intro h
    exact ⟨fun _ _ => trivial, fun m hm => nomatch h _ hm⟩

theorem forall_noErrors_iff {s : Store} : s.Forall noErrors.Holds ↔ s.ErrorFree := by
  constructor
  · intro h i f x v hf hv
    exact holds_noErrors_iff.1 (h i f x v hf hv)
  · intro h i f x v hf hv
    exact holds_noErrors_iff.2 (h i f x v hf hv)

end Invariant

/-! ## Programs -/

namespace Store.ErrorFree

open Eval

variable {s t : Store} {depth : Nat} {i : FrameId} {p : Program} {v : Value}

theorem of_program {r : Except Signal Value} (hs : s.ErrorFree)
    (h : program depth i p s = some (r, t)) :
    t.ErrorFree ∧ ∀ v, r = .ok v ∨ r = .error (.returned v) → v.ErrorFree := by
  obtain ⟨-, ht, hr⟩ := Invariant.of_program (Invariant.forall_noErrors_iff.2 hs)
    (fun _ _ => trivial) h
  refine ⟨Invariant.forall_noErrors_iff.1 ht, fun v hv => ?_⟩
  exact Invariant.holds_noErrors_iff.1 (hr v hv)

/-- The value of a program is free of errors, or is the error that a fault is shown as. -/
theorem of_eval (hs : s.ErrorFree) (h : p.eval depth i s = some (v, t)) :
    t.ErrorFree ∧
      ((v.ErrorFree ∧ ∀ f u, program depth i p s ≠ some (.error (.raised f), u)) ∨
        ∃ f, program depth i p s = some (.error (.raised f), t) ∧ v = .error f.message) := by
  rw [Program.eval_eq_map] at h
  obtain ⟨⟨r, u⟩, hr, hv⟩ := Option.map_eq_some_iff.1 h
  cases hv
  obtain ⟨ht, hfree⟩ := hs.of_program hr
  refine ⟨ht, ?_⟩
  rw [hr]
  rcases r with (v | f) | v
  · exact .inl ⟨hfree v (.inr rfl), by simp⟩
  · exact .inr ⟨f, rfl, rfl⟩
  · exact .inl ⟨hfree v (.inl rfl), by simp⟩

/-- The value of a program is an error exactly if a fault was raised. -/
theorem isError_iff (hs : s.ErrorFree) (h : p.eval depth i s = some (v, t)) :
    v.isError = true ↔ ∃ f u, program depth i p s = some (.error (.raised f), u) := by
  obtain ⟨-, ⟨hv, hne⟩ | ⟨f, hf, rfl⟩⟩ := hs.of_eval h
  · rw [hv.isError_eq]
    exact ⟨nofun, fun ⟨f, u, hf⟩ => absurd hf (hne f u)⟩
  · exact ⟨fun _ => ⟨f, t, hf⟩, fun _ => rfl⟩

theorem empty : Store.empty.ErrorFree := Store.forall_empty _

theorem fresh : Store.fresh.ErrorFree := Store.Forall.addFrame_empty empty none

/-- A text that cannot be read leaves the store as it is. -/
theorem of_run (hs : s.ErrorFree) {source : String} {result : Except (List Reading.Fault) Value}
    (h : s.run depth i source = some (result, t)) :
    t.ErrorFree ∧ ∀ v, result = .ok v → v.ErrorFree ∨ v.isError = true := by
  unfold Store.run at h
  split at h
  · cases h
    exact ⟨hs, nofun⟩
  · obtain ⟨⟨v, u⟩, heval, hv⟩ := Option.map_eq_some_iff.1 h
    cases hv
    obtain ⟨ht, hv⟩ := hs.of_eval heval
    refine ⟨ht, ?_⟩
    rintro _ ⟨⟩
    rcases hv with ⟨hv, -⟩ | ⟨f, -, rfl⟩
    · exact .inl hv
    · exact .inr rfl

end Store.ErrorFree

/-! ## Sessions -/

namespace Session

/-- Binds no error from outside. -/
def Step.ErrorFree : Step → Prop
  | .set _ _ v => v.ErrorFree
  | _ => True

/-- What was found or bound is free of errors, and no error is contained in the value of a text,
unless it is that value. -/
def Answer.ErrorFree : Answer → Prop
  | .found (some v) | .bound v => v.ErrorFree
  | .ran (.ok v) _ => v.ErrorFree ∨ v.isError = true
  | _ => True

variable {depth : Nat} {s t : Store}

theorem errorFree_perform {step : Step} {answer : Answer} (hs : s.ErrorFree)
    (hstep : step.ErrorFree) (h : perform depth s step = some (answer, t)) :
    t.ErrorFree ∧ answer.ErrorFree := by
  cases step with
  | new =>
    cases h
    exact ⟨Store.Forall.addFrame_empty hs none, trivial⟩
  | enclose o =>
    cases h
    exact ⟨Store.Forall.addFrame_empty hs (some o), trivial⟩
  | get i x =>
    cases h
    refine ⟨hs, ?_⟩
    rcases hv : s.get? i x with _ | v
    · trivial
    · exact Store.Forall.get? hs hv
  | set i x v =>
    cases h
    exact ⟨Store.Forall.set hs hstep, hstep⟩
  | run i source =>
    obtain ⟨⟨result, u⟩, hrun, hanswer⟩ := Option.map_eq_some_iff.1 h
    cases hanswer
    obtain ⟨ht, hresult⟩ := Store.ErrorFree.of_run (s := s.silent) hs hrun
    refine ⟨ht, ?_⟩
    rcases result with faults | v
    · trivial
    · exact hresult v rfl

theorem errorFree_performAll {steps : List Step} {answers : List Answer} (hs : s.ErrorFree)
    (hsteps : ∀ step ∈ steps, step.ErrorFree)
    (h : performAll depth steps s = some (answers, t)) :
    t.ErrorFree ∧ ∀ answer ∈ answers, answer.ErrorFree := by
  induction steps generalizing s answers with
  | nil =>
    cases h
    exact ⟨hs, nofun⟩
  | cons step steps ih =>
    obtain ⟨hstep, hsteps⟩ := List.forall_mem_cons.1 hsteps
    obtain ⟨⟨answer, u⟩, hfirst, h⟩ := Option.bind_eq_some_iff.1 h
    obtain ⟨⟨rest, t'⟩, hrest, h⟩ := Option.bind_eq_some_iff.1 h
    cases h
    obtain ⟨hu, hanswer⟩ := errorFree_perform hs hstep hfirst
    obtain ⟨ht, hanswers⟩ := ih hu hsteps hrest
    exact ⟨ht, List.forall_mem_cons.2 ⟨hanswer, hanswers⟩⟩

end Session

/-! ## The prompt -/

namespace Prompt

variable {depth : Nat} {s t : Store}

theorem errorFree_exchange {line : String} {x : Exchange} (hs : s.ErrorFree)
    (h : exchange depth line s = some (x, t)) : t.ErrorFree := by
  by_cases htext : Text.trimEnd line = ""
  · rw [exchange, if_pos htext] at h
    cases h
    exact hs
  · rw [exchange, if_neg htext] at h
    obtain ⟨⟨result, u⟩, hrun, hx⟩ := Option.map_eq_some_iff.1 h
    cases hx
    exact (Store.ErrorFree.of_run (s := s.silent) hs hrun).1

theorem errorFree_converse {lines : List (List UInt8)} {transcript : Transcript}
    (hs : s.ErrorFree) (h : converse depth lines s = some transcript) :
    transcript.store.ErrorFree := by
  induction lines generalizing s transcript with
  | nil =>
    cases h
    exact hs
  | cons line lines ih =>
    unfold converse at h
    split at h
    · cases h
    · cases h
      exact hs
    · rename_i x u hreact
      obtain ⟨text, -, hx⟩ := react_eq_answered_iff.1 hreact
      obtain ⟨rest, hrest, rfl⟩ := Option.map_eq_some_iff.1 h
      have hstore : rest.store.ErrorFree := ih (errorFree_exchange hs hx) hrest
      exact hstore

end Prompt

/-! ## Commands -/

namespace Command

/-- A script fails exactly if it cannot be read as a program, or raises a fault. -/
theorem status_runScript {depth : Nat} {source : String} {exit : Exit}
    (h : runScript depth source = some exit) :
    exit.status ≠ 0 ↔ (∃ faults, Program.parse source = .error faults) ∨
      ∃ p f t, Program.parse source = .ok p ∧
        Eval.program depth 0 p .fresh = some (.error (.raised f), t) := by
  obtain ⟨⟨result, t⟩, hrun, rfl⟩ := Option.map_eq_some_iff.1 h
  unfold run Store.run at hrun
  split at hrun
  · rename_i faults hparse
    cases hrun
    exact ⟨fun _ => .inl ⟨faults, hparse⟩, fun _ => Nat.one_ne_zero⟩
  · rename_i p hparse
    obtain ⟨⟨v, u⟩, heval, hv⟩ := Option.map_eq_some_iff.1 hrun
    cases hv
    change (if v.isError then 1 else 0) ≠ 0 ↔ _
    rw [hparse, ite_ne_right_iff, Store.ErrorFree.fresh.isError_iff heval]
    constructor
    · rintro ⟨⟨f, u, hf⟩, -⟩
      exact .inr ⟨p, f, u, rfl, hf⟩
    · rintro (⟨faults, hfaults⟩ | ⟨q, f, u, hq, hf⟩)
      · cases hfaults
      · cases hq
        exact ⟨⟨f, u, hf⟩, Nat.one_ne_zero⟩

theorem execute_of_options {lib : Libraries} {args : List String} {o : Options} {name : String}
    (hargs : lib.options args = .ok o) (hfilter : lib.refusedFilter? o = none)
    (hfile : o.file? = some name) (depth : Nat) (files : String → Except String (List UInt8))
    (stdin : List UInt8) :
    execute lib depth files stdin args = script lib.report depth name o.ast (files name) := by
  have htask : taskOf lib args = .ok (.script name o.ast) := by
    simp only [taskOf, hargs, hfilter, hfile]
  rw [execute, htask]

end Command

/-- Errors are neither bound nor put into arrays and hashes: not by a program, whichever way it ends,
and so not in a session or at the prompt. The value of a program is an error exactly if a fault was
raised, and this or a text that cannot be read is what makes a script fail. -/
theorem errorFree_of_runs (depth : Nat) :
    (∀ i p s r t, Store.ErrorFree s → Eval.program depth i p s = some (r, t) →
      t.ErrorFree ∧ ∀ v, r = .ok v ∨ r = .error (.returned v) → v.ErrorFree) ∧
    (∀ i s v t (p : Program), Store.ErrorFree s → p.eval depth i s = some (v, t) →
      (v.isError = true ↔ ∃ f u, Eval.program depth i p s = some (.error (.raised f), u))) ∧
    (∀ steps answers t, (∀ step ∈ steps, Session.Step.ErrorFree step) →
      Session.performAll depth steps .empty = some (answers, t) →
      t.ErrorFree ∧ ∀ answer ∈ answers, answer.ErrorFree) ∧
    (∀ input transcript, Prompt.start depth input = some transcript →
      transcript.store.ErrorFree) ∧
    ∀ (lib : Command.Libraries) files stdin args o name source exit,
      lib.options args = .ok o → lib.refusedFilter? o = none →
      o.file? = some name → o.ast = false → Command.sourceOf (files name) = .ok source →
      Command.execute lib depth files stdin args = some exit →
      (exit.status ≠ 0 ↔ (∃ faults, Program.parse source = .error faults) ∨
        ∃ p f t, Program.parse source = .ok p ∧
          Eval.program depth 0 p .fresh = some (.error (.raised f), t)) := by
  refine ⟨fun i p s r t hs => hs.of_program, fun i s v t p hs => hs.isError_iff, ?_, ?_, ?_⟩
  · intro steps answers t hsteps h
    exact Session.errorFree_performAll .empty hsteps h
  · intro input transcript h
    exact Prompt.errorFree_converse .fresh h
  · intro lib files stdin args o name source exit hargs hfilter hfile hast hsource h
    rw [Command.execute_of_options hargs hfilter hfile, Command.script, hsource, hast] at h
    exact Command.status_runScript h

/-- `let a = first(1);` -/
def misuse : Program := ⟨[.bind (.word .letWord) ⟨.ident "a", "a"⟩
  (.call (.sym .openParen) (.ident ⟨.ident "first", "first"⟩)
    [.int (.int "1") (.ofCount 1)])]⟩

def misuseText : String := "let a = first(1);"

/-- Takes a single argument for the name of a script. -/
def oneArgument : Command.Libraries where
  options
    | [name] => .ok ⟨some name, false, "warn"⟩
    | _ => .error ⟨2, "", ""⟩
  setsFilter := false
  filterFault? _ := none
  report f := f.task

/-- A builtin is called wrongly, and its error is not bound to the name, wherever the program is
run. -/
theorem errorFree_of_runs_misuse :
    (∃ v t f u, misuse.eval 4 0 .fresh = some (v, t) ∧ v.isError = true ∧
      Eval.program 4 0 misuse .fresh = some (.error (.raised f), u) ∧ u.ErrorFree) ∧
    (∃ answers t, Session.performAll 4 [.new, .run 0 misuseText, .get 0 "a"] .empty =
      some (answers, t) ∧ t.ErrorFree ∧ ∀ answer ∈ answers, answer.ErrorFree) ∧
    (∃ transcript, Prompt.start 4 misuseText.toUTF8.toList = some transcript ∧
      transcript.store.ErrorFree) ∧
    ∃ exit, Command.execute oneArgument 4 (fun _ => .ok misuseText.toUTF8.toList) [] ["script"] =
        some exit ∧
      exit.status = 1 ∧ ((∃ faults, Program.parse misuseText = .error faults) ∨
        ∃ p f t, Program.parse misuseText = .ok p ∧
          Eval.program 4 0 p .fresh = some (.error (.raised f), t)) := by
  obtain ⟨hprogram, heval, hsession, hprompt, hcommand⟩ := errorFree_of_runs 4
  have hvalue : (misuse.eval 4 0 .fresh).any (·.1.isError) = true := by decide +kernel
  have hsteps : (Session.performAll 4 [.new, .run 0 misuseText, .get 0 "a"] .empty).isSome = true :=
    by decide +kernel
  have hlines : (Prompt.start 4 misuseText.toUTF8.toList).isSome = true := by decide +kernel
  have hscript : Command.execute oneArgument 4 (fun _ => .ok misuseText.toUTF8.toList) []
      ["script"] = some ⟨1, "ERROR: argument to `first` must be ARRAY, got INTEGER\n", ""⟩ := by
    decide +kernel
  have hsource : Command.sourceOf (.ok misuseText.toUTF8.toList) = .ok misuseText := by
    decide +kernel
  obtain ⟨⟨v, s⟩, hv, herror⟩ := (Option.any_eq_true _ _).1 hvalue
  obtain ⟨f, u, hf⟩ := (heval 0 .fresh v s misuse .fresh hv).1 herror
  obtain ⟨⟨answers, t⟩, hsteps⟩ := Option.isSome_iff_exists.1 hsteps
  obtain ⟨transcript, hlines⟩ := Option.isSome_iff_exists.1 hlines
  refine ⟨⟨v, s, f, u, hv, herror, hf, ?_⟩, ⟨answers, t, hsteps, ?_⟩, ⟨transcript, hlines, ?_⟩,
    _, hscript, rfl, ?_⟩
  · exact (hprogram 0 misuse .fresh _ u .fresh hf).1
  · refine hsession _ answers t ?_ hsteps
    simp [Session.Step.ErrorFree]
  · exact hprompt _ transcript hlines
  · exact (hcommand oneArgument _ [] ["script"] _ "script" misuseText _ rfl rfl rfl rfl hsource
      hscript).1 Nat.one_ne_zero

end Monkey
