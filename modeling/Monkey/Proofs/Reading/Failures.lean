import Monkey.Program.Equality
import Monkey.Proofs.Reading.Together

/-! # Faults and the statements that fail over them

To see how often the reader of statements fails, it is given a note to leave among the faults each
time (`Read.noting`), in the blocks of expressions as well as in the program
(`Reading.statementNoting`). Nothing else changes, since no reader looks at the faults.

A reader that finds a fault fails at once, and so do those that have called it, up to the statement.
So each fault is followed by one note, and there are no other notes: `Read.Noted` says this of what
the readers with and without notes leave behind. It lasts when readers are put together, and so it
holds of all that programs are read with (`Reading.noted_of_counterpart`).

To count the notes, they have to be told from the faults. This is so for a note that is no fault of
any text (`Reader.noFault`).
-/

namespace Monkey

open Reading

namespace Read

variable {α β : Type} {note : Fault} {k : Nat} {ts : List Token} {p q : Read α}

/-- Reads as `p` does, and leaves a note among the faults if `p` fails. -/
def noting (note : Fault) (p : Read α) : Read α := fun ts =>
  match p ts with
  | ⟨none, rest, faults⟩ => ⟨none, rest, faults ++ [note]⟩
  | out => out

theorem rest_noting (note : Fault) (p : Read α) (ts : List Token) :
    (noting note p ts).rest = (p ts).rest := by
  unfold noting
  split
  · rename_i h
    rw [h]
  · rfl

theorem Alike.noting (h : Alike k ts p q) : Alike k ts (noting note p) (noting note q) := by
  obtain ⟨he, hl⟩ := h
  rw [Alike, rest_noting]
  exact ⟨by rw [Read.noting, Read.noting, he], hl⟩

/-- Each fault with a note behind it. -/
def noted (note : Fault) (faults : List Fault) : List Fault := faults.flatMap fun f => [f, note]

theorem noted_append (note : Fault) (fs gs : List Fault) :
    noted note (fs ++ gs) = noted note fs ++ noted note gs :=
  List.flatMap_append

theorem noted_concat (note : Fault) (fs : List Fault) (f : Fault) :
    noted note (fs ++ [f]) = noted note fs ++ [f, note] :=
  noted_append note fs [f]

/-- The second outcome is the first one with notes: each fault has one behind it, but for the fault
that the reader fails over. -/
inductive Noted (note : Fault) : Outcome α → Outcome α → Prop where
  | read (a : α) (rest : List Token) (faults : List Fault) :
      Noted note ⟨some a, rest, faults⟩ ⟨some a, rest, noted note faults⟩
  | failed (rest : List Token) (faults : List Fault) (f : Fault) :
      Noted note ⟨none, rest, faults ++ [f]⟩ ⟨none, rest, noted note faults ++ [f]⟩

namespace Noted

theorem bind {f g : α → Read β} (h : Noted note (p ts) (q ts))
    (hf : ∀ a us fs, p ts = ⟨some a, us, fs⟩ → Noted note (f a us) (g a us)) :
    Noted note ((p >>= f) ts) ((q >>= g) ts) := by
  generalize hp : p ts = out, hq : q ts = out' at h
  cases h with
  | failed us fs x =>
    rw [bind_of_none hp, bind_of_none hq]
    exact .failed us fs x
  | read a us fs =>
    rw [bind_of_some hp, bind_of_some hq]
    have hfa := hf a us fs hp
    generalize f a us = next, g a us = next' at hfa
    cases hfa with
    | read b vs gs =>
      rw [← noted_append]
      exact .read b vs (fs ++ gs)
    | failed vs gs x =>
      rw [← List.append_assoc, ← List.append_assoc, ← noted_append]
      exact .failed vs (fs ++ gs) x

/-- An attempt does not fail, so the fault of one that has failed is behind it: a note takes its
place there. -/
theorem attempt (h : Noted note (p ts) (q ts)) :
    Noted note (attempt p ts) (attempt (noting note q) ts) := by
  rw [Read.attempt, Read.attempt, noting]
  generalize p ts = out, q ts = out' at h
  cases h with
  | read a us fs => exact .read (some a) us fs
  | failed us fs x =>
    have hnoted : noted note fs ++ [x] ++ [note] = noted note (fs ++ [x]) := by
      rw [noted_concat, List.append_assoc, List.singleton_append]
    simp only [hnoted]
    exact .read none us (fs ++ [x])

theorem faults_ne_nil {out out' : Outcome α} (h : Noted note out out') (hnone : out.value? = none) :
    out.faults ≠ [] := by
  cases h with
  | read a rest fs => cases hnone
  | failed rest fs f => exact List.append_ne_nil_of_right_ne_nil fs (List.cons_ne_nil f [])

/-- Without faults there are no notes. -/
theorem eq_of_faults_eq_nil {out out' : Outcome α} (h : Noted note out out')
    (hnil : out.faults = []) : out.value?.isSome ∧ out' = out := by
  cases h with
  | read a rest fs =>
    obtain rfl : fs = [] := hnil
    exact ⟨rfl, rfl⟩
  | failed rest fs f => exact absurd hnil (List.append_ne_nil_of_right_ne_nil fs nofun)

end Noted

/-- Readers with and without notes. -/
def notes (note : Fault) : Congruence where
  tokens _ := True
  Rel := Noted note
  rel_pure a ts := .read a ts []
  rel_refuse ts _ := .failed ts [] _
  rel_bind := Noted.bind

theorem noted_of_together (h : (notes note).Together k ts p q) : Noted note (p ts) (q ts) :=
  (h fun _ _ => trivial).2

end Read

namespace Reading

open Read

variable {α : Type} {note : Fault} {ts : List Token}

/-! ## The readers of programs, with notes -/

/-- The reader of statements, which leaves a note each time it fails. -/
def statementNoting (note : Fault) : Read Stmt := loop fun self => noting note (statementStep self)

theorem statementNoting_eq (note : Fault) :
    statementNoting note = noting note (statementStep (statementNoting note)) :=
  loop_eq fun _ _ _ h => (alike_statementStep h).noting

theorem together_statementNoting (note : Fault) (ts : List Token) :
    (notes note).Together 1 ts (attempt (statement (expression .lowest)))
      (attempt (statementNoting note)) :=
  together_attempt (K := notes note) Noted.attempt (statementNoting_eq note) ts

/-- A reader of the grammar, and the same reader with notes from the statements that it reads. -/
inductive Counterpart (note : Fault) : {α : Type} → Read α → Read α → Prop where
  | expect (t : Token) : Counterpart note (expect t) (expect t)
  | skip (t : Token) : Counterpart note (skip t) (skip t)
  | ident : Counterpart note ident ident
  | moreParams : Counterpart note (moreItems ident) (moreItems ident)
  | params : Counterpart note (items ident .closeParen) (items ident .closeParen)
  | moreItems : Counterpart note (moreItems (expression .lowest))
      (moreItems (expressionOver (statementNoting note) .lowest))
  | items (close : Symbol) : Counterpart note (items (expression .lowest) close)
      (items (expressionOver (statementNoting note) .lowest) close)
  | pairEnd : Counterpart note pairEnd pairEnd
  | pairs : Counterpart note (pairs (expression .lowest))
      (pairs (expressionOver (statementNoting note) .lowest))
  | statement : Counterpart note (statement (expression .lowest))
      (statement (expressionOver (statementNoting note) .lowest))
  | blockRest : Counterpart note (blockRest (statement (expression .lowest)))
      (blockRest (statementNoting note))
  | block : Counterpart note (block (expression .lowest)) (blockOver (statementNoting note))
  | alternative : Counterpart note (alternative (expression .lowest))
      (alternativeOver (statementNoting note))
  | number (token : Token) (digits : String) :
      Counterpart note (number token digits) (number token digits)
  | operand : Counterpart note (operand expression)
      (operandOver (statementNoting note) (expressionOver (statementNoting note)))
  | extend (left : Expr) (k : Follow) : Counterpart note (extend expression left k)
      (extend (expressionOver (statementNoting note)) left k)
  | extendAbove (level : Level) (left : Expr) : Counterpart note (extendAbove expression level left)
      (extendAbove (expressionOver (statementNoting note)) level left)
  | expression (level : Level) : Counterpart note (expression level)
      (expressionOver (statementNoting note) level)
  | statements : Counterpart note statements (statementsOver (statementNoting note))

theorem together_expressionNoting (note : Fault) (level : Level) (ts : List Token) :
    (notes note).Together 1 ts (expression level)
      (expressionOver (statementNoting note) level) := by
  rw [← expressionOver_statement]
  exact together_expressionOver (fun us _ => together_statementNoting note us) level

theorem noted_of_counterpart {p q : Read α} (h : Counterpart note p q) (ts : List Token) :
    Noted note (p ts) (q ts) := by
  have hstmt := together_statementNoting note
  have hexpr := together_expressionNoting note
  have hexpr' (level : Level) (us : List Token) : (notes note).Together 0 us (expression level)
      (expressionOver (statementNoting note) level) :=
    (hexpr level us).weaken (Nat.zero_le 1)
  cases h with
  | expect t => exact noted_of_together (.expect t)
  | skip t => exact noted_of_together (.skip t)
  | ident => exact noted_of_together together_ident
  | moreParams => exact noted_of_together (together_moreItems fun _ _ => together_ident)
  | params => exact noted_of_together (together_items (fun _ _ => together_ident) _)
  | moreItems => exact noted_of_together (together_moreItems fun us _ => hexpr' _ us)
  | items close => exact noted_of_together (together_items (fun us _ => hexpr' _ us) close)
  | pairEnd => exact noted_of_together together_pairEnd
  | pairs => exact noted_of_together (together_pairs fun us _ => hexpr' _ us)
  | statement => exact noted_of_together (together_statement fun us _ => hexpr _ us)
  | blockRest => exact noted_of_together (together_blockRest fun us _ => hstmt us)
  | block => exact noted_of_together (together_blockOver fun us _ => hstmt us)
  | alternative => exact noted_of_together (together_alternativeOver fun us _ => hstmt us)
  | number token digits => exact noted_of_together (together_number trivial token)
  | operand =>
    rw [← operandOver_statement]
    exact noted_of_together
      (together_operandOver (fun us _ => hstmt us) fun level us _ => hexpr level us)
  | extend left k => exact noted_of_together (together_extend (fun l us _ => hexpr' l us) left k)
  | extendAbove level left =>
    exact noted_of_together (together_extendAbove (fun l us _ => hexpr' l us) level left)
  | expression level => exact noted_of_together (hexpr level ts)
  | statements =>
    rw [← statementsOver_statement]
    exact noted_of_together (together_statementsOver fun us _ => hstmt us)

end Reading

namespace Reader

open Read

/-- Reads on with `p` from where the reader stands. The faults that are found go behind those that
it has met before. -/
def read {α : Type} (r : Reader) (p : Read α) : Option α × Reader :=
  ((p r.unread).value?, ⟨(p r.unread).rest, r.faults ++ (p r.unread).faults⟩)

/-- Reading with notes does the same, but for the notes. -/
theorem statementsOver_noting (note : Fault) {ts : List Token} (h : .eof ∉ ts) :
    statementsOver (statementNoting note) ts =
      { statements ts with faults := noted note (statements ts).faults } := by
  obtain ⟨ss, faults, hss⟩ := exists_statements_eq h
  have hnoted : Noted note (statements ts) (statementsOver (statementNoting note) ts) :=
    noted_of_counterpart .statements ts
  rw [hss] at hnoted ⊢
  generalize statementsOver (statementNoting note) ts = out at hnoted ⊢
  cases hnoted with
  | read => rfl

theorem count_noted {note : Fault} {faults : List Fault} (h : note ∉ faults) :
    (noted note faults).count note = faults.length := by
  induction faults with
  | nil => rfl
  | cons f fs ih =>
    obtain ⟨hf, hfs⟩ := not_or.1 (mt List.mem_cons.2 h)
    have hcount : [f, note].count note = 1 := by
      rw [List.count_cons_of_ne (Ne.symm hf), List.count_singleton_self]
    change ([f, note] ++ noted note fs).count note = _
    rw [List.count_append, hcount, ih hfs, List.length_cons, Nat.add_comm]

/-- A fault that no text has, since there are digits in a number. -/
def noFault : Fault := .invalidInteger ""

theorem noFault_notMem (source : String) : noFault ∉ (ofSource source).readAll.2.faults := by
  intro hmem
  have hnumeral : IsNumeral "" := dueTo_of_mem_faults (Token.lexed_of_mem_scan source) noFault hmem
  exact hnumeral.1 rfl

/-- The reader of statements fails once for each fault in a text, in blocks at any depth or outside
of them: where each failure leaves a note, there is one behind each fault, and nowhere else.

Of the readers that programs are read with, each leaves the faults that have been met before in
their place. One that fails has added a fault; one that adds none has read something, and no
statement has failed meanwhile. -/
theorem faults_match_failures :
    (∀ source : String,
      noFault ∉ (ofSource source).readAll.2.faults ∧
      (statementsOver (statementNoting noFault) (Token.scan source)).faults.count noFault =
        (ofSource source).readAll.2.faults.length) ∧
    (∀ (note : Fault) (source : String),
      statementsOver (statementNoting note) (Token.scan source) =
        { statements (Token.scan source) with
          faults := noted note (ofSource source).readAll.2.faults }) ∧
    ∀ (note : Fault) {α : Type} {p q : Read α}, Counterpart note p q → ∀ r : Reader,
      r.faults <+: (r.read p).2.faults ∧
      ((r.read p).1 = none → r.faults.length < (r.read p).2.faults.length) ∧
      ((r.read p).2.faults = r.faults → (r.read p).1.isSome ∧ r.read q = r.read p) := by
  have hnoting (note : Fault) (source : String) :=
    statementsOver_noting note (Token.eof_notMem_scan source)
  refine ⟨fun source => ⟨noFault_notMem source, ?_⟩, hnoting, fun note _ _ _ hpq r => ?_⟩
  · rw [hnoting]
    exact count_noted (noFault_notMem source)
  · have hnoted := noted_of_counterpart hpq r.unread
    refine ⟨List.prefix_append _ _, fun hnone => ?_, fun hsame => ?_⟩
    · rw [read, List.length_append]
      exact Nat.lt_add_of_pos_right (List.length_pos_iff.2 (hnoted.faults_ne_nil hnone))
    · obtain ⟨hsome, hq⟩ := hnoted.eq_of_faults_eq_nil (List.append_right_eq_self.1 hsame)
      rw [read, read, hq]
      exact ⟨hsome, rfl⟩

/-- A function whose block is not closed. Two statements in it cannot be read, either. -/
def unclosed : String := "let f = fn() \x7b let = 1; x"

/-- Before a block, after a fault. -/
def beforeBlock (source : String) : Reader := ⟨Token.scan source, [.noOperand .eof]⟩

/-- Three statements fail over three faults, one of them around the others. A block that is not
closed adds a fault to the one met before; one that is closed adds none, and leaves no note. -/
theorem faults_match_failures_unclosed :
    (statementsOver (statementNoting noFault) (Token.scan unclosed)).faults.count noFault = 3 ∧
    (((beforeBlock "\x7b x").read (block (expression .lowest))).1 = none ∧
      1 < ((beforeBlock "\x7b x").read (block (expression .lowest))).2.faults.length) ∧
    ((beforeBlock "\x7b x \x7d").read (block (expression .lowest))).2.faults = [.noOperand .eof] ∧
    (beforeBlock "\x7b x \x7d").read (blockOver (statementNoting noFault)) =
      (beforeBlock "\x7b x \x7d").read (block (expression .lowest)) := by
  obtain ⟨hcount, -, hread⟩ := faults_match_failures
  have hlength : (ofSource unclosed).readAll.2.faults.length = 3 := by decide +kernel
  have hblock : Counterpart noFault (block (expression .lowest))
      (blockOver (statementNoting noFault)) := .block
  have hopen : ((beforeBlock "\x7b x").read (block (expression .lowest))).1 = none := by
    decide +kernel
  have hclosed : ((beforeBlock "\x7b x \x7d").read (block (expression .lowest))).2.faults =
      [.noOperand .eof] := by decide +kernel
  refine ⟨(hcount unclosed).2.trans hlength, ⟨hopen, ?_⟩, hclosed, ?_⟩
  · exact (hread noFault hblock _).2.1 hopen
  · exact ((hread noFault hblock _).2.2 hclosed).2

end Reader
end Monkey
