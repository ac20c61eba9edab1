import Mathlib.Data.List.DropRight
import Monkey.Program.Equality
import Monkey.Prompt
import Monkey.Proofs.Store.Related
import Monkey.Proofs.Text.Lines
import Monkey.Proofs.Token.Grammar

/-! # Conversations at the prompt

What the prompt makes of its input can be said without it. `Prompt.Answers` gives the answer to a
line, in the store that the lines before it have left; `Prompt.Converses` puts the answers one behind
the other, and `Prompt.dialogue` says what is written meanwhile. The prompt holds exactly these
conversations, over the lines before the first that is not text (`Prompt.converse_eq_some_iff`).

A line that is blank or has faults leaves nothing behind in the store but that nothing is printed
yet, and this is of no account to the next line. So such lines can be left out, and the rest of the
conversation stays as it is (`Prompt.rel_converse_pick`).

The prompt cuts off white space at the end of a line. Where it consists of blanks, it would not have
mattered: there are no tokens in it (`Token.scan_append_blanks`).
-/

namespace Monkey

open Reading

/-! ## White space at the end of a line -/

namespace Text

/-- `text` is the line up to the white space at its end. -/
structure TrimsTo (line text : String) : Prop where
  space : ∃ w, line = text ++ w ∧ ∀ c ∈ w.toList, isWhiteSpace c = true
  last : ∀ c ∈ text.toList.getLast?, isWhiteSpace c = false

theorem trimsTo_trimEnd (line : String) : TrimsTo line (trimEnd line) where
  space := by
    refine ⟨String.ofList (line.toList.rtakeWhile isWhiteSpace), ?_, fun c hc => ?_⟩
    · rw [trimEnd, ← String.ofList_append]
      change line = String.ofList (line.toList.rdropWhile isWhiteSpace ++ _)
      rw [List.rdropWhile_append_rtakeWhile, String.ofList_toList]
    · rw [String.toList_ofList] at hc
      exact List.mem_rtakeWhile_imp hc
  last c hc := by
    rw [trimEnd, String.toList_ofList, dropEndWhile, List.getLast?_reverse] at hc
    exact Token.head?_dropWhile isWhiteSpace _ c hc

theorem TrimsTo.trimEnd_eq {line text : String} (h : TrimsTo line text) : trimEnd line = text := by
  obtain ⟨⟨w, rfl, hw⟩, hlast⟩ := h
  have hspace : ∀ c ∈ w.toList.reverse, isWhiteSpace c = true :=
    fun c hc => hw c (List.mem_reverse.1 hc)
  have htext : text.toList.reverse.dropWhile isWhiteSpace = text.toList.reverse := by
    rw [← List.head?_reverse] at hlast
    cases hrev : text.toList.reverse with
    | nil => rfl
    | cons c cs =>
      rw [hrev] at hlast
      exact List.dropWhile_cons_of_neg (Bool.eq_false_iff.1 (hlast c rfl))
  rw [trimEnd, dropEndWhile, String.toList_append, List.reverse_append,
    List.dropWhile_append_of_pos hspace, htext, List.reverse_reverse, String.ofList_toList]

theorem trimEnd_eq_iff {line text : String} : trimEnd line = text ↔ TrimsTo line text := by
  constructor
  · rintro rfl
    exact trimsTo_trimEnd line
  · exact TrimsTo.trimEnd_eq

end Text

namespace Token

variable {cs rest w : List Char} {t : Token} {ts : List Token}

theorem isWordChar_of_isBlank {c : Char} (h : isBlank c = true) : isWordChar c = false := by
  cases hc : isWordChar c with
  | false => rfl
  | true =>
    rw [isBlank_of_test hc (by decide)] at h
    cases h

/-- Blanks end every token but a quote that is not closed. -/
theorem endsBefore_of_blanks (ht : t ≠ .illegal '"') (hw : ∀ c ∈ w, isBlank c = true) :
    t.EndsBefore w := by
  cases w with
  | nil => exact endsBefore_nil t
  | cons c w =>
    have hc := hw c List.mem_cons_self
    have hne : c ≠ '=' := by
      rintro rfl
      cases hc
    exact endsBefore_cons ht (isWordChar_of_isBlank hc) hne w

theorem quote_notMem_append_blanks (h : '"' ∉ cs) (hw : ∀ c ∈ w, isBlank c = true) :
    '"' ∉ cs ++ w := by
  intro hmem
  rcases List.mem_append.1 hmem with hmem | hmem
  · exact h hmem
  · cases hw _ hmem

/-- Blanks at the end of a text belong to no token, unless there is a quote that is not closed. They
are then part of what this quote takes with it. -/
theorem Splits.append_blanks (h : Splits cs ts) (hw : ∀ c ∈ w, isBlank c = true) :
    Splits (cs ++ w) ts := by
  induction h with
  | blanks hv => exact .blanks fun c hc => (List.mem_append.1 hc).elim (hv c) (hw c)
  | @token v x rest t ts hv hx ht h ih =>
    rw [List.append_assoc, List.append_assoc]
    by_cases hquote : t = .illegal '"'
    -- Nothing is behind a quote that is not closed, so the blanks become a part of its text.
    · subst hquote
      obtain rfl := ht rfl
      cases hx with
      | illegal _ hopens => exact absurd (.inr (.inr (.inl rfl))) hopens
      | @unclosed cs hcs =>
        have hlonger := SpelledBy.unclosed (quote_notMem_append_blanks hcs hw)
        have := Splits.token hv hlonger (fun _ => rfl) h
        rwa [List.append_nil] at this
    · exact .token hv hx (ht.append hquote (endsBefore_of_blanks hquote hw)) ih

theorem scan_append_blanks (text : String) {w : String} (hw : ∀ c ∈ w.toList, isBlank c = true) :
    scan (text ++ w) = scan text := by
  rw [scan, String.toList_append]
  exact ((splits_scanChars text.toList).append_blanks hw).scanChars_eq

end Token

theorem Program.parse_append_blanks (text : String) {w : String}
    (hw : ∀ c ∈ w.toList, Token.isBlank c = true) : parse (text ++ w) = parse text := by
  rw [parse, parse, Reader.ofSource, Reader.ofSource, Token.scan_append_blanks text hw]

/-! ## What is said about faults -/

namespace Reading.Fault

/-- A heading, and then a line for each fault: its message behind a tab. -/
def listing (faults : List Fault) : String :=
  "parser errors:\n" ++ String.join (faults.map fun f => "\t" ++ f.message ++ "\n")

theorem complaint_messages (faults : List Fault) :
    Prompt.complaint (faults.map message) = listing faults := by
  change "parser errors:\n" ++ String.join ((faults.map message).map ("\t" ++ · ++ "\n")) = _
  rw [List.map_map]
  rfl

end Reading.Fault

namespace Prompt

open Text

variable {depth : Nat} {s t : Store} {x : Exchange}

/-! ## Answers -/

/-- What comes of a text. It is not run if it has faults. -/
inductive Runs (depth : Nat) (text : String) (s : Store) : Exchange → Store → Prop where
  | refused {faults : List Fault} (h : Program.parse text = .error faults) :
      Runs depth text s ⟨"", Fault.listing faults⟩ s.silent
  | ran {p : Program} {v : Value} {t : Store} (hp : Program.parse text = .ok p)
      (h : p.eval depth 0 s.silent = some (v, t)) :
      Runs depth text s ⟨t.output, v.inspect ++ "\n"⟩ t

/-- What comes of a line: what comes of it without the white space at its end, if that leaves
anything. -/
inductive Answers (depth : Nat) (line : String) (s : Store) : Exchange → Store → Prop where
  | blank (h : TrimsTo line "") : Answers depth line s ⟨"", ""⟩ s
  | runs {text : String} {x : Exchange} {t : Store} (h : TrimsTo line text) (hne : text ≠ "")
      (hruns : Runs depth text s x t) : Answers depth line s x t

/-- What comes of lines, each of them in the store that those before it have left. -/
inductive Converses (depth : Nat) : List String → Store → List Exchange → Store → Prop where
  | nil (s : Store) : Converses depth [] s [] s
  | cons {line : String} {lines : List String} {x : Exchange} {xs : List Exchange} {s t u : Store}
      (h : Answers depth line s x t) (hlines : Converses depth lines t xs u) :
      Converses depth (line :: lines) s (x :: xs) u

theorem exchange_of_blank {line : String} (h : trimEnd line = "") (depth : Nat) (s : Store) :
    exchange depth line s = some (⟨"", ""⟩, s) := by
  rw [exchange, if_pos h]

theorem exchange_of_ne {line : String} (h : trimEnd line ≠ "") (depth : Nat) (s : Store) :
    exchange depth line s = (s.silent.run depth 0 (trimEnd line)).map
      fun (result, t) => (⟨t.output, respond result⟩, t) := by
  rw [exchange, if_neg h]

theorem respond_error (faults : List Fault) : respond (.error faults) = Fault.listing faults :=
  Fault.complaint_messages faults

theorem runs_iff {text : String} : Runs depth text s x t ↔
    (s.silent.run depth 0 text).map (fun (result, t) => (⟨t.output, respond result⟩, t)) =
      some (x, t) := by
  rw [Option.map_eq_some_iff]
  constructor
  · rintro (hparse | ⟨hparse, heval⟩)
    · refine ⟨_, Store.run_eq_some_iff.2 (.inl ⟨_, hparse, rfl, rfl⟩), ?_⟩
      simp only [respond_error]
      rfl
    · exact ⟨_, Store.run_eq_some_iff.2 (.inr ⟨_, _, hparse, heval, rfl⟩), rfl⟩
  · rintro ⟨⟨result, t⟩, hrun, ⟨⟩⟩
    obtain ⟨faults, hparse, rfl, rfl⟩ | ⟨p, v, hparse, heval, rfl⟩ := Store.run_eq_some_iff.1 hrun
    · rw [respond_error]
      exact .refused hparse
    · exact .ran hparse heval

theorem answers_iff_runs {line text : String} (htrim : TrimsTo line text) (hne : text ≠ "") :
    Answers depth line s x t ↔ Runs depth text s x t := by
  constructor
  · rintro (h | ⟨h, -, hruns⟩)
    · exact absurd (htrim.trimEnd_eq.symm.trans h.trimEnd_eq) hne
    · rwa [← htrim.trimEnd_eq, h.trimEnd_eq]
  · exact .runs htrim hne

theorem exchange_eq_some_iff {line : String} :
    exchange depth line s = some (x, t) ↔ Answers depth line s x t := by
  by_cases hblank : trimEnd line = ""
  · rw [exchange_of_blank hblank]
    constructor
    · rintro ⟨⟩
      exact .blank (trimEnd_eq_iff.1 hblank)
    · rintro (h | ⟨h, hne, -⟩)
      · rfl
      · exact absurd (h.trimEnd_eq.symm.trans hblank) hne
  · rw [exchange_of_ne hblank, ← runs_iff, answers_iff_runs (trimsTo_trimEnd line) hblank]

/-! ## Whole conversations -/

/-- The texts of the lines before the first that is not text. -/
def texts (lines : List (List UInt8)) : List String :=
  (lines.takeWhile fun line => (decode? line).isSome).filterMap decode?

theorem texts_cons_of_none {line : List UInt8} (h : decode? line = none)
    (lines : List (List UInt8)) : texts (line :: lines) = [] := by
  rw [texts, List.takeWhile_cons_of_neg (by simp [h]), List.filterMap_nil]

theorem texts_cons_of_some {line : List UInt8} {text : String} (h : decode? line = some text)
    (lines : List (List UInt8)) : texts (line :: lines) = text :: texts lines := by
  rw [texts, List.takeWhile_cons_of_pos (by simp [h]), List.filterMap_cons_some h, texts]

/-- What is written: for each line the mark, what is printed, and the response; and the mark once
more. -/
def dialogue : List Exchange → List Write
  | [] => [.shown ">> "]
  | x :: xs => .shown ">> " :: .printed x.printed :: .shown x.response :: dialogue xs

theorem join_shown_dialogue (xs : List Exchange) :
    String.join ((dialogue xs).filterMap Write.shown?) =
      String.join (xs.map fun x => ">> " ++ x.response) ++ ">> " := by
  induction xs with
  | nil => rfl
  | cons x xs ih =>
    change String.join (">> " :: x.response :: (dialogue xs).filterMap Write.shown?) = _
    simp only [List.map_cons, String.join_cons, ih, String.append_assoc]

theorem join_printed_dialogue (xs : List Exchange) :
    String.join ((dialogue xs).filterMap Write.printed?) =
      String.join (xs.map fun x => x.printed) := by
  induction xs with
  | nil => rfl
  | cons x xs ih =>
    change String.join (x.printed :: (dialogue xs).filterMap Write.printed?) = _
    rw [List.map_cons, String.join_cons, String.join_cons, ih]

theorem converse_cons_of_none {line : List UInt8} (h : decode? line = none)
    (lines : List (List UInt8)) (s : Store) :
    converse depth (line :: lines) s = some ⟨dialogue [], false, s⟩ := by
  have hreact : react depth line s = some .stopped := by rw [react, h]
  rw [converse, hreact]
  rfl

theorem converse_cons_of_some {line : List UInt8} {text : String} (h : decode? line = some text)
    (lines : List (List UInt8)) (s : Store) : converse depth (line :: lines) s =
      (exchange depth text s).bind fun (x, t) => (converse depth lines t).map (.after x) := by
  have hreact : react depth line s =
      (exchange depth text s).map fun (x, t) => .answered x t := by rw [react, h]
  rw [converse, hreact]
  cases exchange depth text s with
  | none => rfl
  | some r => rfl

theorem converse_eq_some_iff {lines : List (List UInt8)} {tr : Transcript} :
    converse depth lines s = some tr ↔
      (∃ xs, Converses depth (texts lines) s xs tr.store ∧ tr.writes = dialogue xs) ∧
        tr.complete = lines.all fun line => (decode? line).isSome := by
  induction lines generalizing s tr with
  | nil =>
    constructor
    · rintro ⟨⟩
      exact ⟨⟨[], .nil s, rfl⟩, rfl⟩
    · obtain ⟨writes, complete, t⟩ := tr
      rintro ⟨⟨_, ⟨⟩, rfl⟩, rfl⟩
      rfl
  | cons line lines ih =>
    rw [List.all_cons]
    cases hline : decode? line with
    | none =>
      rw [converse_cons_of_none hline, texts_cons_of_none hline]
      constructor
      · rintro ⟨⟩
        exact ⟨⟨[], .nil s, rfl⟩, rfl⟩
      · obtain ⟨writes, complete, t⟩ := tr
        rintro ⟨⟨_, ⟨⟩, rfl⟩, rfl⟩
        rfl
    | some text =>
      rw [converse_cons_of_some hline, texts_cons_of_some hline, Option.bind_eq_some_iff]
      constructor
      · rintro ⟨⟨x, u⟩, hx, h⟩
        obtain ⟨rest, hrest, rfl⟩ := Option.map_eq_some_iff.1 h
        obtain ⟨⟨xs, hxs, hwrites⟩, hcomplete⟩ := ih.1 hrest
        refine ⟨⟨x :: xs, .cons (exchange_eq_some_iff.1 hx) hxs, ?_⟩, hcomplete⟩
        rw [Transcript.after, hwrites]
        rfl
      · obtain ⟨writes, complete, t⟩ := tr
        rintro ⟨⟨_, hxs, rfl⟩, hcomplete⟩
        cases hxs with
        | @cons _ _ x xs _ u _ hx hxs =>
          have hrest : converse depth lines u = some ⟨dialogue xs, complete, t⟩ :=
            ih.2 ⟨⟨xs, hxs, rfl⟩, hcomplete⟩
          exact ⟨(x, u), exchange_eq_some_iff.2 hx, Option.map_eq_some_iff.2 ⟨_, hrest, rfl⟩⟩

/-! ## Leaving lines out -/

/-- A line of text that is blank or has faults. -/
def Idle (line : List UInt8) : Prop :=
  ∃ said text, decode? line = some said ∧ TrimsTo said text ∧
    (text = "" ∨ ∃ faults, Program.parse text = .error faults)

/-- The second conversation is the first one without the lines that are not kept. The others have
got the same answers, the same was printed, and the same is bound. -/
structure Keeps (keep : Nat → Bool) (whole part : Transcript) : Prop where
  answers : ∃ xs, whole.writes = dialogue xs ∧ part.writes = dialogue (pick keep xs)
  printed : part.printed = whole.printed
  complete : part.complete = whole.complete
  store : part.store.silent = whole.store.silent

namespace Transcript

theorem writes_after {tr : Transcript} {xs : List Exchange} (h : tr.writes = dialogue xs)
    (x : Exchange) : (tr.after x).writes = dialogue (x :: xs) := by
  rw [after, h]
  rfl

theorem printed_after (x : Exchange) (tr : Transcript) :
    (tr.after x).printed = x.printed ++ tr.printed :=
  String.join_cons

end Transcript

namespace Keeps

variable {keep : Nat → Bool} {whole part : Transcript}

theorem empty (keep : Nat → Bool) (complete : Bool) (h : s.silent = t.silent) :
    Keeps keep ⟨dialogue [], complete, s⟩ ⟨dialogue [], complete, t⟩ :=
  ⟨⟨[], rfl, rfl⟩, rfl, rfl, h.symm⟩

theorem after (hkeep : keep 0 = true) (x : Exchange)
    (h : Keeps (fun i => keep (i + 1)) whole part) : Keeps keep (whole.after x) (part.after x) where
  answers := by
    obtain ⟨xs, hwhole, hpart⟩ := h.answers
    refine ⟨x :: xs, Transcript.writes_after hwhole x, ?_⟩
    rw [pick_cons_of_keep hkeep, Transcript.writes_after hpart]
  printed := by rw [Transcript.printed_after, Transcript.printed_after, h.printed]
  complete := h.complete
  store := h.store

theorem after_left (hkeep : keep 0 = false) (hx : x.printed = "")
    (h : Keeps (fun i => keep (i + 1)) whole part) : Keeps keep (whole.after x) part where
  answers := by
    obtain ⟨xs, hwhole, hpart⟩ := h.answers
    refine ⟨x :: xs, Transcript.writes_after hwhole x, ?_⟩
    rw [pick_cons_of_not_keep hkeep, hpart]
  printed := by rw [Transcript.printed_after, hx, String.empty_append, h.printed]
  complete := h.complete
  store := h.store

end Keeps

/-- What was printed before is of no account to a line. -/
theorem rel_exchange (depth : Nat) (line : String) (h : s.silent = t.silent) :
    Option.Rel (fun a b => a.1 = b.1 ∧ a.2.silent = b.2.silent) (exchange depth line s)
      (exchange depth line t) := by
  by_cases hblank : trimEnd line = ""
  · rw [exchange_of_blank hblank, exchange_of_blank hblank]
    exact .some ⟨rfl, h⟩
  · rw [exchange_of_ne hblank, exchange_of_ne hblank, h]
    cases t.silent.run depth 0 (trimEnd line) with
    | none => exact .none
    | some r => exact .some ⟨rfl, rfl⟩

/-- A line that is blank or has faults prints nothing, and changes nothing but that. -/
theorem Idle.exchange_eq {line : List UInt8} (h : Idle line) (depth : Nat) (s : Store) :
    ∃ said x t, decode? line = some said ∧ exchange depth said s = some (x, t) ∧
      x.printed = "" ∧ t.silent = s.silent := by
  obtain ⟨said, text, hsaid, htrim, htext⟩ := h
  by_cases hne : text = ""
  · subst hne
    exact ⟨said, _, s, hsaid, exchange_eq_some_iff.2 (.blank htrim), rfl, rfl⟩
  · obtain ⟨faults, hfaults⟩ := htext.resolve_left hne
    have hanswers : Answers depth said s _ s.silent := .runs htrim hne (.refused hfaults)
    exact ⟨said, _, s.silent, hsaid, exchange_eq_some_iff.2 hanswers, rfl, rfl⟩

theorem rel_converse_pick {lines : List (List UInt8)} {keep : Nat → Bool}
    (hlines : ∀ i line, lines[i]? = some line → keep i = false → Idle line)
    (h : s.silent = t.silent) :
    Option.Rel (Keeps keep) (converse depth lines s) (converse depth (pick keep lines) t) := by
  -- The stores agree up to what was last printed: a line with faults clears that, and does not if
  -- it is left out.
  induction lines generalizing keep s t with
  | nil => exact .some (.empty keep true h)
  | cons line lines ih =>
    have hrest : ∀ i line, lines[i]? = some line → keep (i + 1) = false → Idle line :=
      fun i => hlines (i + 1)
    cases hkeep : keep 0 with
    | true =>
      rw [pick_cons_of_keep hkeep]
      cases hline : decode? line with
      | none =>
        rw [converse_cons_of_none hline, converse_cons_of_none hline]
        exact .some (.empty keep false h)
      | some said =>
        rw [converse_cons_of_some hline, converse_cons_of_some hline]
        refine rel_bind (rel_exchange depth said h) ?_
        rintro ⟨x, u⟩ ⟨_, v⟩ ⟨rfl, hsilent⟩
        exact rel_map (ih hrest hsilent) fun whole part => .after hkeep x
    | false =>
      obtain ⟨said, x, u, hline, hx, hprinted, hsilent⟩ :=
        (hlines 0 line rfl hkeep).exchange_eq depth s
      have hpart := ih hrest (hsilent.trans h)
      rw [pick_cons_of_not_keep hkeep, converse_cons_of_some hline, hx, Option.bind_some]
      have := rel_map hpart (f := Transcript.after x) (g := id) fun whole part =>
        Keeps.after_left hkeep hprinted
      rwa [Option.map_id] at this

/-! ## The prompt -/

theorem start_eq_some_iff {input : List UInt8} {tr : Transcript} :
    start depth input = some tr ↔
      (∃ xs, Converses depth (texts (byteLines input)) .fresh xs tr.store ∧
        tr.writes = dialogue xs) ∧
      (tr.complete = false ↔ ∃ line ∈ byteLines input, decode? line = none) := by
  have hcomplete : (tr.complete = (byteLines input).all fun line => (decode? line).isSome) ↔
      (tr.complete = false ↔ ∃ line ∈ byteLines input, decode? line = none) := by
    cases tr.complete <;> simp [Option.isSome_iff_ne_none]
  rw [← hcomplete]
  exact converse_eq_some_iff

theorem Converses.length_eq {lines : List String} {xs : List Exchange}
    (h : Converses depth lines s xs t) : xs.length = lines.length := by
  induction h with
  | nil => rfl
  | cons _ _ ih => rw [List.length_cons, List.length_cons, ih]

theorem rel_start_pick {input : List UInt8} {keep : Nat → Bool}
    (h : ∀ i line, (byteLines input)[i]? = some line → keep i = false → Idle line) :
    Option.Rel (Keeps keep) (start depth input)
      (start depth (pick keep (byteLines input)).flatten) := by
  have hlines : byteLines (pick keep (byteLines input)).flatten = pick keep (byteLines input) :=
    splitAfter_flatten_pick keep _ input
  rw [start, start, hlines]
  exact rel_converse_pick h rfl

/-- Blanks at the end of a text change nothing about how it is run. -/
theorem runs_append_blanks {text w : String} (hw : ∀ c ∈ w.toList, Token.isBlank c = true) :
    Runs depth (text ++ w) s x t ↔ Runs depth text s x t := by
  rw [runs_iff, runs_iff, Store.run, Store.run, Program.parse_append_blanks text hw]

/-- A conversation goes through the lines of the input, which end in line feeds, up to the first that
is not text. It shows the mark and an answer for each of them, and the mark once more. The answers
are those that `Converses` gives.

Lines that are blank or have faults may be left out: this changes no other answer, nothing that is
printed, and nothing that is bound. Where the white space at the end of a line is blanks, the line
might as well be run with it. -/
theorem session_law (depth : Nat) (input : List UInt8) :
    (∀ lines, byteLines input = lines ↔ lines.flatten = input ∧ CutAfter (· = 10) lines) ∧
    (∀ tr, start depth input = some tr ↔
      (∃ xs, Converses depth (texts (byteLines input)) .fresh xs tr.store ∧
        tr.writes = dialogue xs) ∧
      (tr.complete = false ↔ ∃ line ∈ byteLines input, decode? line = none)) ∧
    (∀ tr, start depth input = some tr → ∃ xs,
      Converses depth (texts (byteLines input)) .fresh xs tr.store ∧
      xs.length = (texts (byteLines input)).length ∧
      tr.screen = String.join (xs.map fun x => ">> " ++ x.response) ++ ">> " ∧
      tr.printed = String.join (xs.map fun x => x.printed)) ∧
    (∀ keep : Nat → Bool,
      (∀ i line, (byteLines input)[i]? = some line → keep i = false → Idle line) →
      Option.Rel (Keeps keep) (start depth input)
        (start depth (pick keep (byteLines input)).flatten)) ∧
    ∀ text w : String, TrimsTo (text ++ w) text → (∀ c ∈ w.toList, Token.isBlank c = true) →
      Token.scan (text ++ w) = Token.scan text ∧
      Program.parse (text ++ w) = Program.parse text ∧
      (∀ s x t, Runs depth (text ++ w) s x t ↔ Runs depth text s x t) ∧
      (text ≠ "" → ∀ s x t, Answers depth (text ++ w) s x t ↔ Runs depth (text ++ w) s x t) := by
  refine ⟨fun lines => splitAfter_eq_iff, fun tr => start_eq_some_iff, fun tr h => ?_,
    fun keep => rel_start_pick, fun text w htrim hw => ?_⟩
  · obtain ⟨⟨xs, hxs, hwrites⟩, -⟩ := start_eq_some_iff.1 h
    refine ⟨xs, hxs, hxs.length_eq, ?_, ?_⟩
    · rw [Transcript.screen, hwrites, join_shown_dialogue]
    · rw [Transcript.printed, hwrites, join_printed_dialogue]
  · refine ⟨Token.scan_append_blanks text hw, Program.parse_append_blanks text hw,
      fun s x t => runs_append_blanks hw, fun hne s x t => ?_⟩
    rw [runs_append_blanks hw]
    exact answers_iff_runs htrim hne

/-- Five lines. The second is blank, the third has faults, and the last is not text. -/
def withIdleLines : List UInt8 :=
  "let a = 1\n \nlet = 2\nputs(a) \n".toUTF8.toList ++ [255, 10]

def withoutIdleLines : List UInt8 := "let a = 1\nputs(a) \n".toUTF8.toList ++ [255, 10]

/-- What is printed before the conversation ends is bound before the lines that can be left out. The
line that prints it ends in blanks. -/
theorem session_law_idleLines :
    (∃ whole part, start 4 withIdleLines = some whole ∧ start 4 withoutIdleLines = some part ∧
      Keeps (fun i => i != 1 && i != 2) whole part ∧ part.complete = false ∧
      whole.screen = ">> 1\n>> >> parser errors:\n" ++
        "\texpected next token to be IDENT, got = instead\n" ++
        "\tno prefix parse function for = found\n>> null\n>> " ∧
      part.screen = ">> 1\n>> null\n>> " ∧ part.printed = "1\n") ∧
    TrimsTo ("puts(a)" ++ " \n") "puts(a)" ∧
    ∀ s x t, Answers 4 ("puts(a)" ++ " \n") s x t ↔ Runs 4 ("puts(a)" ++ " \n") s x t := by
  obtain ⟨-, hstart, -, hpick, htrim⟩ := session_law 4 withIdleLines
  have hlines : byteLines withIdleLines = ["let a = 1\n".toUTF8.toList, " \n".toUTF8.toList,
      "let = 2\n".toUTF8.toList, "puts(a) \n".toUTF8.toList, [255, 10]] := by decide +kernel
  have hblank : Idle " \n".toUTF8.toList :=
    ⟨" \n", "", by decide +kernel, trimEnd_eq_iff.1 (by decide +kernel), .inl rfl⟩
  have hfaulty : Idle "let = 2\n".toUTF8.toList :=
    ⟨"let = 2\n", "let = 2", by decide +kernel, trimEnd_eq_iff.1 (by decide +kernel), .inr
      ⟨[.unexpected .ident (.sym .assign), .noOperand (.sym .assign)], by decide +kernel⟩⟩
  have hidle : ∀ i line, (byteLines withIdleLines)[i]? = some line →
      (i != 1 && i != 2) = false → Idle line := by
    intro i line hline hkeep
    rw [hlines] at hline
    match i with
    | 0 => cases hkeep
    | 1 =>
      cases hline
      exact hblank
    | 2 =>
      cases hline
      exact hfaulty
    | i + 3 => simp at hkeep
  have hpicked : (pick (fun i => i != 1 && i != 2) (byteLines withIdleLines)).flatten =
      withoutIdleLines := by decide +kernel
  have hkeeps := hpick _ hidle
  rw [hpicked] at hkeeps
  have hwritten : (start 4 withIdleLines).map (·.screen) = some (">> 1\n>> >> parser errors:\n" ++
      "\texpected next token to be IDENT, got = instead\n" ++
      "\tno prefix parse function for = found\n>> null\n>> ") := by decide +kernel
  have hrewritten : (start 4 withoutIdleLines).map (fun tr => (tr.screen, tr.printed)) =
      some (">> 1\n>> null\n>> ", "1\n") := by decide +kernel
  obtain ⟨whole, hwhole, hscreen⟩ := Option.map_eq_some_iff.1 hwritten
  obtain ⟨part, hpart, hkept⟩ := exists_of_rel hkeeps hwhole
  rw [hpart] at hrewritten
  obtain ⟨hpartScreen, hpartPrinted⟩ := Prod.mk.inj (Option.some.inj hrewritten)
  have hinvalid : whole.complete = false := by
    refine ((hstart whole).1 hwhole).2.2 ⟨[255, 10], ?_, by decide +kernel⟩
    rw [hlines]
    simp
  have hspace : TrimsTo ("puts(a)" ++ " \n") "puts(a)" := trimEnd_eq_iff.1 (by decide +kernel)
  have hblanks : ∀ c ∈ " \n".toList, Token.isBlank c = true := List.all_eq_true.1 (by decide)
  obtain ⟨-, -, -, hanswers⟩ := htrim "puts(a)" " \n" hspace hblanks
  exact ⟨⟨whole, part, hwhole, hpart, hkept, hkept.complete.trans hinvalid, hscreen, hpartScreen,
    hpartPrinted⟩, hspace, hanswers (by decide)⟩

end Prompt
end Monkey
