import Monkey.Program.Equality
import Monkey.Proofs.Reading.Termination

/-! # Asking a reader several times

A reader can be asked to read, asked for the faults that it keeps, and asked for both at once, in
any order and any number of times. Only the first request to read finds the text. From then on the
reader stands at the end, where there is nothing to read and nothing to go wrong; and it keeps its
faults until they are handed over, which happens once.

So the requests that came before determine what is due (`Reader.due`) and how the reader stands
(`Reader.standing`). This is shown for one request (`Reader.serve_standing`), and then for any number
of them (`Reader.serveAll_standing`).
-/

namespace Monkey.Reader

open Reading

/-! ## Requests -/

inductive Request where
  | readAll
  /-- Asks for the faults that have been met, without reading. -/
  | faults
  | finish
deriving DecidableEq, Repr

inductive Reply where
  | read (program : Program)
  | kept (faults : List Fault)
  | finished (result : Except (List Fault) Program)

def serve (r : Reader) : Request → Reply × Reader
  | .readAll => (.read r.readAll.1, r.readAll.2)
  | .faults => (.kept r.faults, r)
  | .finish => (.finished r.finish.1, r.finish.2)

/-- Serves one request after the other. -/
def serveAll : List Request → Reader → List Reply × Reader
  | [], r => ([], r)
  | q :: qs, r =>
    let (reply, r') := r.serve q
    let (replies, r'') := serveAll qs r'
    (reply :: replies, r'')

/-- Asks the reader to read. -/
def Request.reads : Request → Bool
  | .readAll | .finish => true
  | .faults => false

/-! ## What is due

Of the text it matters only what the first request to read finds in it: the program and the faults
that stand here as arguments. -/

section Due

variable (program : Program) (faults : List Fault) (before : List Request)

/-- What a request to read finds: the program, unless an earlier one has found it. -/
def found : Program := if before.any Request.reads then ⟨[]⟩ else program

/-- What the reader keeps: the faults, from the first request to read on and until they have been
asked for along with the program. -/
def kept : List Fault := if before.any Request.reads ∧ .finish ∉ before then faults else []

/-- The reply to a request, after those in `before`. -/
def due : Request → Reply
  | .readAll => .read (found program before)
  | .faults => .kept (kept faults before)
  | .finish => .finished
    (if faults ≠ [] ∧ .finish ∉ before then .error faults else .ok (found program before))

end Due

/-- How a reader over the text stands after the requests in `before`. -/
def standing (source : String) (before : List Request) : Reader where
  unread := if before.any Request.reads then [] else Token.scan source
  faults := kept (ofSource source).readAll.2.faults before

/-! ## One request -/

theorem any_reads_of_finish_mem {before : List Request} (h : .finish ∈ before) :
    before.any Request.reads = true :=
  List.any_eq_true.2 ⟨.finish, h, rfl⟩

theorem any_reads_concat (before : List Request) (q : Request) :
    (before ++ [q]).any Request.reads = (before.any Request.reads || q.reads) := by
  rw [List.any_append, List.any_cons, List.any_nil, Bool.or_false]

/-- A reader at the end finds nothing, and meets no fault. -/
theorem readAll_of_unread_eq_nil {r : Reader} (h : r.unread = []) : r.readAll = (⟨[]⟩, r) := by
  obtain ⟨unread, faults⟩ := r
  obtain rfl : unread = [] := h
  rw [readAll, statements_nil, List.append_nil]
  rfl

/-- To finish is to read and to hand over the faults, those that were kept among them. -/
theorem finish_eq (r : Reader) : r.finish =
    (if r.readAll.2.faults = [] then .ok r.readAll.1 else .error r.readAll.2.faults,
      ⟨r.readAll.2.unread, []⟩) := by
  unfold finish
  split
  · rename_i hread
    simp only [hread, if_true]
  · rename_i hread
    simp only [hread, reduceCtorEq, if_false]

/-- Whenever the reader is asked to read, it is at the end afterwards, with all faults that have not
been handed over. -/
theorem readAll_standing (source : String) (before : List Request) :
    (standing source before).readAll = (found (ofSource source).readAll.1 before,
      ⟨[], if .finish ∈ before then [] else (ofSource source).readAll.2.faults⟩) := by
  cases hreads : before.any Request.reads with
  | true =>
    have hunread : (standing source before).unread = [] := if_pos hreads
    rw [readAll_of_unread_eq_nil hunread, found, if_pos hreads, standing, kept, if_pos hreads]
    simp only [hreads, true_and, ite_not]
  | false =>
    have hfinish : .finish ∉ before := by
      intro hmem
      rw [any_reads_of_finish_mem hmem] at hreads
      cases hreads
    have hstanding : standing source before = ofSource source := by
      simp [standing, kept, ofSource, hreads]
    rw [hstanding, found, hreads, if_neg nofun, if_neg hfinish, ← unread_readAll_ofSource source]

/-- The reply to a request is the one that is due, and the reader stands as it should. -/
theorem serve_standing (source : String) (before : List Request) (q : Request) :
    (standing source before).serve q =
      (due (ofSource source).readAll.1 (ofSource source).readAll.2.faults before q,
        standing source (before ++ [q])) := by
  have hany := any_reads_concat before q
  cases q with
  | readAll =>
    rw [serve, readAll_standing, due]
    simp [standing, kept, hany, Request.reads]
  | faults =>
    rw [serve, due]
    simp [standing, kept, hany, Request.reads]
  | finish =>
    rw [serve, finish_eq, readAll_standing, due]
    by_cases hfinish : .finish ∈ before <;>
      simp [standing, kept, hany, Request.reads, hfinish, ite_not]

/-! ## Any number of requests -/

theorem standing_nil (source : String) : standing source [] = ofSource source := rfl

theorem serveAll_standing (source : String) (before requests : List Request) :
    (serveAll requests (standing source before)).2 = standing source (before ++ requests) ∧
      ∀ i, (serveAll requests (standing source before)).1[i]? = requests[i]?.map
        (due (ofSource source).readAll.1 (ofSource source).readAll.2.faults
          (before ++ requests.take i)) := by
  induction requests generalizing before with
  | nil => simp [serveAll]
  | cons q qs ih =>
    obtain ⟨hreader, hreplies⟩ := ih (before ++ [q])
    rw [serveAll, serve_standing]
    constructor
    · rw [List.append_cons before q qs]
      exact hreader
    · intro i
      cases i with
      | zero => simp
      | succ i =>
        rw [List.take_succ_cons, List.append_cons before q (qs.take i)]
        exact hreplies i

/-- Whatever a reader over a text is asked for, one request after the other: each reply is the one
that is due, given what the text is read as at once and which requests came before. Up to the first
request to read, the reader is as it was at the start; from then on there is nothing left for it to
read, and nothing that could be added to its faults. -/
theorem serveAll_ofSource (source : String) (requests : List Request) :
    (∀ i, (serveAll requests (ofSource source)).1[i]? = requests[i]?.map
      (due (ofSource source).readAll.1 (ofSource source).readAll.2.faults (requests.take i))) ∧
    (requests.any Request.reads = false →
      (serveAll requests (ofSource source)).2 = ofSource source) ∧
    (requests.any Request.reads = true →
      (serveAll requests (ofSource source)).2.unread = [] ∧
      (serveAll requests (ofSource source)).2.readAll =
        (⟨[]⟩, (serveAll requests (ofSource source)).2)) := by
  obtain ⟨hreader, hreplies⟩ := serveAll_standing source [] requests
  rw [standing_nil] at hreader hreplies
  rw [List.nil_append] at hreader
  refine ⟨hreplies, fun hreads => ?_, fun hreads => ?_⟩
  · rw [hreader]
    simp [standing, kept, ofSource, hreads]
  · have hunread : (serveAll requests (ofSource source)).2.unread = [] := by
      rw [hreader]
      exact if_pos hreads
    exact ⟨hunread, readAll_of_unread_eq_nil hunread⟩

/-- The fault in a text is kept when the text is read, and handed over once. After that, the reader
has read an empty text without faults. -/
theorem serveAll_ofSource_oneFault :
    [Request.faults, .readAll, .faults, .finish, .finish].any Request.reads = true ∧
    (serveAll [.faults, .readAll, .faults, .finish, .finish] (ofSource "let 1")).1 =
      [.kept [], .read ⟨[.expr (.int (.int "1") (.ofCount 1))]⟩, .kept [.unexpected .ident .int],
        .finished (.error [.unexpected .ident .int]), .finished (.ok ⟨[]⟩)] ∧
    (serveAll [.faults, .readAll, .faults, .finish, .finish] (ofSource "let 1")).2.unread = [] := by
  have hreads : [Request.faults, .readAll, .faults, .finish, .finish].any Request.reads = true := rfl
  have hprogram : (ofSource "let 1").readAll.1 = ⟨[.expr (.int (.int "1") (.ofCount 1))]⟩ := by
    decide +kernel
  have hfaults : (ofSource "let 1").readAll.2.faults = [.unexpected .ident .int] := by
    decide +kernel
  obtain ⟨hreplies, -, hend⟩ :=
    serveAll_ofSource "let 1" [.faults, .readAll, .faults, .finish, .finish]
  rw [hprogram, hfaults] at hreplies
  refine ⟨hreads, List.ext_getElem? fun i => ?_, (hend hreads).1⟩
  rw [hreplies]
  match i with
  | 0 | 1 | 2 | 3 | 4 => rfl
  | i + 5 => rfl

end Monkey.Reader
