import Mathlib.Logic.Function.Basic
import Monkey.Proofs.Eval.Frames
import Monkey.Proofs.Eval.Invariant
import Monkey.Proofs.Eval.Renaming
import Monkey.Session

/-! # Parties that share a store

Several parties take turns in one store. Each starts with an empty frame of its own, and takes steps
only in this frame and in those that it has made itself. In whatever order they take their turns,
each gets the answers that it would have got alone, up to the numbers of frames and functions
(`Session.play_filter`).

There are two sides to this. What a party does is the same in the shared store and in one of its own
(`Renaming.Stores.act`), and what the others do in the meantime does not change what it can see
(`Renaming.Stores.of_changesOnly`).
-/

namespace Monkey

/-! ## What is left as it was -/

namespace Store

variable {s t : Store} {own : List FrameId} {i : FrameId}

/-- Of the frames in `s`, at most those in `own` are different in `t`. -/
structure ChangesOnly (s : Store) (own : List FrameId) (t : Store) : Prop where
  frames : ∀ i, i < s.next → i ∉ own → t.frames[i]? = s.frames[i]?
  next_le : s.next ≤ t.next
  functions_le : s.functions ≤ t.functions

namespace ChangesOnly

theorem refl (s : Store) (own : List FrameId) : s.ChangesOnly own s :=
  ⟨fun _ _ _ => rfl, Nat.le_refl _, Nat.le_refl _⟩

theorem addFrame (s : Store) (own : List FrameId) (f : Frame) :
    s.ChangesOnly own (s.addFrame f) where
  frames i hi _ := by rw [getElem?_addFrame, if_neg (Nat.ne_of_lt hi)]
  next_le := by
    rw [next_addFrame]
    exact Nat.le_succ _
  functions_le := Nat.le_refl _

theorem set (s : Store) (hi : i ∈ own) (x : String) (v : Value) :
    s.ChangesOnly own (s.set i x v) where
  frames j _ hj := by
    have hne : i ≠ j := fun hij => hj (hij ▸ hi)
    rw [getElem?_set, if_neg hne]
  next_le := Nat.le_of_eq (next_set s i x v).symm
  functions_le := Nat.le_refl _

theorem of_eval {depth : Nat} {p : Program} {v : Value} (hi : i ∈ own)
    (h : p.eval depth i s = some (v, t)) : s.ChangesOnly own t := by
  obtain ⟨r, hr⟩ := Eval.exists_of_eval h
  have hrebinds : s.Rebinds i (p.statements.flatMap Stmt.lets) t :=
    ((Eval.rebindsWithin depth).sequence p.statements).returning s r t hr
  refine ⟨fun j hj hmem => ?_, hrebinds.next_le, Eval.functions_le_of_program hr⟩
  have hne : j ≠ i := fun hji => hmem (hji ▸ hi)
  have hf : s.frames[j]? = some s.frames[j] := Array.getElem?_eq_getElem hj
  rw [hf]
  exact hrebinds.others j _ hne hf

theorem of_run {depth : Nat} {source : String} {result : Except (List Reading.Fault) Value}
    (hi : i ∈ own) (h : s.run depth i source = some (result, t)) : s.ChangesOnly own t := by
  unfold Store.run at h
  split at h
  · cases h
    exact refl s own
  · obtain ⟨⟨v, u⟩, heval, hv⟩ := Option.map_eq_some_iff.1 h
    cases hv
    exact of_eval hi heval

end ChangesOnly
end Store

namespace Renaming.Stores

variable {w : Renaming} {foreign foreign' : FrameId → Prop} {s s' t : Store}

/-- What is done in foreign frames, or by adding frames, cannot be seen from others. -/
theorem of_changesOnly (hs : w.Stores foreign s t) (own : List FrameId)
    (hown : ∀ i ∈ own, foreign i) (hchange : s.ChangesOnly own s')
    (hforeign : ∀ i, foreign' i → foreign i ∨ s.next ≤ i ∧ i < s'.next) :
    w.Stores foreign' s' t where
  related := by
    intro i j hij
    have hi : i ∉ own := fun hmem => hs.foreign_apart i j (hown i hmem) hij
    rw [hchange.frames i (hs.frames_lt i j hij).1 hi]
    exact hs.related i j hij
  frames_lt i j hij := by
    obtain ⟨hi, hj⟩ := hs.frames_lt i j hij
    exact ⟨Nat.lt_of_lt_of_le hi hchange.next_le, hj⟩
  functions_lt i j hij := by
    obtain ⟨hi, hj⟩ := hs.functions_lt i j hij
    exact ⟨Nat.lt_of_lt_of_le hi hchange.functions_le, hj⟩
  foreign_lt i hi := by
    rcases hforeign i hi with hold | ⟨-, hlt⟩
    · exact Nat.lt_of_lt_of_le (hs.foreign_lt i hold) hchange.next_le
    · exact hlt
  foreign_apart i j hi hij := by
    rcases hforeign i hi with hold | ⟨hle, -⟩
    · exact hs.foreign_apart i j hold hij
    · exact Nat.not_lt_of_le hle (hs.frames_lt i j hij).1

end Renaming.Stores

/-! ## Parties and their turns -/

namespace Session

/-- The step of a party that has the frames `own` and counts these only. In a frame that it does not
have, it cannot take a step. -/
def Step.resolve? (own : List FrameId) : Step → Option Step
  | .new => some .new
  | .enclose n => own[n]?.map .enclose
  | .get n x => own[n]?.map (.get · x)
  | .set n x v => own[n]?.map (.set · x v)
  | .run n source => own[n]?.map (.run · source)

/-- Takes a step of such a party. -/
def act (depth : Nat) (own : List FrameId) (s : Store) (step : Step) : Option (Answer × Store) :=
  (step.resolve? own).bind (perform depth s)

/-- The frames that a party gets with an answer. -/
def Answer.frames : Answer → List FrameId
  | .made i => [i]
  | _ => []

section Parties

variable {ι : Type} [DecidableEq ι]

/-- The party `k` has more frames. -/
def give (own : ι → List FrameId) (k : ι) (frames : List FrameId) : ι → List FrameId :=
  Function.update own k (own k ++ frames)

theorem give_self (own : ι → List FrameId) (k : ι) (frames : List FrameId) :
    give own k frames k = own k ++ frames := Function.update_self k _ own

theorem give_of_ne {k m : ι} (h : m ≠ k) (own : ι → List FrameId) (frames : List FrameId) :
    give own k frames m = own m := Function.update_of_ne h _ own

/-- The parties take turns. Each has the frames that it starts with and those that it makes. -/
def play (depth : Nat) :
    List (ι × Step) → (ι → List FrameId) → Store → Option (List (ι × Answer))
  | [], _, _ => some []
  | (k, step) :: moves, own, s => do
    let (answer, t) ← act depth (own k) s step
    let answers ← play depth moves (give own k answer.frames) t
    some ((k, answer) :: answers)

end Parties

/-- Binds no function from outside. -/
def Step.FunctionFree : Step → Prop
  | .set _ _ v => ∀ f, ¬Value.Within (.function f) v
  | _ => True

variable {depth : Nat} {s t : Store} {own : List FrameId} {step : Step} {answer : Answer}

theorem changesOnly_perform_run {i : FrameId} {source : String} (hi : i ∈ own)
    (h : perform depth s (.run i source) = some (answer, t)) : s.ChangesOnly own t := by
  obtain ⟨⟨result, u⟩, hrun, hanswer⟩ := Option.map_eq_some_iff.1 h
  cases hanswer
  have hchange := Store.ChangesOnly.of_run hi hrun
  exact ⟨hchange.frames, hchange.next_le, hchange.functions_le⟩

/-- A party changes only frames that it has, and gets only new ones. -/
theorem changesOnly_act (h : act depth own s step = some (answer, t)) :
    s.ChangesOnly own t ∧ ∀ i ∈ answer.frames, s.next ≤ i ∧ i < t.next := by
  have hmade (f : Frame) : ∀ i ∈ [s.next], s.next ≤ i ∧ i < (s.addFrame f).next := by
    rw [Store.next_addFrame]
    exact List.forall_mem_singleton.2 ⟨Nat.le_refl _, Nat.lt_succ_self _⟩
  obtain ⟨step', hstep, h⟩ := Option.bind_eq_some_iff.1 h
  cases step with
  | new =>
    cases hstep
    cases h
    exact ⟨.addFrame s own _, hmade _⟩
  | enclose n =>
    obtain ⟨i, hi, rfl⟩ := Option.map_eq_some_iff.1 hstep
    cases h
    exact ⟨.addFrame s own _, hmade _⟩
  | get n x =>
    obtain ⟨i, hi, rfl⟩ := Option.map_eq_some_iff.1 hstep
    cases h
    exact ⟨.refl s own, nofun⟩
  | set n x v =>
    obtain ⟨i, hi, rfl⟩ := Option.map_eq_some_iff.1 hstep
    cases h
    exact ⟨.set s (List.mem_of_getElem? hi) x v, nofun⟩
  | run n source =>
    obtain ⟨i, hi, rfl⟩ := Option.map_eq_some_iff.1 hstep
    refine ⟨changesOnly_perform_run (List.mem_of_getElem? hi) h, ?_⟩
    obtain ⟨⟨result, u⟩, -, hanswer⟩ := Option.map_eq_some_iff.1 h
    cases hanswer
    nofun

end Session

/-! ## The same answers -/

namespace Renaming

open Session

/-- The same answer but for the numbers of frames and functions. -/
inductive Answers (w : Renaming) : Answer → Answer → Prop where
  | made {i j : FrameId} (h : w.frames i j) : Answers w (.made i) (.made j)
  | unbound : Answers w (.found none) (.found none)
  | found {v v' : Value} (h : w.values v v') (hi : v.inspect = v'.inspect) :
      Answers w (.found (some v)) (.found (some v'))
  | bound {v v' : Value} (h : w.values v v') (hi : v.inspect = v'.inspect) :
      Answers w (.bound v) (.bound v')
  | faulty (faults : List Reading.Fault) (output : String) :
      Answers w (.ran (.error faults) output) (.ran (.error faults) output)
  | ran {v v' : Value} (h : w.values v v') (hi : v.inspect = v'.inspect) (output : String) :
      Answers w (.ran (.ok v) output) (.ran (.ok v') output)

theorem Answers.later {w w' : Renaming} (hw : w.Later w') {a b : Answer} (h : w.Answers a b) :
    w'.Answers a b := by
  cases h with
  | made h => exact .made (hw.frames _ _ h)
  | unbound => exact .unbound
  | found h hi => exact .found (hw.values h) hi
  | bound h hi => exact .bound (hw.values h) hi
  | faulty faults output => exact .faulty faults output
  | ran h hi output => exact .ran (hw.values h) hi output

namespace Stores

variable {w : Renaming} {foreign : FrameId → Prop} {s t : Store} {depth : Nat} {i j : FrameId}

theorem run (hs : w.Stores foreign s t) (hij : w.frames i j) (source : String) :
    Option.Rel (fun a b => ∃ w', w.Later w' ∧ w'.Stores foreign a.2 b.2 ∧
        w'.Answers (.ran a.1 a.2.output) (.ran b.1 b.2.output))
      (s.silent.run depth i source) (t.silent.run depth j source) := by
  have hsilent : w.Stores foreign s.silent t.silent :=
    ⟨hs.related, hs.frames_lt, hs.functions_lt, hs.foreign_lt, hs.foreign_apart⟩
  unfold Store.run
  rcases Program.parse source with faults | p
  · exact .some ⟨w, .refl w, hsilent, .faulty faults ""⟩
  · refine rel_map ((Simulation.renaming foreign).similar_eval trivial depth hij
      (List.forall₂_same.2 fun _ _ => rfl) ⟨hsilent, rfl⟩) ?_
    rintro ⟨v, s'⟩ ⟨v', t'⟩ ⟨w', hw, ⟨hs', hout⟩, hv⟩
    refine ⟨w', hw, hs', ?_⟩
    have hprinted : s'.output = t'.output := hout
    rw [hprinted]
    exact .ran hv (values_inspect_eq hv) _

/-- A step in frames that belong together, which are the `n`-th ones of a party. -/
theorem rel_perform {R : Answer × Store → Answer × Store → Prop} {own own' : List FrameId}
    (hown : List.Forall₂ w.frames own own') (n : Nat) (step : FrameId → Step)
    (h : ∀ i j, w.frames i j →
      Option.Rel R (perform depth s (step i)) (perform depth t (step j))) :
    Option.Rel R ((own[n]?.map step).bind (perform depth s))
      ((own'[n]?.map step).bind (perform depth t)) := by
  rw [Option.bind_map, Option.bind_map]
  exact rel_bind (rel_getElem? hown n) h

/-- A party does the same in both stores. -/
theorem act (hs : w.Stores foreign s t) {own own' : List FrameId}
    (hown : List.Forall₂ w.frames own own') {step : Step} (hfree : step.FunctionFree) :
    Option.Rel (fun a b => ∃ w', w.Later w' ∧ w'.Stores foreign a.2 b.2 ∧ w'.Answers a.1 b.1 ∧
        List.Forall₂ w'.frames a.1.frames b.1.frames)
      (act depth own s step) (act depth own' t step) := by
  cases step with
  | new =>
    obtain ⟨w', hw, hnew, hs'⟩ := hs.addFrame (.empty .none)
    exact .some ⟨w', hw, hs', .made hnew, .cons hnew .nil⟩
  | enclose n =>
    refine rel_perform hown n .enclose fun i j hij => ?_
    obtain ⟨w', hw, hnew, hs'⟩ := hs.addFrame (.empty (.some hij))
    exact .some ⟨w', hw, hs', .made hnew, .cons hnew .nil⟩
  | get n x =>
    refine rel_perform hown n (.get · x) fun i j hij => .some ⟨w, .refl w, hs, ?_, .nil⟩
    have hx := hs.get? hij x
    generalize s.get? i x = v? at hx ⊢
    generalize t.get? j x = v'? at hx ⊢
    cases hx with
    | none => exact .unbound
    | some hv => exact .found hv (values_inspect_eq hv)
  | set n x v =>
    refine rel_perform hown n (.set · x v) fun i j hij => ?_
    have hv : w.values v v := values_self hfree
    exact .some ⟨w, .refl w, hs.set hij x hv, .bound hv rfl, .nil⟩
  | run n source =>
    refine rel_perform hown n (.run · source) fun i j hij => rel_map (hs.run hij source) ?_
    rintro ⟨result, s'⟩ ⟨result', t'⟩ ⟨w', hw, hs', hanswers⟩
    exact ⟨w', hw, hs', hanswers, .nil⟩

end Stores

/-! ## Turns -/

variable {ι : Type} {w : Renaming} {k m : ι} {own own' : ι → List FrameId}
  {s s' t : Store} {depth : Nat} {step : Step} {answer : Answer}

/-- The frames of the party `k` in the one store belong to its frames in the other, and the frames of
all other parties to none. -/
structure Parties (w : Renaming) (k : ι) (own own' : ι → List FrameId) (s t : Store) : Prop where
  stores : w.Stores (fun i => ∃ m, m ≠ k ∧ i ∈ own m) s t
  frames : List.Forall₂ w.frames (own k) (own' k)

/-- An empty frame in each store, and no functions. -/
def ofTops (i j : FrameId) : Renaming where
  frames k l := k = i ∧ l = j
  functions _ _ := False
  frames_ordered := by
    rintro _ _ _ _ ⟨rfl, rfl⟩ ⟨rfl, rfl⟩
    exact iff_of_false (Nat.lt_irrefl _) (Nat.lt_irrefl _)
  functions_ordered := nofun

/-- Parties that have nothing but an empty frame each. -/
theorem parties_ofTops {tops tops' : ι → FrameId} (htops : Function.Injective tops)
    (hs : ∀ k, s.frames[tops k]? = some (.empty none))
    (ht : t.frames[tops' k]? = some (.empty none)) :
    (ofTops (tops k) (tops' k)).Parties k (fun m => [tops m]) (fun m => [tops' m]) s t where
  stores := {
    related := by
      rintro _ _ ⟨rfl, rfl⟩
      rw [hs k, ht]
      exact .some (.empty .none)
    frames_lt := by
      rintro _ _ ⟨rfl, rfl⟩
      exact ⟨(Array.getElem?_eq_some_iff.1 (hs k)).1, (Array.getElem?_eq_some_iff.1 ht).1⟩
    functions_lt := nofun
    foreign_lt := by
      rintro i ⟨m, -, hi⟩
      rw [List.mem_singleton.1 hi]
      exact (Array.getElem?_eq_some_iff.1 (hs m)).1
    foreign_apart := by
      rintro i j ⟨m, hm, hi⟩ ⟨rfl, -⟩
      exact hm (htops (List.mem_singleton.1 hi).symm) }
  frames := .cons ⟨rfl, rfl⟩ .nil

namespace Parties

variable [DecidableEq ι]

/-- The turn of the party itself. -/
theorem turn (hs : w.Parties k own own' s t) (hfree : step.FunctionFree)
    (h : act depth (own k) s step = some (answer, s')) :
    ∃ w' answer' t', w.Later w' ∧ act depth (own' k) t step = some (answer', t') ∧
      w'.Answers answer answer' ∧
      w'.Parties k (give own k answer.frames) (give own' k answer'.frames) s' t' := by
  obtain ⟨⟨answer', t'⟩, h', w', hw, hs', hanswer, hframes⟩ :=
    exists_of_rel (hs.stores.act hs.frames hfree) h
  refine ⟨w', answer', t', hw, h', hanswer, ?_, ?_⟩
  · -- The others still have the frames that they had.
    refine hs'.of_changesOnly [] nofun (.refl s' []) ?_
    rintro i ⟨m, hm, hi⟩
    rw [give_of_ne hm] at hi
    exact .inl ⟨m, hm, hi⟩
  · rw [give_self, give_self]
    exact List.rel_append (hs.frames.imp hw.frames) hframes

/-- The turn of another party. -/
theorem turn_of_ne (hs : w.Parties k own own' s t) (hm : m ≠ k)
    (h : act depth (own m) s step = some (answer, s')) :
    w.Parties k (give own m answer.frames) own' s' t := by
  obtain ⟨hchange, hmade⟩ := changesOnly_act h
  constructor
  · refine hs.stores.of_changesOnly (own m) (fun i hi => ⟨m, hm, hi⟩) hchange ?_
    rintro i ⟨l, hl, hi⟩
    by_cases hlm : l = m
    · subst hlm
      rw [give_self, List.mem_append] at hi
      exact hi.imp (fun hi => ⟨l, hl, hi⟩) (hmade i)
    · rw [give_of_ne hlm] at hi
      exact .inl ⟨l, hl, hi⟩
  · rw [give_of_ne (Ne.symm hm)]
    exact hs.frames

/-- Whatever the other parties do, the party `k` gets the answers that it gets without them. -/
theorem play {moves : List (ι × Step)} {answers : List (ι × Answer)}
    (hs : w.Parties k own own' s t) (hfree : ∀ move ∈ moves, move.2.FunctionFree)
    (h : play depth moves own s = some answers) :
    ∃ w' answers', w.Later w' ∧
      Session.play depth (moves.filter (·.1 = k)) own' t = some answers' ∧
      List.Forall₂ (fun a b => a.1 = b.1 ∧ w'.Answers a.2 b.2) (answers.filter (·.1 = k))
        answers' := by
  induction moves generalizing w own own' s t answers with
  | nil =>
    cases h
    exact ⟨w, [], .refl w, rfl, .nil⟩
  | cons move moves ih =>
    obtain ⟨m, step⟩ := move
    obtain ⟨hstep, hfree⟩ := List.forall_mem_cons.1 hfree
    obtain ⟨⟨answer, s'⟩, hact, h⟩ := Option.bind_eq_some_iff.1 h
    obtain ⟨rest, hrest, h⟩ := Option.bind_eq_some_iff.1 h
    cases h
    by_cases hm : m = k
    · subst hm
      obtain ⟨w₁, answer', t', hw₁, hact', hanswer, hs'⟩ := hs.turn hstep hact
      obtain ⟨w₂, rest', hw₂, hrest', hanswers⟩ := ih hs' hfree hrest
      refine ⟨w₂, (m, answer') :: rest', hw₁.trans hw₂, ?_, ?_⟩
      · rw [List.filter_cons_of_pos (by simp)]
        exact Option.bind_eq_some_iff.2 ⟨_, hact', Option.bind_eq_some_iff.2 ⟨rest', hrest', rfl⟩⟩
      · rw [List.filter_cons_of_pos (by simp)]
        -- The answer is one of `w₁`, and it is by the last renaming that all are compared.
        exact .cons ⟨rfl, hanswer.later hw₂⟩ hanswers
    · rw [List.filter_cons_of_neg (by simpa using hm), List.filter_cons_of_neg (by simpa using hm)]
      exact ih (hs.turn_of_ne hm hact) hfree hrest

end Parties

end Renaming

/-- Parties that start with an empty frame each do not disturb each other. In whatever order they
take their turns, each gets the same answers as without the others, be it in the same store or in any
other one in which it has an empty frame. One renaming accounts for all differences in the numbers of
frames and functions. -/
theorem Session.play_filter {ι : Type} [DecidableEq ι] (depth : Nat) (tops : ι → FrameId)
    (htops : Function.Injective tops) (s : Store)
    (hs : ∀ k, s.frames[tops k]? = some (.empty none)) (moves : List (ι × Step))
    (hfree : ∀ move ∈ moves, move.2.FunctionFree) (answers : List (ι × Answer))
    (h : play depth moves (fun k => [tops k]) s = some answers) (k : ι) (tops' : ι → FrameId)
    (t : Store) (ht : t.frames[tops' k]? = some (.empty none)) :
    ∃ (w : Renaming) (answers' : List (ι × Answer)), w.frames (tops k) (tops' k) ∧
      play depth (moves.filter (·.1 = k)) (fun k => [tops' k]) t = some answers' ∧
      List.Forall₂ (fun a b => a.1 = b.1 ∧ w.Answers a.2 b.2) (answers.filter (·.1 = k))
        answers' := by
  obtain ⟨w, answers', hw, hplay, hanswers⟩ :=
    (Renaming.parties_ofTops htops hs ht).play hfree h
  exact ⟨w, answers', hw.frames _ _ ⟨rfl, rfl⟩, hplay, hanswers⟩

namespace Session

/-- Two empty frames. -/
def twoFrames : Store := Store.fresh.addFrame (.empty none)

/-- Two parties make functions of the same name, and call them in turns. -/
def crossing : List (Bool × Step) := [
  (false, .run 0 "let f = fn(x) \x7b x + n \x7d;"),
  (true, .enclose 0),
  (true, .run 1 "let f = fn() \x7b 7 \x7d; puts(f);"),
  (false, .set 0 "n" (.int (.ofCount 1))),
  (true, .get 1 "f"),
  (false, .run 0 "f(2)"),
  (true, .run 1 "[f() == f(), n]")]

theorem play_filter_crossing :
    ∃ answers, play 8 crossing (fun k => [k.toNat]) twoFrames = some answers ∧
      ∀ k, ∃ (w : Renaming) (answers' : List (Bool × Answer)), w.frames k.toNat 0 ∧
        play 8 (crossing.filter (·.1 = k)) (fun _ => [0]) .fresh = some answers' ∧
        List.Forall₂ (fun a b => a.1 = b.1 ∧ w.Answers a.2 b.2) (answers.filter (·.1 = k))
          answers' := by
  have hplay : (play 8 crossing (fun k => [k.toNat]) twoFrames).isSome = true := by decide +kernel
  have hinjective : Function.Injective Bool.toNat := by
    intro a b
    revert a b
    decide
  have hempty (k : Bool) : twoFrames.frames[k.toNat]? = some (.empty none) := by
    cases k <;> rfl
  have hfree : ∀ move ∈ crossing, move.2.FunctionFree := by
    simp only [crossing, List.forall_mem_cons, Step.FunctionFree, true_and]
    exact ⟨nofun, nofun⟩
  obtain ⟨answers, h⟩ := Option.isSome_iff_exists.1 hplay
  refine ⟨answers, h, fun k => ?_⟩
  exact play_filter 8 Bool.toNat hinjective twoFrames hempty crossing hfree answers h k (fun _ => 0)
    .fresh rfl

end Session
end Monkey
