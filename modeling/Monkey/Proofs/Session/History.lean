import Monkey.Proofs.Eval.Ends
import Monkey.Proofs.Session.Isolation

/-! # Lookup, as the history tells it

Frames are made and names are bound in them, in any order: a frame that has others inside it can
still get new names. What a name then stands for can be read off the steps alone. `outers` are the
frames that the steps make and `latest?` is what they last bound a name to; a lookup goes through the
frames from the inside out, and takes the first that has such a value. `Store.Records` says that a
store holds what its history tells, and each step preserves it.
-/

namespace Monkey

open Eval

namespace Session

/-- The frame that a step makes lies in this one, or in no other. -/
def Step.made? : Step → Option (Option FrameId)
  | .new => some none
  | .enclose o => some (some o)
  | _ => none

/-- What a step binds `x` to in the frame `i`. -/
def Step.bound? (i : FrameId) (x : String) : Step → Option Value
  | .set j y v => if j = i ∧ y = x then some v else none
  | _ => none

/-- What lies around each frame that is made. The frames are numbered in this order. -/
def outers (steps : List Step) : List (Option FrameId) := steps.filterMap Step.made?

/-- What `x` is bound to in the frame `i` by the last step that binds it there. -/
def latest? (steps : List Step) (i : FrameId) (x : String) : Option Value :=
  (steps.filterMap (Step.bound? i x)).getLast?

/-- With `n` frames to begin with, the steps make frames and bind names, and do so in frames that
there are. -/
inductive Builds : Nat → List Step → Prop where
  | nil {n : Nat} : Builds n []
  | new {n : Nat} {steps : List Step} (h : Builds (n + 1) steps) : Builds n (.new :: steps)
  | enclose {n : Nat} {steps : List Step} {o : FrameId} (ho : o < n) (h : Builds (n + 1) steps) :
      Builds n (.enclose o :: steps)
  | set {n : Nat} {steps : List Step} {i : FrameId} {x : String} {v : Value} (hi : i < n)
      (h : Builds n steps) : Builds n (.set i x v :: steps)

/-- A frame and those around it, from the inside out. -/
inductive Chain (outers : List (Option FrameId)) : FrameId → List FrameId → Prop where
  | top {i : FrameId} (h : outers[i]? = some none) : Chain outers i [i]
  | inside {i o : FrameId} {chain : List FrameId} (h : outers[i]? = some (some o))
      (hc : Chain outers o chain) : Chain outers i (i :: chain)

/-- What the steps tell of `x`, where it is looked for in the frames of `chain`. The first of these in
which any step binds it decides, and there the last such step. -/
inductive Tells (steps : List Step) (chain : List FrameId) (x : String) : Option Value → Prop where
  | bound {inner rest : List FrameId} {i : FrameId} {before after : List Step} {v : Value}
      (hchain : chain = inner ++ i :: rest) (hinner : ∀ k ∈ inner, ∀ w, Step.set k x w ∉ steps)
      (hset : steps = before ++ .set i x v :: after) (hlast : ∀ w, Step.set i x w ∉ after) :
      Tells steps chain x (some v)
  | unbound (h : ∀ k ∈ chain, ∀ w, Step.set k x w ∉ steps) : Tells steps chain x none

variable {steps before after : List Step} {step : Step} {i j : FrameId} {x y : String} {v : Value}

/-- There is no more than one chain. -/
theorem Chain.unique {os : List (Option FrameId)} {chain chain' : List FrameId}
    (h : Chain os i chain) (h' : Chain os i chain') : chain = chain' := by
  induction h generalizing chain' with
  | top h =>
    cases h' with
    | top => rfl
    | inside h' => rw [h] at h'; cases h'
  | inside h _ ih =>
    cases h' with
    | top h' => rw [h] at h'; cases h'
    | inside h' hc =>
      rw [h] at h'
      cases h'
      rw [ih hc]

theorem Step.bound?_of_made? {o? : Option FrameId} (h : step.made? = some o?) (i : FrameId)
    (x : String) : step.bound? i x = none := by
  cases step with
  | set => cases h
  | _ => rfl

theorem outers_snoc (steps : List Step) (step : Step) :
    outers (steps ++ [step]) = outers steps ++ step.made?.toList := by
  cases h : step.made? <;> simp [outers, h]

theorem latest?_snoc (steps : List Step) (step : Step) (i : FrameId) (x : String) :
    latest? (steps ++ [step]) i x = (step.bound? i x).or (latest? steps i x) := by
  cases h : step.bound? i x <;> simp [latest?, h]

theorem bound?_eq_some : step.bound? i x = some v ↔ step = .set i x v := by
  cases step with
  | set j y w =>
    simp only [Step.bound?, Option.ite_none_right_eq_some, Step.set.injEq, Option.some.injEq]
    tauto
  | _ => simp [Step.bound?]

theorem latest?_eq_none : latest? steps i x = none ↔ ∀ v, Step.set i x v ∉ steps := by
  rw [latest?, List.getLast?_eq_none_iff, List.filterMap_eq_nil_iff]
  constructor
  · intro h v hv
    have hnone := h _ hv
    rw [bound?_eq_some.2 rfl] at hnone
    cases hnone
  · intro h step hstep
    cases hb : step.bound? i x with
    | none => rfl
    | some v => exact absurd (bound?_eq_some.1 hb ▸ hstep) (h v)

theorem latest?_eq_some : latest? steps i x = some v ↔
    ∃ before after, steps = before ++ .set i x v :: after ∧ ∀ w, Step.set i x w ∉ after := by
  rw [latest?, List.getLast?_eq_some_iff]
  constructor
  · rintro ⟨vs, h⟩
    obtain ⟨front, back, rfl, -, hback⟩ := List.filterMap_eq_append_iff.1 h
    obtain ⟨middle, step, after, rfl, -, hstep, hafter⟩ := List.filterMap_eq_cons_iff.1 hback
    rw [bound?_eq_some.1 hstep]
    refine ⟨front ++ middle, after, (List.append_assoc ..).symm, ?_⟩
    exact latest?_eq_none.1 (List.getLast?_eq_none_iff.2 hafter)
  · rintro ⟨before, after, rfl, hlast⟩
    have hafter := List.getLast?_eq_none_iff.1 (latest?_eq_none.2 hlast)
    rw [List.filterMap_append, List.filterMap_cons_some (bound?_eq_some.2 rfl), hafter]
    exact ⟨_, rfl⟩

theorem tells_iff {chain : List FrameId} {v? : Option Value} :
    Tells steps chain x v? ↔ chain.findSome? (latest? steps · x) = v? := by
  constructor
  · rintro (⟨hchain, hinner, hset, hlast⟩ | h)
    · exact List.findSome?_eq_some_iff.2 ⟨_, _, _, hchain, latest?_eq_some.2 ⟨_, _, hset, hlast⟩,
        fun k hk => latest?_eq_none.2 (hinner k hk)⟩
    · exact List.findSome?_eq_none_iff.2 fun k hk => latest?_eq_none.2 (h k hk)
  · rintro rfl
    cases h : chain.findSome? (latest? steps · x) with
    | none =>
      exact .unbound fun k hk => latest?_eq_none.1 (List.findSome?_eq_none_iff.1 h k hk)
    | some v =>
      obtain ⟨inner, i, rest, hchain, hlatest, hinner⟩ := List.findSome?_eq_some_iff.1 h
      obtain ⟨before, after, hset, hlast⟩ := latest?_eq_some.1 hlatest
      exact .bound hchain (fun k hk => latest?_eq_none.1 (hinner k hk)) hset hlast

/-! ## Leaving out a step -/

theorem outers_erase (before : List Step) (i : FrameId) (x : String) (v : Value)
    (after : List Step) : outers (before ++ .set i x v :: after) = outers (before ++ after) := by
  rw [outers, outers, List.filterMap_append, List.filterMap_append, List.filterMap_cons_none rfl]

theorem latest?_erase (h : i ≠ j) (x : String) : latest? (before ++ .set i x v :: after) j y =
    latest? (before ++ after) j y := by
  have hset : (Step.set i x v).bound? j y = none := if_neg fun hij => h hij.1
  rw [latest?, latest?, List.filterMap_append, List.filterMap_append,
    List.filterMap_cons_none hset]

theorem Builds.erase {n : Nat} (h : Builds n (before ++ .set i x v :: after)) :
    Builds n (before ++ after) := by
  induction before generalizing n with
  | nil =>
    cases h with
    | set _ h => exact h
  | cons step before ih =>
    cases h with
    | new h => exact .new (ih h)
    | enclose ho h => exact .enclose ho (ih h)
    | set hi h => exact .set hi (ih h)

end Session

/-! ## The store holds what its history tells -/

open Session

/-- The frames are those that the steps have made, and in each of them each name stands for what it
was last bound to. -/
structure Store.Records (s : Store) (steps : List Step) : Prop where
  outer : ∀ i : FrameId, s.frames[i]?.map Frame.outer = (outers steps)[i]?
  outer_lt : ∀ i o : FrameId, (outers steps)[i]? = some (some o) → o < i
  bound : ∀ (i : FrameId) (x : String),
    (s.frames[i]?.bind fun f => f.bindings.find? x) = latest? steps i x

namespace Store.Records

variable {s t : Store} {steps done : List Step} {step : Step} {i : FrameId} {x : String}
  {chain : List FrameId}

theorem empty : Store.empty.Records [] where
  outer _ := rfl
  outer_lt _ _ h := by cases h
  bound _ _ := rfl

theorem next_eq (h : s.Records steps) : s.next = (outers steps).length := by
  have hnone (k : Nat) : s.next ≤ k ↔ (outers steps).length ≤ k := by
    rw [← List.getElem?_eq_none_iff, ← h.outer, Option.map_eq_none_iff, Array.getElem?_eq_none_iff]
    rfl
  exact Nat.le_antisymm ((hnone _).2 (Nat.le_refl _)) ((hnone _).1 (Nat.le_refl _))

theorem addFrame (h : s.Records steps) {o? : Option FrameId} (hmade : step.made? = some o?)
    (ho : ∀ o, o? = some o → o < s.next) : (s.addFrame (.empty o?)).Records (steps ++ [step]) := by
  have houters (k : FrameId) : (outers (steps ++ [step]))[k]? =
      if k = s.next then some o? else (outers steps)[k]? := by
    rw [outers_snoc, hmade, Option.toList_some, h.next_eq]
    split
    · rename_i hk
      rw [hk, List.getElem?_concat_length]
    · grind
  have hlatest (k : FrameId) (x : String) :
      latest? (steps ++ [step]) k x = latest? steps k x := by
    rw [latest?_snoc, Step.bound?_of_made? hmade, Option.none_or]
  refine ⟨fun k => ?_, fun k o => ?_, fun k x => ?_⟩
  · rw [getElem?_addFrame, houters, ← h.outer]
    split <;> rfl
  · rw [houters]
    split
    · rename_i hk
      intro heq
      rw [hk]
      exact ho o (Option.some.inj heq)
    · exact h.outer_lt k o
  · rw [getElem?_addFrame, hlatest, ← h.bound]
    split
    · -- nothing was bound in the new frame, because it was not there
      rename_i hk
      rw [hk, next, Array.getElem?_size]
      rfl
    · rfl

theorem set (h : s.Records steps) (hi : i < s.next) (x : String) (v : Value) :
    (s.set i x v).Records (steps ++ [.set i x v]) := by
  have houters : outers (steps ++ [.set i x v]) = outers steps := by
    rw [outers_snoc]
    exact List.append_nil _
  refine ⟨fun k => ?_, fun k o => ?_, fun k y => ?_⟩
  · rw [houters, ← h.outer, getElem?_set]
    split
    · rw [Option.map_map]
      rfl
    · rfl
  · rw [houters]
    exact h.outer_lt k o
  · rw [latest?_snoc, ← h.bound, getElem?_set, Step.bound?]
    by_cases hk : i = k
    · obtain ⟨f, hf⟩ : ∃ f, s.frames[k]? = some f := ⟨_, Array.getElem?_eq_getElem (hk ▸ hi)⟩
      rw [if_pos hk, hf, Option.map_some, Option.bind_some, Option.bind_some]
      rw [Frame.set, Bindings.find?_set]
      by_cases hy : x = y
      · rw [if_pos hy, if_pos ⟨hk, hy⟩, Option.some_or]
      · rw [if_neg hy, if_neg fun hky => hy hky.2, Option.none_or]
    · rw [if_neg hk, if_neg fun hky => hk hky.1, Option.none_or]

/-- What a step does: it numbers the frame that it makes, and the store goes on to hold what the
history tells. -/
theorem perform (h : s.Records done) (hb : Builds s.next (step :: steps)) :
    ∃ answer t, (∀ depth, perform depth s step = some (answer, t)) ∧
      answer.frames ++ List.range' t.next (outers steps).length =
        List.range' s.next (outers (step :: steps)).length ∧
      t.Records (done ++ [step]) ∧ Builds t.next steps := by
  cases hb with
  | new hb =>
    refine ⟨_, _, fun _ => rfl, ?_, h.addFrame rfl nofun, ?_⟩
    · rw [next_addFrame]
      rfl
    · rwa [next_addFrame]
  | enclose ho hb =>
    refine ⟨_, _, fun _ => rfl, ?_, h.addFrame rfl fun o heq => Option.some.inj heq ▸ ho, ?_⟩
    · rw [next_addFrame]
      rfl
    · rwa [next_addFrame]
  | set hi hb =>
    refine ⟨_, _, fun _ => rfl, ?_, h.set hi _ _, ?_⟩
    · rw [next_set]
      rfl
    · rwa [next_set]

theorem performAll (h : s.Records done) (hb : Builds s.next steps) :
    ∃ answers t, (∀ depth, performAll depth steps s = some (answers, t)) ∧
      answers.flatMap Answer.frames = List.range' s.next (outers steps).length ∧
      t.Records (done ++ steps) := by
  induction steps generalizing s done with
  | nil => exact ⟨[], s, fun _ => rfl, rfl, by rwa [List.append_nil]⟩
  | cons step steps ih =>
    obtain ⟨answer, t, hstep, hframe, ht, hb⟩ := h.perform hb
    obtain ⟨answers, u, hrun, hframes, hu⟩ := ih ht hb
    refine ⟨answer :: answers, u, fun depth => ?_, ?_, ?_⟩
    · simp only [Session.performAll, hstep, hrun, Option.bind_eq_bind, Option.bind_some]
    · rw [List.flatMap_cons, hframes, hframe]
    · rwa [List.append_assoc] at hu

/-- A store that is built from nothing holds what its history tells. -/
theorem of_builds (h : Builds 0 steps) :
    ∃ answers s, (∀ depth, Session.performAll depth steps .empty = some (answers, s)) ∧
      answers.flatMap Answer.frames = List.range (outers steps).length ∧ s.Records steps := by
  obtain ⟨answers, s, hrun, hframes, hs⟩ := empty.performAll h
  exact ⟨answers, s, hrun, hframes.trans List.range_eq_range'.symm, hs⟩

/-! ## Lookup -/

theorem exists_chain (h : s.Records steps) (hi : i < (outers steps).length) :
    ∃ chain, Chain (outers steps) i chain := by
  induction i using Nat.strong_induction_on with
  | _ i ih =>
    have houter := List.getElem?_eq_getElem hi
    cases ho : (outers steps)[i] with
    | none => exact ⟨[i], .top (houter.trans (congrArg some ho))⟩
    | some o =>
      rw [ho] at houter
      have hlt := h.outer_lt i o houter
      obtain ⟨chain, hchain⟩ := ih o hlt (Nat.lt_trans hlt hi)
      exact ⟨i :: chain, .inside houter hchain⟩

/-- The nearest frame that binds the name decides. -/
theorem get?_eq (h : s.Records steps) (hc : Chain (outers steps) i chain) (x : String) :
    s.get? i x = chain.findSome? (latest? steps · x) := by
  induction hc with
  | @top i ho =>
    rw [← h.outer] at ho
    obtain ⟨f, hf, hout⟩ := Option.map_eq_some_iff.1 ho
    rw [get?_of_frame hf, hout, List.findSome?_singleton, ← h.bound, hf]
    exact Option.or_none
  | @inside i o chain ho _ ih =>
    have hlt := h.outer_lt i o ho
    rw [← h.outer] at ho
    obtain ⟨f, hf, hout⟩ := Option.map_eq_some_iff.1 ho
    rw [get?_of_frame hf, hout, Option.bind_some, if_pos hlt, ih, List.findSome?_cons, ← h.bound, hf,
      Option.bind_some]
    cases f.bindings.find? x <;> rfl

/-- Histories that tell the same of the frames on the chain cannot be told apart there. -/
theorem get?_congr (h : s.Records steps) {steps' : List Step} (h' : t.Records steps')
    (hc : Chain (outers steps) i chain) (houters : outers steps' = outers steps)
    (hlatest : ∀ k ∈ chain, latest? steps' k x = latest? steps k x) : t.get? i x = s.get? i x := by
  rw [h.get?_eq hc, h'.get?_eq (houters ▸ hc), ← List.head?_filterMap, ← List.head?_filterMap,
    List.filterMap_congr hlatest]

end Store.Records

/-! ## Names in expressions -/

namespace Eval

variable {i : FrameId} {x : String} {s : Store}

/-- What a name stands for: what it is bound to, or else the builtin of that name. There is a fault
if it is neither. -/
theorem ends_ident (i : FrameId) (x : String) (s : Store) (token : Token) :
    (∀ v, s.get? i x = some v → Ends i (.expr (.ident ⟨token, x⟩)) s (.ok v) s) ∧
    (s.get? i x = none → ∀ b : Builtin, b.name = x →
      Ends i (.expr (.ident ⟨token, x⟩)) s (.ok (.builtin b)) s) ∧
    (s.get? i x = none → (∀ b : Builtin, b.name ≠ x) →
      ∃ f : Fault, f.message = "identifier not found: " ++ x ∧
        Ends i (.expr (.ident ⟨token, x⟩)) s (.error (.raised f)) s) := by
  refine ⟨fun v h => ⟨1, name_of_get? h⟩, fun h b hb => ?_, fun h hx => ?_⟩
  · have hends := ends_ident_of_none h token
    rwa [Builtin.ofName?_eq_some.2 hb] at hends
  · have hends := ends_ident_of_none h token
    have hnone : Builtin.ofName? x = none :=
      Option.eq_none_iff_forall_ne_some.2 fun b hb => hx b (Builtin.ofName?_eq_some.1 hb)
    rw [hnone] at hends
    exact ⟨.unbound x, rfl, hends⟩

end Eval

namespace Session

/-- Frames are made and names are bound, in any order. Then a name stands in a frame for what the
history tells of it along the chain of that frame. So what is bound in a frame off the chain makes no
difference: it may as well not have been bound. An expression that is a name has that value, else the
builtin of that name, else it is reported. -/
theorem lookup_of_history {steps : List Step} (h : Builds 0 steps) :
    ∃ answers s, (∀ depth, performAll depth steps .empty = some (answers, s)) ∧
      answers.flatMap Answer.frames = List.range (outers steps).length ∧
      ∀ i < (outers steps).length, ∃ chain, Chain (outers steps) i chain ∧ ∀ x : String,
        (∀ v?, s.get? i x = v? ↔ Tells steps chain x v?) ∧
        (∀ o ∉ chain, ∀ before y w after, steps = before ++ .set o y w :: after →
          ∃ answers' t, (∀ depth, performAll depth (before ++ after) .empty = some (answers', t)) ∧
            t.get? i x = s.get? i x) ∧
        ∀ token,
          (∀ v, s.get? i x = some v → Ends i (.expr (.ident ⟨token, x⟩)) s (.ok v) s) ∧
          (s.get? i x = none → ∀ b : Builtin, b.name = x →
            Ends i (.expr (.ident ⟨token, x⟩)) s (.ok (.builtin b)) s) ∧
          (s.get? i x = none → (∀ b : Builtin, b.name ≠ x) →
            ∃ f : Fault, f.message = "identifier not found: " ++ x ∧
              Ends i (.expr (.ident ⟨token, x⟩)) s (.error (.raised f)) s) := by
  obtain ⟨answers, s, hrun, hframes, hs⟩ := Store.Records.of_builds h
  refine ⟨answers, s, hrun, hframes, fun i hi => ?_⟩
  obtain ⟨chain, hchain⟩ := hs.exists_chain hi
  refine ⟨chain, hchain, fun x => ⟨fun v? => ?_, ?_, ends_ident i x s⟩⟩
  · rw [tells_iff, hs.get?_eq hchain]
  · rintro o ho before y w after rfl
    obtain ⟨answers', t, hrun', -, ht⟩ := Store.Records.of_builds h.erase
    refine ⟨answers', t, hrun', hs.get?_congr ht hchain (outers_erase before o y w after).symm ?_⟩
    intro k hk
    have hne : o ≠ k := fun hok => ho (hok ▸ hk)
    exact (latest?_erase hne y).symm

/-- Frame 1 lies in frame 0, and frame 2 in no other. -/
def threeFrames : List Step := [
  .new,
  .set 0 "a" (.int (.ofCount 1)),
  .enclose 0,
  .set 1 "b" (.int (.ofCount 2)),
  .new,
  .set 2 "b" (.int (.ofCount 3)),
  .set 0 "late" (.bool true),
  .set 0 "a" (.int (.ofCount 4))]

/-- The inner frame shows what is bound outside, before it was made and after, and the last of it. The
third frame is off its chain: there `b` is bound too, and without this step `b` is still the same in
the inner frame. In the outer one it is not bound at all. -/
theorem lookup_of_history_threeFrames :
    ∃ answers s, (∀ depth, performAll depth threeFrames .empty = some (answers, s)) ∧
      s.get? 1 "late" = some (.bool true) ∧ s.get? 1 "a" = some (.int (.ofCount 4)) ∧
      s.get? 0 "b" = none ∧
      (∃ answers' t, (∀ depth, performAll depth (threeFrames.eraseIdx 5) .empty =
        some (answers', t)) ∧ t.get? 1 "b" = s.get? 1 "b") ∧
      Ends 1 (.expr (.ident ⟨.ident "len", "len"⟩)) s (.ok (.builtin .len)) s := by
  have hbuilds : Builds 0 threeFrames :=
    .new (.set (by decide) (.enclose (by decide) (.set (by decide) (.new (.set (by decide)
      (.set (by decide) (.set (by decide) .nil)))))))
  have houter : Chain (outers threeFrames) 0 [0] := .top rfl
  have hinner : Chain (outers threeFrames) 1 [1, 0] := .inside rfl houter
  obtain ⟨answers, s, hrun, -, hlookup⟩ := lookup_of_history hbuilds
  obtain ⟨chain, hchain, houtside⟩ := hlookup 0 (by decide)
  obtain ⟨chain', hchain', hinside⟩ := hlookup 1 (by decide)
  obtain rfl := hchain.unique houter
  obtain rfl := hchain'.unique hinner
  have hsplit : [1, 0] = [1] ++ 0 :: [] := rfl
  have hlate : threeFrames = threeFrames.take 6 ++ .set 0 "late" (.bool true) ::
    [.set 0 "a" (.int (.ofCount 4))] := rfl
  have ha : threeFrames = threeFrames.take 7 ++ .set 0 "a" (.int (.ofCount 4)) :: [] := rfl
  have hlen : s.get? 1 "len" = none :=
    ((hinside "len").1 none).2 (.unbound (by simp [threeFrames]))
  refine ⟨answers, s, hrun, ?_, ?_, ?_, ?_, ?_⟩
  · exact ((hinside "late").1 _).2 (.bound hsplit (by simp [threeFrames]) hlate (by simp))
  · exact ((hinside "a").1 _).2 (.bound hsplit (by simp [threeFrames]) ha (by simp))
  · exact ((houtside "b").1 none).2 (.unbound (by simp [threeFrames]))
  · exact (hinside "b").2.1 2 (by decide) (threeFrames.take 5) "b" _ (threeFrames.drop 6) rfl
  · exact ((hinside "len").2.2 _).2.1 hlen .len rfl

end Session
end Monkey
