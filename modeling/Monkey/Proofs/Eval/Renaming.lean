import Monkey.Proofs.Eval.Simulation

/-! # Renaming frames and functions

Which number a frame or a function gets depends on how many there were before it. A `Renaming` says
which frames and functions of a store belong to which ones of another store. The same program, run in
frames that belong together, does the same in both stores, and what it adds to them belongs together
again: `Simulation.renaming`.

The first store may have frames that belong to none of the second. Those called `foreign` are to
stay so.
-/

namespace Monkey

/-- Two more numbers belong together. -/
def Extended (O : Nat → Nat → Prop) (m n : Nat) (i j : Nat) : Prop := O i j ∨ i = m ∧ j = n

/-- Numbers that are larger than all others may be added to those that belong together. -/
theorem OrderPreserving.extended {O : Nat → Nat → Prop} {m n : Nat} (h : OrderPreserving O)
    (hlt : ∀ i j, O i j → i < m ∧ j < n) : OrderPreserving (Extended O m n) := by
  rintro i j k l (hij | ⟨rfl, rfl⟩) (hkl | ⟨rfl, rfl⟩)
  · exact h i j k l hij hkl
  · exact iff_of_true (hlt i j hij).1 (hlt i j hij).2
  · exact iff_of_false (Nat.lt_asymm (hlt k l hkl).1) (Nat.lt_asymm (hlt k l hkl).2)
  · exact iff_of_false (Nat.lt_irrefl k) (Nat.lt_irrefl l)

/-- The frames and functions of two stores that belong together. Each belongs to one other at most,
and older ones belong to older ones. -/
structure Renaming where
  frames : FrameId → FrameId → Prop
  functions : Nat → Nat → Prop
  frames_ordered : OrderPreserving frames
  functions_ordered : OrderPreserving functions

namespace Renaming

variable {w w' : Renaming}

/-- The same function but for its number and that of its frame. -/
structure Closures (w : Renaming) (f g : Closure) : Prop where
  id : w.functions f.id g.id
  params : f.params = g.params
  body : f.body = g.body
  scope : w.frames f.scope g.scope

theorem Closures.inspect_eq {f g : Closure} (h : w.Closures f g) : f.inspect = g.inspect := by
  rw [Closure.inspect, Closure.inspect, h.params, h.body]

/-- The same value but for the numbers of functions and of their frames. -/
abbrev values (w : Renaming) : Value → Value → Prop := Value.Related w.Closures True

theorem values_inspect_eq {v v' : Value} (h : w.values v v') : v.inspect = v'.inspect :=
  h.inspect_eq fun _ _ => Closures.inspect_eq

/-- A value without functions in it has no numbers to rename. -/
theorem values_self {v : Value} (h : ∀ f, ¬Value.Within (.function f) v) : w.values v v := by
  have hself : Value.Related (fun f g => f = g ∧ False) True v v :=
    Value.related_self_iff.2 ⟨rfl, h, fun _ _ => trivial⟩
  exact hself.mono (fun _ _ hfg => hfg.2.elim) id

/-- What belongs together by `w` does so by `w'`. -/
structure Later (w w' : Renaming) : Prop where
  frames : ∀ i j, w.frames i j → w'.frames i j
  functions : ∀ i j, w.functions i j → w'.functions i j

namespace Later

theorem refl (w : Renaming) : w.Later w := ⟨fun _ _ h => h, fun _ _ h => h⟩

theorem trans {w'' : Renaming} (h : w.Later w') (h' : w'.Later w'') : w.Later w'' :=
  ⟨fun i j hij => h'.frames i j (h.frames i j hij),
    fun i j hij => h'.functions i j (h.functions i j hij)⟩

theorem closures (h : w.Later w') {f g : Closure} (hfg : w.Closures f g) : w'.Closures f g :=
  ⟨h.functions _ _ hfg.id, hfg.params, hfg.body, h.frames _ _ hfg.scope⟩

theorem values (h : w.Later w') {v v' : Value} (hv : w.values v v') : w'.values v v' :=
  hv.mono (fun _ _ => h.closures) id

end Later

/-! ## Stores -/

/-- The stores are the same where they belong together. -/
structure Stores (w : Renaming) (foreign : FrameId → Prop) (s t : Store) : Prop where
  related : s.Related w.frames w.values t
  frames_lt : ∀ i j, w.frames i j → i < s.next ∧ j < t.next
  functions_lt : ∀ i j, w.functions i j → i < s.functions ∧ j < t.functions
  foreign_lt : ∀ i, foreign i → i < s.next
  foreign_apart : ∀ i j, foreign i → ¬w.frames i j

namespace Stores

variable {foreign foreign' : FrameId → Prop} {s s' t : Store}

theorem get? (hs : w.Stores foreign s t) {i j : FrameId} (hij : w.frames i j) (x : String) :
    Option.Rel w.values (s.get? i x) (t.get? j x) :=
  hs.related.get? w.frames_ordered hij x

theorem set (hs : w.Stores foreign s t) {i j : FrameId} (hij : w.frames i j) (x : String)
    {v v' : Value} (hv : w.values v v') : w.Stores foreign (s.set i x v) (t.set j x v') where
  related := hs.related.set w.frames_ordered hij x hv
  frames_lt := by
    rw [Store.next_set, Store.next_set]
    exact hs.frames_lt
  functions_lt := hs.functions_lt
  foreign_lt := by
    rw [Store.next_set]
    exact hs.foreign_lt
  foreign_apart := hs.foreign_apart

/-- New functions belong together. -/
theorem makeFunction (hs : w.Stores foreign s t) :
    ∃ w', w.Later w' ∧ w'.functions s.functions t.functions ∧
      w'.Stores foreign { s with functions := s.functions + 1 }
        { t with functions := t.functions + 1 } := by
  let w' : Renaming :=
    { w with
      functions := Extended w.functions s.functions t.functions
      functions_ordered := w.functions_ordered.extended hs.functions_lt }
  have hlater : w.Later w' := ⟨fun _ _ h => h, fun _ _ h => .inl h⟩
  refine ⟨w', hlater, .inr ⟨rfl, rfl⟩, hs.related.mono fun _ _ => hlater.values, hs.frames_lt, ?_,
    hs.foreign_lt, hs.foreign_apart⟩
  rintro i j (hij | ⟨rfl, rfl⟩)
  · obtain ⟨hi, hj⟩ := hs.functions_lt i j hij
    exact ⟨Nat.lt_succ_of_lt hi, Nat.lt_succ_of_lt hj⟩
  · exact ⟨Nat.lt_succ_self _, Nat.lt_succ_self _⟩

/-- New frames belong together. -/
theorem addFrame (hs : w.Stores foreign s t) {f g : Frame} (hfg : f.Related w.frames w.values g) :
    ∃ w', w.Later w' ∧ w'.frames s.next t.next ∧
      w'.Stores foreign (s.addFrame f) (t.addFrame g) := by
  let w' : Renaming :=
    { w with
      frames := Extended w.frames s.next t.next
      frames_ordered := w.frames_ordered.extended hs.frames_lt }
  have hlater : w.Later w' := ⟨fun _ _ h => .inl h, fun _ _ h => h⟩
  refine ⟨w', hlater, .inr ⟨rfl, rfl⟩, ?_, ?_, hs.functions_lt, ?_, ?_⟩
  · refine hs.related.addFrame ?_ hlater.frames (fun _ _ => hlater.values)
      (hfg.mono hlater.frames fun _ _ => hlater.values)
    rintro k l (hkl | hnew)
    · obtain ⟨hk, hl⟩ := hs.frames_lt k l hkl
      exact .inr ⟨Nat.ne_of_lt hk, Nat.ne_of_lt hl, hkl⟩
    · exact .inl hnew
  · rw [Store.next_addFrame, Store.next_addFrame]
    rintro i j (hij | ⟨rfl, rfl⟩)
    · obtain ⟨hi, hj⟩ := hs.frames_lt i j hij
      exact ⟨Nat.lt_succ_of_lt hi, Nat.lt_succ_of_lt hj⟩
    · exact ⟨Nat.lt_succ_self _, Nat.lt_succ_self _⟩
  · intro i hi
    rw [Store.next_addFrame]
    exact Nat.lt_succ_of_lt (hs.foreign_lt i hi)
  · rintro i j hi (hij | ⟨rfl, rfl⟩)
    · exact hs.foreign_apart i j hi hij
    · exact Nat.lt_irrefl _ (hs.foreign_lt _ hi)

end Stores
end Renaming

/-! ## The simulation -/

/-- The same program in two stores that are the same where they belong together. -/
def Simulation.renaming (foreign : FrameId → Prop) : Simulation where
  World := Renaming
  Later := Renaming.Later
  functions := Renaming.Closures
  errors := True
  frames := Renaming.frames
  stores w s t := w.Stores foreign s t ∧ s.output = t.output
  exprs := Eq
  stmts := Eq
  refl := Renaming.Later.refl
  trans := Renaming.Later.trans
  functions_later h := h.closures
  frames_later h := h.frames _ _
  expr_matches := @Expr.matches_of_eq
  stmt_matches := @Stmt.matches_of_eq
  id_iff {w} _ _ _ _ h h' := w.functions_ordered.eq_iff h.id h'.id
  inspect_eq := Renaming.Closures.inspect_eq
  params h := by rw [h.params]
  body h := by
    rw [h.body]
    exact List.forall₂_same.2 fun _ _ => rfl
  get? := by
    rintro w s t i j x _ ⟨hs, -⟩ hij ⟨⟩
    exact hs.get? hij x.name
  set := by
    rintro w s t i j x v v' ⟨hs, hout⟩ hij hv
    exact ⟨hs.set hij x hv, hout⟩
  print := by
    rintro w s t text ⟨hs, hout⟩
    exact ⟨⟨hs.related, hs.frames_lt, hs.functions_lt, hs.foreign_lt, hs.foreign_apart⟩,
      congrArg (· ++ text) hout⟩
  makeFunction := by
    rintro w s t i j a b xs ys c d ⟨hs, hout⟩ hij ⟨⟩
    obtain ⟨w', hw, hnew, hs'⟩ := hs.makeFunction
    exact ⟨w', hw, ⟨hnew, rfl, rfl, hw.frames _ _ hij⟩, hs', hout⟩
  addFrame := by
    rintro w s t f g vs vs' ⟨hs, hout⟩ hfg hvs
    rw [hfg.params]
    obtain ⟨w', hw, hnew, hs'⟩ := hs.addFrame (.ofCall hfg.scope _ hvs)
    exact ⟨w', hw, hnew, hs', hout⟩

end Monkey
