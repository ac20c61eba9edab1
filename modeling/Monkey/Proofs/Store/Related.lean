import Monkey.Proofs.Value.Related
import Monkey.Store

/-! # Stores with related frames

Two stores are compared frame by frame. `O` says which frame of the one store belongs to which frame
of the other, and `V` which values may be bound to the same name in frames that belong together. How
a frame came to its bindings does not matter, nor do frames that belong to no other.

A name is looked up in the same frames in both stores as long as frames that belong together come in
the same order (`OrderPreserving`), since a frame is never looked into from an older one.
-/

namespace Monkey

variable {O O' : FrameId → FrameId → Prop} {V V' : Value → Value → Prop}

/-- Of frames that belong together, the same ones are older. -/
def OrderPreserving (O : FrameId → FrameId → Prop) : Prop :=
  ∀ i j k l, O i j → O k l → (i < k ↔ j < l)

theorem OrderPreserving.eq_iff (h : OrderPreserving O) {i j k l : Nat} (hij : O i j)
    (hkl : O k l) : i = k ↔ j = l := by
  have hlt : i < k ↔ j < l := h i j k l hij hkl
  have hgt : k < i ↔ l < j := h k l i j hkl hij
  omega

theorem orderPreserving_eq : OrderPreserving Eq := by
  rintro i _ k _ rfl rfl
  exact Iff.rfl

section Options

variable {α β γ δ : Type} {R R' : α → β → Prop} {S : γ → δ → Prop} {a? c? : Option α}
  {b? d? : Option β}

theorem rel_eq_none_iff (h : Option.Rel R a? b?) : a? = none ↔ b? = none := by
  cases h with
  | some _ => exact ⟨nofun, nofun⟩
  | none => exact ⟨fun _ => rfl, fun _ => rfl⟩

theorem exists_of_rel {a : α} (h : Option.Rel R a? b?) (ha : a? = some a) :
    ∃ b, b? = some b ∧ R a b := by
  cases h with
  | some h =>
    cases ha
    exact ⟨_, rfl, h⟩
  | none => cases ha

/-- Both are there or neither is, and if they are, they are related. -/
theorem rel_iff : Option.Rel R a? b? ↔
    (a? = none ↔ b? = none) ∧ ∀ a b, a? = some a → b? = some b → R a b := by
  constructor
  · intro h
    refine ⟨rel_eq_none_iff h, ?_⟩
    rintro a b rfl rfl
    cases h with
    | some h => exact h
  · rintro ⟨hnone, hsome⟩
    cases a? with
    | none =>
      rw [hnone.1 rfl]
      exact .none
    | some a =>
      cases b? with
      | none => cases hnone.2 rfl
      | some b => exact .some (hsome a b rfl rfl)

theorem rel_imp (h : Option.Rel R a? b?) (hR : ∀ a b, R a b → R' a b) : Option.Rel R' a? b? := by
  cases h with
  | some h => exact .some (hR _ _ h)
  | none => exact .none

theorem rel_or (h : Option.Rel R a? b?) (h' : Option.Rel R c? d?) :
    Option.Rel R (a?.or c?) (b?.or d?) := by
  cases h with
  | some h => exact .some h
  | none => exact h'

theorem rel_bind (h : Option.Rel R a? b?) {f : α → Option γ} {g : β → Option δ}
    (hfg : ∀ a b, R a b → Option.Rel S (f a) (g b)) : Option.Rel S (a?.bind f) (b?.bind g) := by
  cases h with
  | some h => exact hfg _ _ h
  | none => exact .none

end Options

/-! ## Frames -/

namespace Frame

/-- The frames lie in frames that belong together, and bind the same names to related values. -/
structure Related (O : FrameId → FrameId → Prop) (V : Value → Value → Prop) (f g : Frame) :
    Prop where
  outer : Option.Rel O f.outer g.outer
  bound : ∀ x, Option.Rel V (f.bindings.find? x) (g.bindings.find? x)

namespace Related

variable {f g : Frame}

theorem mono (h : Related O V f g) (hO : ∀ i j, O i j → O' i j) (hV : ∀ v w, V v w → V' v w) :
    Related O' V' f g where
  outer := rel_imp h.outer hO
  bound x := rel_imp (h.bound x) hV

theorem empty {i? j? : Option FrameId} (h : Option.Rel O i? j?) :
    Related O V (.empty i?) (.empty j?) where
  outer := h
  bound _ := .none

theorem set (h : Related O V f g) (x : String) {v w : Value} (hvw : V v w) :
    Related O V (f.set x v) (g.set x w) where
  outer := h.outer
  bound y := by
    rw [Frame.set, Frame.set, Bindings.find?_set, Bindings.find?_set]
    split
    · exact .some hvw
    · exact h.bound y

/-- Calls with related arguments start in related frames. -/
theorem ofCall {i j : FrameId} (hij : O i j) (xs : List String) {vs ws : List Value}
    (h : List.Forall₂ V vs ws) : Related O V (.ofCall i xs vs) (.ofCall j xs ws) := by
  have hfold (f g : Frame) (hfg : Related O V f g) :
      Related O V ((xs.zip vs).foldl (fun f p => f.set p.1 p.2) f)
        ((xs.zip ws).foldl (fun f p => f.set p.1 p.2) g) := by
    induction h generalizing xs f g with
    | nil =>
      rw [List.zip_nil_right]
      exact hfg
    | cons hvw _ ih =>
      cases xs with
      | nil => exact hfg
      | cons x xs => exact ih xs _ _ (hfg.set x hvw)
  exact hfold _ _ (.empty (.some hij))

end Related
end Frame

/-! ## Stores -/

namespace Store

variable {s t : Store} {i j : FrameId}

theorem getElem?_set (s : Store) (i k : FrameId) (x : String) (v : Value) :
    (s.set i x v).frames[k]? =
      if i = k then s.frames[k]?.map (Frame.set x v) else s.frames[k]? :=
  Array.getElem?_modify

theorem getElem?_addFrame (s : Store) (f : Frame) (k : FrameId) :
    (s.addFrame f).frames[k]? = if k = s.next then some f else s.frames[k]? :=
  Array.getElem?_push

@[simp] theorem next_set (s : Store) (i : FrameId) (x : String) (v : Value) :
    (s.set i x v).next = s.next := Array.size_modify

@[simp] theorem next_addFrame (s : Store) (f : Frame) : (s.addFrame f).next = s.next + 1 :=
  Array.size_push f

/-- Frames that belong together are related, or there are no such frames in either store. -/
def Related (O : FrameId → FrameId → Prop) (V : Value → Value → Prop) (s t : Store) : Prop :=
  ∀ i j, O i j → Option.Rel (Frame.Related O V) s.frames[i]? t.frames[j]?

theorem next_eq_of_iff (h : ∀ k : FrameId, s.frames[k]? = none ↔ t.frames[k]? = none) :
    s.next = t.next := by
  have hnone (k : Nat) : s.frames.size ≤ k ↔ t.frames.size ≤ k := by
    rw [← Array.getElem?_eq_none_iff, ← Array.getElem?_eq_none_iff]
    exact h k
  exact Nat.le_antisymm ((hnone _).2 (Nat.le_refl _)) ((hnone _).1 (Nat.le_refl _))

/-- Stores in which each frame belongs to the one with the same number have equally many frames. -/
theorem Related.next_eq (h : Related Eq V s t) : s.next = t.next :=
  next_eq_of_iff fun k => rel_eq_none_iff (h k k rfl)

/-- A name stands for related values in frames that belong together. -/
theorem Related.get? (hO : OrderPreserving O) (h : Related O V s t) (hij : O i j) (x : String) :
    Option.Rel V (s.get? i x) (t.get? j x) := by
  -- From a frame, the search goes on in an older one, which has a smaller number.
  induction i using Nat.strongRecOn generalizing j with
  | ind i ih =>
    have hfg := h i j hij
    rcases hs : s.frames[i]? with _ | f
    · rcases ht : t.frames[j]? with _ | g
      · rw [Store.get?, Store.get?, hs, ht]
        exact .none
      · rw [hs, ht] at hfg
        cases hfg
    · rcases ht : t.frames[j]? with _ | g
      · rw [hs, ht] at hfg
        cases hfg
      · rw [hs, ht] at hfg
        cases hfg with
        | some hfg =>
          rw [get?_of_frame hs, get?_of_frame ht]
          refine rel_or (hfg.bound x) (rel_bind hfg.outer fun o p hop => ?_)
          by_cases hlt : o < i
          · rw [if_pos hlt, if_pos ((hO o p i j hop hij).1 hlt)]
            exact ih o hlt hop
          · rw [if_neg hlt, if_neg (mt (hO o p i j hop hij).2 hlt)]
            exact .none

theorem Related.mono (h : Related O V s t) (hV : ∀ v w, V v w → V' v w) : Related O V' s t :=
  fun i j hij => rel_imp (h i j hij) fun _ _ hfg => hfg.mono (fun _ _ hkl => hkl) hV

/-- A name is bound in frames that belong together, and in no others. -/
theorem Related.set (hO : OrderPreserving O) (h : Related O V s t) (hij : O i j) (x : String)
    {v w : Value} (hvw : V v w) : Related O V (s.set i x v) (t.set j x w) := by
  intro k l hkl
  rw [getElem?_set, getElem?_set, if_congr (hO.eq_iff hij hkl) rfl rfl]
  by_cases hjl : j = l
  · rw [if_pos hjl, if_pos hjl]
    exact rel_map (h k l hkl) fun _ _ hfg => hfg.set x hvw
  · rw [if_neg hjl, if_neg hjl]
    exact h k l hkl

/-- New frames may belong together. -/
theorem Related.addFrame (h : Related O V s t)
    (hnext : ∀ k l, O' k l → k = s.next ∧ l = t.next ∨ k ≠ s.next ∧ l ≠ t.next ∧ O k l)
    (hO : ∀ k l, O k l → O' k l) (hV : ∀ v w, V v w → V' v w)
    {f g : Frame} (hfg : f.Related O' V' g) :
    Related O' V' (s.addFrame f) (t.addFrame g) := by
  intro k l hkl
  rw [getElem?_addFrame, getElem?_addFrame]
  rcases hnext k l hkl with ⟨hk, hl⟩ | ⟨hk, hl, hkl⟩
  · rw [if_pos hk, if_pos hl]
    exact .some hfg
  · rw [if_neg hk, if_neg hl]
    exact rel_imp (h k l hkl) fun _ _ hfg => hfg.mono hO hV

end Store
end Monkey
