import Monkey.Proofs.Eval.Simulation

/-! # Invariants of values

A run takes values out of the store, puts them together and apart, calls them and binds them again.
An `Invariant` says what functions are contained in these values at any depth, and whether there are
errors. If it holds of all that is bound when a program is started, it holds of all that is bound
when the program has ended, however it ended, and of its value: `Invariant.of_program`.

This is the simulation of a run by itself, in which values are related to themselves if they satisfy
the invariant. It also counts the functions that are made, of which none is ever forgotten.
-/

namespace Monkey

/-! ## What is bound -/

namespace Store

/-- The values that are bound in the frames of the store all have the property. -/
def Forall (P : Value → Prop) (s : Store) : Prop :=
  ∀ (i : FrameId) (f : Frame) (x : String) (v : Value),
    s.frames[i]? = some f → f.bindings.find? x = some v → P v

variable {P : Value → Prop} {s : Store} {i : FrameId} {x : String} {v : Value}

theorem forall_empty (P : Value → Prop) : Store.empty.Forall P := by
  intro i f x v hf
  cases hf

/-- All that is bound has a property exactly if the store is related to itself by it. -/
theorem related_eq_iff {V : Value → Value → Prop} (hV : ∀ v w, V v w ↔ v = w ∧ P v) (s : Store) :
    s.Related Eq V s ↔ s.Forall P := by
  constructor
  · intro h i f x v hf hv
    obtain ⟨g, -, hfg⟩ := exists_of_rel (h i i rfl) hf
    obtain ⟨w, -, hvw⟩ := exists_of_rel (hfg.bound x) hv
    exact ((hV v w).1 hvw).2
  · rintro h i _ rfl
    rcases hf : s.frames[i]? with _ | f
    · exact .none
    · refine .some ⟨?_, fun x => ?_⟩
      · cases f.outer with
        | none => exact .none
        | some o => exact .some rfl
      · rcases hv : f.bindings.find? x with _ | v
        · exact .none
        · exact .some ((hV v v).2 ⟨rfl, h i f x v hf hv⟩)

namespace Forall

/-- What a name stands for is bound somewhere. -/
theorem get? (h : s.Forall P) (hv : s.get? i x = some v) : P v := by
  have hrel := ((related_eq_iff (fun _ _ => Iff.rfl) s).2 h).get? orderPreserving_eq
    (rfl : i = i) x
  obtain ⟨w, -, -, hv⟩ := exists_of_rel hrel hv
  exact hv

theorem mono {Q : Value → Prop} (h : s.Forall P) (hPQ : ∀ v, P v → Q v) : s.Forall Q :=
  fun i f x v hf hv => hPQ v (h i f x v hf hv)

theorem addFrame (h : s.Forall P) {f : Frame} (hf : ∀ x v, f.bindings.find? x = some v → P v) :
    (s.addFrame f).Forall P := by
  intro k g x v hg hv
  rw [getElem?_addFrame] at hg
  split at hg
  · cases hg
    exact hf x v hv
  · exact h k g x v hg hv

theorem addFrame_empty (h : s.Forall P) (o? : Option FrameId) :
    (s.addFrame (.empty o?)).Forall P :=
  h.addFrame nofun

theorem set (h : s.Forall P) (hv : P v) : (s.set i x v).Forall P := by
  intro k f y u hf hu
  rw [getElem?_set] at hf
  split at hf
  · obtain ⟨g, hg, rfl⟩ := Option.map_eq_some_iff.1 hf
    rw [Frame.set, Bindings.find?_set] at hu
    split at hu
    · cases hu
      exact hv
    · exact h k g y u hg hu
  · exact h k f y u hf hu

end Forall
end Store

/-! ## Invariants -/

structure Invariant where
  /-- The functions that there may be. -/
  functions : Closure → Prop
  /-- Whether there may be errors. -/
  errors : Prop
  /-- The expressions that may be evaluated. -/
  exprs : Expr → Prop
  stmts : Stmt → Prop
  expr_matches : ∀ {e}, exprs e →
    Expr.Matches (fun d e => d = e ∧ exprs d) (fun c d => c = d ∧ stmts c) e e
  stmt_matches : ∀ {c}, stmts c →
    Stmt.Matches (fun d e => d = e ∧ exprs d) (fun c d => c = d ∧ stmts c) c c
  body : ∀ {f}, functions f → ∀ c ∈ f.body.statements, stmts c
  made : ∀ {t xs b}, exprs (.fn t xs b) → ∀ id scope, functions ⟨id, xs, b, scope⟩

namespace Invariant

open Eval Value

variable (I : Invariant)

/-- What is contained in the value is allowed to be there. -/
def Holds (v : Value) : Prop :=
  (∀ f, Within (.function f) v → I.functions f) ∧ ∀ m, Within (.error m) v → I.errors

/-- Values that satisfy the invariant are related to themselves, and to nothing else. -/
abbrev values : Value → Value → Prop := Related (fun f g => f = g ∧ I.functions f) I.errors

theorem related_iff_forall (s : Store) : s.Related Eq I.values s ↔ s.Forall I.Holds :=
  Store.related_eq_iff (fun _ _ => related_self_iff) s

theorem eq_of_forall₂_values {vs ws : List Value} (h : List.Forall₂ I.values vs ws) : vs = ws := by
  rw [← List.forall₂_eq_eq_eq]
  exact h.imp fun _ _ hv => (related_self_iff.1 hv).1

/-- The simulation of a run by itself. Its worlds are the numbers of functions that have been
made. -/
def simulation : Simulation where
  World := Nat
  Later m n := m ≤ n
  functions _ f g := f = g ∧ I.functions f
  errors := I.errors
  frames _ := Eq
  stores n s t := s.functions = n ∧ s = t ∧ s.Related Eq I.values s
  exprs d e := d = e ∧ I.exprs d
  stmts c d := c = d ∧ I.stmts c
  refl n := Nat.le_refl n
  trans := Nat.le_trans
  functions_later _ h := h
  frames_later _ h := h
  expr_matches := by
    rintro d _ ⟨rfl, hd⟩
    exact I.expr_matches hd
  stmt_matches := by
    rintro c _ ⟨rfl, hc⟩
    exact I.stmt_matches hc
  id_iff := by
    rintro _ f _ g _ ⟨rfl, -⟩ ⟨rfl, -⟩
    exact Iff.rfl
  inspect_eq := by
    rintro _ f _ ⟨rfl, -⟩
    rfl
  params := by
    rintro _ f _ ⟨rfl, -⟩
    rfl
  body := by
    rintro _ f _ ⟨rfl, hf⟩
    exact List.forall₂_same.2 fun c hc => ⟨rfl, I.body hf c hc⟩
  get? := by
    rintro _ s _ i _ x y ⟨-, rfl, hs⟩ rfl ⟨hxy, -⟩
    cases hxy
    exact hs.get? orderPreserving_eq rfl x.name
  set := by
    rintro n s _ i _ x v v' ⟨hn, rfl, hs⟩ rfl hv
    obtain ⟨rfl, -⟩ := related_self_iff.1 hv
    exact ⟨hn, rfl, hs.set orderPreserving_eq rfl x hv⟩
  print := by
    rintro n s _ text ⟨hn, rfl, hs⟩
    exact ⟨hn, rfl, hs⟩
  makeFunction := by
    rintro n s _ i _ a b xs ys c d ⟨rfl, rfl, hs⟩ rfl ⟨hcd, hc⟩
    cases hcd
    exact ⟨s.functions + 1, Nat.le_succ _, ⟨rfl, I.made hc _ _⟩, rfl, rfl, hs⟩
  addFrame := by
    rintro n s _ f _ vs vs' ⟨hn, rfl, hs⟩ ⟨rfl, -⟩ hvs
    obtain rfl := I.eq_of_forall₂_values hvs
    have hframe := Frame.Related.ofCall (O := Eq) (rfl : f.scope = f.scope)
      (f.params.map Ident.name) hvs
    refine ⟨n, Nat.le_refl n, rfl, hn, rfl, hs.addFrame ?_ (fun _ _ h => h) (fun _ _ h => h) hframe⟩
    rintro k _ rfl
    by_cases hk : k = s.next
    · exact .inl ⟨hk, hk⟩
    · exact .inr ⟨hk, hk, rfl⟩

variable {I}

/-- What holds before a program is run holds after it. -/
theorem of_program {depth : Nat} {i : FrameId} {p : Program} {s t : Store}
    {r : Except Signal Value} (hs : s.Forall I.Holds) (hp : ∀ c ∈ p.statements, I.stmts c)
    (h : program depth i p s = some (r, t)) :
    s.functions ≤ t.functions ∧ t.Forall I.Holds ∧
      ∀ v, r = .ok v ∨ r = .error (.returned v) → I.Holds v := by
  have hsim := I.simulation.similar_program depth (i := i) (j := i) rfl
    (List.forall₂_same.2 fun c hc => ⟨rfl, hp c hc⟩) s s ⟨rfl, rfl, (I.related_iff_forall s).2 hs⟩
  rw [h] at hsim
  cases hsim with
  | ended hn ht hr =>
    obtain ⟨rfl, -, ht⟩ := ht
    refine ⟨hn, (I.related_iff_forall t).1 ht, ?_⟩
    rintro v (rfl | rfl)
    · cases hr with
      | ok hv => exact (related_self_iff.1 hv).2
    · cases hr with
      | returned hv => exact (related_self_iff.1 hv).2

/-- Errors are allowed or not, and nothing else matters. -/
def ofErrors (E : Prop) : Invariant where
  functions _ := True
  errors := E
  exprs _ := True
  stmts _ := True
  expr_matches _ := Expr.matches_self (fun _ => ⟨rfl, trivial⟩) (fun _ => ⟨rfl, trivial⟩) _
  stmt_matches _ := Stmt.matches_self (fun _ => ⟨rfl, trivial⟩) (fun _ => ⟨rfl, trivial⟩) _
  body _ _ _ := trivial
  made _ _ _ := trivial

end Invariant

/-- A program does not forget any function that has been made. -/
theorem Eval.functions_le_of_program {depth : Nat} {i : FrameId} {p : Program} {s t : Store}
    {r : Except Signal Value} (h : program depth i p s = some (r, t)) :
    s.functions ≤ t.functions :=
  (Invariant.of_program (I := .ofErrors True)
    (fun _ _ _ _ _ _ => ⟨fun _ _ => trivial, fun _ _ => trivial⟩) (fun _ _ => trivial) h).1

end Monkey
