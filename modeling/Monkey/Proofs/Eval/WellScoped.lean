import Monkey.Proofs.Eval.Inside
import Monkey.Proofs.Store.WellScoped

/-! # Evaluations leave nothing without its frame

An evaluation in a store that is `Store.WellScoped` leaves one behind, and what it comes to, by a
normal end or by a `return`, holds no function without its frame. This is the simulation of a run by
itself whose worlds are the numbers of frames: there are never fewer of them.

The same is true all through the evaluation. If all is well at the point where an evaluation begins,
then it is at every point that is entered from there: `Eval.Point.WellScoped.enters`.
-/

namespace Monkey

open Eval Relation

/-! ## A run beside itself -/

namespace Simulation

/-- Functions and frames are related to themselves if they lie in the frames that there are. -/
def scoping : Simulation where
  World := Nat
  Later m n := m ≤ n
  functions n f g := f = g ∧ f.scope < n
  errors := True
  frames n i j := i = j ∧ i < n
  stores n s t := s = t ∧ s.next = n ∧ s.WellScoped
  exprs := Eq
  stmts := Eq
  refl n := Nat.le_refl n
  trans := Nat.le_trans
  functions_later hw h := ⟨h.1, Nat.lt_of_lt_of_le h.2 hw⟩
  frames_later hw h := ⟨h.1, Nat.lt_of_lt_of_le h.2 hw⟩
  expr_matches := @Expr.matches_of_eq
  stmt_matches := @Stmt.matches_of_eq
  id_iff := by
    rintro _ f _ g _ ⟨rfl, -⟩ ⟨rfl, -⟩
    exact Iff.rfl
  inspect_eq := by
    rintro _ f _ ⟨rfl, -⟩
    rfl
  params := by
    rintro _ f _ ⟨rfl, -⟩
    rfl
  body := by
    rintro _ f _ ⟨rfl, -⟩
    exact List.forall₂_same.2 fun _ _ => rfl
  get? := by
    rintro _ s _ i _ x y ⟨rfl, rfl, hs⟩ ⟨rfl, -⟩ hxy
    cases hxy
    rcases hv : s.get? i x.name with _ | v
    · exact .none
    · have hscoped : v.ScopedIn s.next := hs.bound.get? hv
      exact .some (Value.related_self_iff.2 ⟨rfl, hscoped, fun _ _ => trivial⟩)
  set := by
    rintro _ s _ i _ x v v' ⟨rfl, rfl, hs⟩ ⟨rfl, -⟩ hv
    obtain ⟨rfl, hscoped, -⟩ := Value.related_self_iff.1 hv
    exact ⟨rfl, Store.next_set s i x v, hs.set hscoped⟩
  print := by
    rintro _ s _ text ⟨rfl, rfl, hs⟩
    exact ⟨rfl, rfl, hs.of_frames_eq rfl⟩
  makeFunction := by
    rintro _ s _ i _ a b xs ys c d ⟨rfl, rfl, hs⟩ ⟨rfl, hi⟩ hcd
    cases hcd
    exact ⟨s.next, Nat.le_refl _, ⟨rfl, hi⟩, rfl, rfl, hs.of_frames_eq rfl⟩
  addFrame := by
    rintro _ s _ f _ vs vs' ⟨rfl, rfl, hs⟩ ⟨rfl, hf⟩ hvs
    have hself : List.Forall₂ (fun v w => v.ScopedIn s.next ∧ v = w) vs vs' := by
      refine hvs.imp fun v w hvw => ?_
      obtain ⟨hvw, hv, -⟩ := Value.related_self_iff.1 hvw
      exact ⟨hv, hvw⟩
    obtain ⟨hscoped, heq⟩ := (List.forall₂_and_left vs vs').1 hself
    rw [List.forall₂_eq_eq_eq] at heq
    subst heq
    refine ⟨s.next + 1, Nat.le_succ _, ⟨rfl, Nat.lt_succ_self _⟩, rfl, Store.next_addFrame _ _, ?_⟩
    exact hs.addFrame_ofCall hf _ hscoped

theorem values_scoping_iff {n : Nat} {v w : Value} :
    scoping.values n v w ↔ v = w ∧ v.ScopedIn n := by
  refine Value.related_self_iff.trans (and_congr_right fun _ => ?_)
  exact ⟨And.left, fun h => ⟨h, fun _ _ => trivial⟩⟩

/-- What is similar to itself leaves all in order, however it ends. -/
theorem Similar.wellScoped {x : Eval Value} {s t : Store} {r : Except Signal Value}
    (h : scoping.Similar s.next scoping.values x x) (hs : s.WellScoped) (hx : x s = some (r, t)) :
    s.next ≤ t.next ∧ t.WellScoped ∧
      ∀ v, r = .ok v ∨ r = .error (.returned v) → v.ScopedIn t.next := by
  have hsim := h s s ⟨rfl, rfl, hs⟩
  rw [hx] at hsim
  cases hsim with
  | ended hw ht hr =>
    obtain ⟨-, rfl, ht⟩ := ht
    refine ⟨hw, ht, ?_⟩
    rintro v (rfl | rfl)
    · cases hr with
      | ok hv => exact (values_scoping_iff.1 hv).2
    · cases hr with
      | returned hv => exact (values_scoping_iff.1 hv).2

end Simulation

/-! ## Points -/

namespace Eval

/-- A call is to be made with values from the first `n` frames. The parts of a program hold no
values. -/
def Job.ScopedIn (n : Nat) : Job → Prop
  | .call callee args => callee.ScopedIn n ∧ ∀ v ∈ args, v.ScopedIn n
  | _ => True

namespace Point

structure WellScoped (a : Point) : Prop where
  store : a.store.WellScoped
  scope : a.scope < a.store.next
  job : a.job.ScopedIn a.store.next

variable {a b : Point} {n : Nat} {i : FrameId} {s t : Store} {job : Job}
  {r : Except Signal Value}

/-- The arguments of a call are evaluated as the elements of an array are. -/
theorem run_array {es : List Expr} {vs : List Value}
    (h : es.mapM (expr n i) s = some (.ok vs, t)) (token : Token) :
    Point.run ⟨n + 1, i, .expr (.array token es), s⟩ = some (.ok (.array vs), t) :=
  bind_of_ok h

theorem run_hash {ps : List (Expr × Expr)} {table : Table (Entry Value)}
    (h : ps.foldlM (addPair (expr n i)) [] s = some (.ok table, t)) (token : Token) :
    Point.run ⟨n + 1, i, .expr (.hash token ps), s⟩ = some (.ok (.hash table), t) :=
  bind_of_ok h

namespace WellScoped

theorem similar (ha : a.WellScoped) :
    Simulation.scoping.Similar a.store.next Simulation.scoping.values a.eval a.eval := by
  obtain ⟨n, i, job, s⟩ := a
  have hi : Simulation.scoping.frames s.next i i := ⟨rfl, ha.scope⟩
  have hn := Simulation.scoping.similarWithin n
  cases job with
  | expr e => exact hn.expr s.next i i e e hi rfl
  | stmt c => exact hn.stmt s.next i i c c hi rfl
  | block ss => exact hn.sequence hi (List.forall₂_same.2 fun _ _ => rfl)
  | call callee args =>
    obtain ⟨hcallee, hargs⟩ := ha.job
    refine .call (fun w k l ss ts _ hkl hss => hn.sequence hkl hss)
      (Simulation.values_scoping_iff.2 ⟨rfl, hcallee⟩) (List.forall₂_same.2 fun v hv => ?_)
    exact Simulation.values_scoping_iff.2 ⟨rfl, hargs v hv⟩

/-- However an evaluation ends, what it leaves behind is in order. -/
theorem of_run (ha : a.WellScoped) (h : a.run = some (r, t)) :
    a.store.next ≤ t.next ∧ t.WellScoped ∧
      ∀ v, r = .ok v ∨ r = .error (.returned v) → v.ScopedIn t.next :=
  ha.similar.wellScoped ha.store h

/-- Something else may be evaluated in the same place. -/
theorem instead (ha : WellScoped ⟨n, i, job, s⟩) {m : Nat} {job' : Job}
    (hjob : job'.ScopedIn s.next) : WellScoped ⟨m, i, job', s⟩ :=
  ⟨ha.store, ha.scope, hjob⟩

/-- Something else may be evaluated behind it. -/
theorem behind (ha : WellScoped ⟨n, i, job, s⟩) (h : Point.run ⟨n, i, job, s⟩ = some (r, t))
    {m : Nat} {job' : Job} (hjob : job'.ScopedIn t.next) : WellScoped ⟨m, i, job', t⟩ := by
  obtain ⟨hle, ht, -⟩ := ha.of_run h
  exact ⟨ht, Nat.lt_of_lt_of_le ha.scope hle, hjob⟩

/-- All is in order where a function is called. -/
theorem enters_call (ha : WellScoped ⟨n + 1, i, job, s⟩) {f : Expr} {args : List Expr}
    {v : Value} {vs : List Value} {u : Store} (hf : expr n i f s = some (.ok v, t))
    (hargs : args.mapM (expr n i) t = some (.ok vs, u)) : WellScoped ⟨n, i, .call v vs, u⟩ := by
  have hcallee : WellScoped ⟨n, i, .expr f, s⟩ := ha.instead trivial
  have hlist : WellScoped ⟨n + 1, i, .expr (.array .eof args), t⟩ := hcallee.behind hf trivial
  obtain ⟨-, -, hv⟩ := hcallee.of_run hf
  obtain ⟨hle, -, hvs⟩ := hlist.of_run (run_array hargs .eof)
  refine hlist.behind (run_array hargs .eof) ⟨(hv v (.inl rfl)).mono hle, fun w hw g hg => ?_⟩
  exact hvs _ (.inl rfl) g (.element hw hg)

/-- All is in order where the body of a function begins. -/
theorem enters_body {f : Closure} {args : List Value}
    (ha : WellScoped ⟨n, i, .call (.function f) args, s⟩) :
    WellScoped ⟨n, s.next, .block f.body.statements,
      s.addFrame (.ofCall f.scope (f.params.map Ident.name) args)⟩ := by
  obtain ⟨hf, hargs⟩ := ha.job
  refine ⟨ha.store.addFrame_ofCall (hf f .self) _ hargs, ?_, trivial⟩
  rw [Store.next_addFrame]
  exact Nat.lt_succ_self s.next

/-- Where an evaluation begins in good order, so do those that it enters. -/
theorem enters (ha : a.WellScoped) (h : Enters a b) : b.WellScoped := by
  have hexpr {n i s job} (ha : WellScoped ⟨n + 1, i, job, s⟩) (e : Expr) :
      WellScoped ⟨n, i, .expr e, s⟩ := ha.instead trivial
  cases h with
  | operand | left | condition | callee | indexed | bound | returned | expression | block =>
    exact ha.instead trivial
  | right hl | index hl => exact (hexpr ha _).behind hl trivial
  | consequence hc | alternative hc => exact (hexpr ha _).behind hc trivial
  | @argument n i s token f before e after v t vs u hf hbefore =>
    have hlist : WellScoped ⟨n + 1, i, .expr (.array token before), t⟩ :=
      (hexpr ha f).behind hf trivial
    exact hlist.behind (run_array hbefore token) trivial
  | call hf hargs => exact ha.enters_call hf hargs
  | @element n i s token before e after vs t hbefore =>
    have hlist : WellScoped ⟨n + 1, i, .expr (.array token before), s⟩ := ha.instead trivial
    exact hlist.behind (run_array hbefore token) trivial
  | @key n i s token before p after table t hbefore =>
    have hlist : WellScoped ⟨n + 1, i, .expr (.hash token before), s⟩ := ha.instead trivial
    exact hlist.behind (run_hash hbefore token) trivial
  | @value n i s token before p after table t v k u hbefore hkey =>
    have hlist : WellScoped ⟨n + 1, i, .expr (.hash token before), s⟩ := ha.instead trivial
    have hpair : WellScoped ⟨n, i, .expr p.1, t⟩ := hlist.behind (run_hash hbefore token) trivial
    exact hpair.behind hkey trivial
  | @statement n i s before c after v t hbefore =>
    have hblock : WellScoped ⟨n, i, .block before, s⟩ := ha.instead trivial
    exact hblock.behind hbefore trivial
  | body => exact ha.enters_body

/-- All through an evaluation, all is in order. -/
theorem reaches (ha : a.WellScoped) (h : ReflTransGen Enters a b) : b.WellScoped := by
  induction h with
  | refl => exact ha
  | tail _ hbc ih => exact ih.enters hbc

end WellScoped
end Point
end Eval
end Monkey
