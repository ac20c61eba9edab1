import Monkey.Program.Equality
import Monkey.Proofs.Eval.WellScoped
import Monkey.Session

/-! # Sessions leave nothing without its frame

Whatever steps are taken from the empty store on, each frame lies in one that was made earlier, and
each function in one that there is: `Session.wellScoped_of_reachable`. Functions can be brought in
from outside as well, if they lie in frames that there are. While a text is run, the same is true at
all times.
-/

namespace Monkey

open Eval Relation

namespace Session

/-- The step is taken in one of the first `n` frames, and the functions that it brings in lie in
them. -/
def Step.ScopedIn (n : Nat) : Step → Prop
  | .new => True
  | .enclose frame | .get frame _ | .run frame _ => frame < n
  | .set frame _ v => frame < n ∧ v.ScopedIn n

/-- The frame that the answer tells of is one of the first `n`, and the functions in it lie in
them. -/
def Answer.ScopedIn (n : Nat) : Answer → Prop
  | .made frame => frame < n
  | .found v? => ∀ v, v? = some v → v.ScopedIn n
  | .bound v | .ran (.ok v) _ => v.ScopedIn n
  | .ran (.error _) _ => True

/-- The stores that can be come to from the empty one, by steps in frames that there are. -/
inductive Reachable : Store → Prop where
  | empty : Reachable .empty
  | step {depth s step answer t} (hs : Reachable s)
      (h : perform depth s step = some (answer, t)) (hstep : step.ScopedIn s.next) : Reachable t

/-- What is evaluated in the course of a step. -/
inductive Inside (depth : Nat) (s : Store) : Step → Point → Prop where
  | run {i source p b} (hp : Program.parse source = .ok p)
      (hb : ReflTransGen Point.Enters ⟨depth, i, .block p.statements, s.silent⟩ b) :
      Inside depth s (.run i source) b

/-- Nothing is left out: a step that comes to no end is cut off at one of these points. -/
theorem perform_eq_none_iff {depth : Nat} {s : Store} {step : Step} :
    perform depth s step = none ↔ ∃ b, Inside depth s step b ∧ b.AtBottom := by
  cases step with
  | run i source =>
    rw [perform, Option.map_eq_none_iff, Store.run]
    rcases hp : Program.parse source with faults | p
    · constructor
      · intro h
        cases h
      · rintro ⟨b, ⟨hq, -⟩, -⟩
        rw [hp] at hq
        cases hq
    · rw [Option.map_eq_none_iff, Program.eval_eq_map, Option.map_eq_none_iff, program,
        returning_eq_none_iff]
      constructor
      · intro h
        obtain ⟨b, hb, hbottom⟩ :=
          (Point.run_eq_none_iff_exists (a := ⟨depth, i, .block p.statements, s.silent⟩)).1 h
        exact ⟨b, .run hp hb, hbottom⟩
      · rintro ⟨b, ⟨hq, hb⟩, hbottom⟩
        rw [hp] at hq
        cases hq
        exact Point.run_eq_none_iff_exists.2 ⟨b, hb, hbottom⟩
  | _ =>
    constructor
    · intro h
      cases h
    · rintro ⟨b, ⟨⟩, -⟩

end Session

/-! ## Taking steps -/

namespace Store.WellScoped

variable {depth : Nat} {s t : Store} {i : FrameId} {v : Value}

theorem of_eval {p : Program} (hs : s.WellScoped) (hi : i < s.next)
    (h : p.eval depth i s = some (v, t)) : t.WellScoped ∧ v.ScopedIn t.next := by
  rw [Program.eval_eq_map] at h
  obtain ⟨⟨r, u⟩, hr, heq⟩ := Option.map_eq_some_iff.1 h
  cases heq
  have hsim := Simulation.scoping.similar_program depth (w := s.next) (i := i) ⟨rfl, hi⟩
    (List.forall₂_same.2 fun c (_ : c ∈ p.statements) => rfl)
  obtain ⟨-, ht, hv⟩ := hsim.wellScoped hs hr
  refine ⟨ht, ?_⟩
  rcases r with (v | f) | v
  · exact hv v (.inr rfl)
  · intro g hg
    cases hg
  · exact hv v (.inl rfl)

end Store.WellScoped

namespace Session

variable {depth : Nat} {s t : Store} {step : Step} {answer : Answer}

/-- A frame is made in a frame that there is, or in none. -/
theorem wellScoped_made (hs : s.WellScoped) {o? : Option FrameId}
    (ho : ∀ o, o? = some o → o < s.next) :
    (s.addFrame (.empty o?)).WellScoped ∧
      (Answer.made s.next).ScopedIn (s.addFrame (.empty o?)).next := by
  refine ⟨hs.addFrame ho nofun, ?_⟩
  rw [Store.next_addFrame]
  exact Nat.lt_succ_self s.next

theorem wellScoped_perform (hs : s.WellScoped) (hstep : step.ScopedIn s.next)
    (h : perform depth s step = some (answer, t)) : t.WellScoped ∧ answer.ScopedIn t.next := by
  cases step with
  | new =>
    cases h
    exact wellScoped_made hs nofun
  | enclose frame =>
    cases h
    refine wellScoped_made hs ?_
    rintro _ ⟨⟩
    exact hstep
  | get frame x =>
    cases h
    exact ⟨hs, fun v hv => hs.bound.get? hv⟩
  | set frame x v =>
    cases h
    refine ⟨hs.set hstep.2, ?_⟩
    rw [Store.next_set]
    exact hstep.2
  | run frame source =>
    obtain ⟨⟨result, u⟩, hrun, heq⟩ := Option.map_eq_some_iff.1 h
    cases heq
    have hsilent : s.silent.WellScoped := hs.of_frames_eq rfl
    unfold Store.run at hrun
    split at hrun
    · cases hrun
      exact ⟨hsilent, trivial⟩
    · obtain ⟨⟨v, t⟩, heval, heq⟩ := Option.map_eq_some_iff.1 hrun
      cases heq
      exact hsilent.of_eval hstep heval

theorem Reachable.wellScoped (hs : Reachable s) : s.WellScoped := by
  induction hs with
  | empty => exact .empty
  | step _ h hstep ih => exact (wellScoped_perform ih hstep h).1

theorem wellScoped_of_inside {b : Point} (hs : s.WellScoped) (hstep : step.ScopedIn s.next)
    (hb : Inside depth s step b) : b.WellScoped := by
  cases hb with
  | run hp hb =>
    refine Point.WellScoped.reaches ?_ hb
    exact ⟨hs.of_frames_eq rfl, hstep, trivial⟩

/-- In all stores that can be come to, at all points in the course of any further step, and wherever
an evaluation has ended there, however it has ended: a frame lies only in one that was made earlier,
and a function in one that there is, be it bound, come to, returned, or about to be called. So names
are looked up along a way that ends, and no frame on it is missing. -/
theorem wellScoped_of_reachable {s : Store} (hs : Reachable s) :
    (s.WellScoped ∧ s.Grounded) ∧
    ∀ (depth : Nat) (step : Step), step.ScopedIn s.next →
      (∀ answer t, perform depth s step = some (answer, t) → answer.ScopedIn t.next) ∧
      ∀ b : Point, Inside depth s step b →
        (b.WellScoped ∧ b.store.Grounded) ∧
        ∀ r t, b.run = some (r, t) → (t.WellScoped ∧ t.Grounded) ∧
          ∀ v, r = .ok v ∨ r = .error (.returned v) → v.ScopedIn t.next := by
  refine ⟨⟨hs.wellScoped, hs.wellScoped.grounded⟩, fun depth step hstep => ⟨?_, ?_⟩⟩
  · intro answer t h
    exact (wellScoped_perform hs.wellScoped hstep h).2
  · intro b hb
    have hpoint : b.WellScoped := wellScoped_of_inside hs.wellScoped hstep hb
    refine ⟨⟨hpoint, hpoint.store.grounded⟩, fun r t h => ?_⟩
    obtain ⟨-, ht, hv⟩ := hpoint.of_run h
    exact ⟨⟨ht, ht.grounded⟩, hv⟩

/-- `fn(x) { f }`, as it is made in the first frame. -/
def circle : Closure :=
  ⟨0, [⟨.ident "x", "x"⟩], .mk (.sym .openBrace) [.expr (.ident ⟨.ident "f", "f"⟩)], 0⟩

/-- The function is bound to `f` in the frame that it lies in. There is another frame inside. -/
def circular : Store := ⟨#[⟨[("f", .function circle)], none⟩, ⟨[], some 0⟩], 1, ""⟩

theorem reachable_circular : Reachable circular := by
  have hparse : Program.parse "let f = fn(x) \x7b f \x7d;" = .ok ⟨[.bind (.word .letWord)
      ⟨.ident "f", "f"⟩ (.fn (.word .fnWord) circle.params circle.body)]⟩ := by decide +kernel
  have hrun : perform 2 .fresh (.run 0 "let f = fn(x) \x7b f \x7d;") = some
      (.ran (.ok (.function circle)) "", ⟨#[⟨[("f", .function circle)], none⟩], 1, ""⟩) := by
    rw [perform, Store.run, hparse]
    rfl
  have hfresh : Reachable .fresh := .step .empty (rfl : perform 0 _ .new = _) trivial
  exact .step (.step hfresh hrun Nat.zero_lt_one) (rfl : perform 0 _ (.enclose 0) = _)
    Nat.zero_lt_one

/-- The function is found from the frame inside its own, and its body is run in a new one. -/
theorem wellScoped_of_reachable_circular :
    circular.get? 1 "f" = some (.function circle) ∧
    ∃ b : Point, Inside 4 circular (.run 1 "f(1)") b ∧ b.job = .block circle.body.statements ∧
      b.scope = circular.next ∧ b.WellScoped := by
  obtain ⟨⟨-, hground⟩, hsteps⟩ := wellScoped_of_reachable reachable_circular
  have hf : circular.get? 1 "f" = some (.function circle) :=
    (hground.lookup 1 "f" _ (by decide)).1 (.outside rfl rfl rfl (.here rfl rfl))
  have hparse : Program.parse "f(1)" = .ok ⟨[.expr (.call (.sym .openParen)
      (.ident ⟨.ident "f", "f"⟩) [.int (.int "1") (.ofCount 1)])]⟩ := by decide +kernel
  have hcallee : expr 2 1 (.ident ⟨.ident "f", "f"⟩) circular.silent =
      some (.ok (.function circle), circular.silent) := name_of_get? hf
  have hargs : [Expr.int (.int "1") (.ofCount 1)].mapM (expr 2 1) circular.silent =
      some (.ok [.int (.ofCount 1)], circular.silent) := rfl
  have hinside : Inside 4 circular (.run 1 "f(1)") ⟨2, circular.next,
      .block circle.body.statements, circular.silent.addFrame
        (.ofCall 0 ["x"] [.int (.ofCount 1)])⟩ := by
    refine .run hparse ?_
    refine .head (.statement (rfl : sequence (stmt 4 1) [] _ = some (.ok .null, _))) ?_
    refine .head .expression ?_
    refine .head (.call hcallee hargs) ?_
    exact .single (.body rfl)
  obtain ⟨-, hpoints⟩ := hsteps 4 (.run 1 "f(1)") Nat.one_lt_two
  exact ⟨hf, _, hinside, rfl, rfl, (hpoints _ hinside).1.1⟩

end Session
end Monkey
