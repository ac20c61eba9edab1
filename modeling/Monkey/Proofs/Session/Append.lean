import Monkey.Program.Equality
import Monkey.Proofs.Eval.Simulation
import Monkey.Proofs.Grammar.Parse
import Monkey.Session

/-! # Texts that are run one after the other

A text can be cut behind a semicolon. Each of the parts is then a text of its own, and to run one
after the other in the same frame is to run the whole: `Store.run_append`. This holds on each level.
No token goes over the cut (`Token.scan_append`), no statement does (`Program.parse_append`), and the
statements of the whole are those of the first part with those of the second behind them. A first
part that stops early stops the whole.
-/

namespace Monkey

open Eval

/-! ## Reading -/

namespace Program

variable {a b : String} {p q : Program}

/-- A text that ends in a semicolon is read in the same way before any other text. -/
theorem parse_append (ha : parse a = .ok p) (hb : parse b = .ok q)
    (hlast : (Token.scan a).getLast? = some (.sym .semicolon)) :
    parse (a ++ b) = .ok ⟨p.statements ++ q.statements⟩ := by
  apply DerivedFrom.parse_eq
  rw [Token.scan_append hlast]
  have hp : Grammar.Derives (Token.scan a)
      (.stmts ((Token.scan b).headD .eof) p.statements) :=
    (DerivedFrom.of_parse ha).ends hlast _
  exact hp.append (DerivedFrom.of_parse hb)

end Program

/-! ## Evaluating -/

namespace Eval

variable {s t : Store} {v : Value} {e : Signal}

/-- What stands before other statements has no part in their value, if there are any. -/
theorem sequence_append (f : Stmt → Eval Value) (ss ts : List Stmt) :
    sequence f (ss ++ ts) =
      sequence f ss >>= fun v => if ts = [] then pure v else sequence f ts := by
  rw [sequence, List.foldlM_append]
  congr 1
  funext v
  cases ts with
  | nil => rfl
  | cons c ts => rfl

theorem returning_congr {x y : Eval Value} (h : x s = y t) : returning x s = returning y t := by
  rw [returning, returning, h]

end Eval

namespace Program

variable {depth : Nat} {i : FrameId} {p : Program} {s t : Store} {v : Value}

theorem eval_of_sequence {r : Except Signal Value}
    (h : sequence (stmt depth i) p.statements s = some (r, t)) :
    p.eval depth i s = some (shown r, t) := by
  rw [eval_eq_map, program, returning, h]
  rcases r with (v | f) | v <;> rfl

/-- A program that has come to its end is followed by the next. -/
theorem eval_append_of_ok (h : sequence (stmt depth i) p.statements s = some (.ok v, t))
    (q : Program) : Program.eval ⟨p.statements ++ q.statements⟩ depth i s =
      (q.eval depth i t).map fun (w, u) => (if q.statements = [] then v else w, u) := by
  rw [eval_eq_map, eval_eq_map, program, sequence_append, returning_congr (bind_of_ok h)]
  by_cases hq : q.statements = []
  · rw [program, hq]
    rfl
  · simp only [if_neg hq, Option.map_map]
    rfl

/-- A program that has stopped early is not followed by anything. -/
theorem eval_append_of_error {e : Signal}
    (h : sequence (stmt depth i) p.statements s = some (.error e, t)) (q : Program) :
    Program.eval ⟨p.statements ++ q.statements⟩ depth i s = p.eval depth i s := by
  rw [eval_eq_map, eval_eq_map, program, program, sequence_append]
  rw [returning_congr ((bind_of_error h).trans h.symm)]

end Program

/-! ## Running -/

namespace Store

theorem run_of_parse {a : String} {p : Program} (h : Program.parse a = .ok p) (depth : Nat)
    (i : FrameId) (s : Store) :
    s.run depth i a = (p.eval depth i s).map fun (v, t) => (.ok v, t) := by
  rw [Store.run, h]

/-- A text that ends in a semicolon may be run together with the next. If it comes to its end, the
next one is run in the store that it leaves, and has the last word unless it is empty. If it is
stopped by a `return` or a fault, the next one is not run. -/
theorem run_append {a b : String} {p q : Program} (ha : Program.parse a = .ok p)
    (hb : Program.parse b = .ok q) (hlast : (Token.scan a).getLast? = some (.sym .semicolon)) :
    Program.parse (a ++ b) = .ok ⟨p.statements ++ q.statements⟩ ∧
    ∀ (depth : Nat) (i : FrameId) (s t : Store),
      (∀ v, sequence (stmt depth i) p.statements s = some (.ok v, t) →
        s.run depth i a = some (.ok v, t) ∧
        s.run depth i (a ++ b) = (t.run depth i b).map fun (result, u) =>
          (if q.statements = [] then .ok v else result, u)) ∧
      ∀ e, sequence (stmt depth i) p.statements s = some (.error e, t) →
        s.run depth i a = some (.ok (shown (.error e)), t) ∧
        s.run depth i (a ++ b) = s.run depth i a := by
  have hab := Program.parse_append ha hb hlast
  refine ⟨hab, fun depth i s t => ⟨fun v h => ?_, fun e h => ?_⟩⟩
  · rw [run_of_parse ha, run_of_parse hb, run_of_parse hab, Program.eval_of_sequence h,
      Program.eval_append_of_ok h, Option.map_map, Option.map_map]
    refine ⟨rfl, congrArg (Option.map · _) ?_⟩
    funext ⟨w, u⟩
    by_cases hq : q.statements = [] <;> simp [hq]
  · rw [run_of_parse ha, run_of_parse hab, Program.eval_append_of_error h,
      Program.eval_of_sequence h]
    exact ⟨rfl, rfl⟩

/-- A name is bound by the first text and looked up by the second, which has a value of its own; a
first text that returns keeps the second from being run. -/
theorem run_append_let :
    (∃ t result u, fresh.run 4 0 "let x = 1; " = some (.ok (.int (.ofCount 1)), t) ∧
      t.run 4 0 "x + x" = some (result, u) ∧
      fresh.run 4 0 ("let x = 1; " ++ "x + x") = some (result, u)) ∧
    fresh.run 4 0 ("return 1;" ++ "x + x") = some (.ok (.int (.ofCount 1)), fresh) := by
  have hlet : Program.parse "let x = 1; " = .ok ⟨[.bind (.word .letWord) ⟨.ident "x", "x"⟩
      (.int (.int "1") (.ofCount 1))]⟩ := by decide +kernel
  have hreturn : Program.parse "return 1;" = .ok ⟨[.ret (.word .returnWord)
      (some (.int (.int "1") (.ofCount 1)))]⟩ := by decide +kernel
  have hsum : Program.parse "x + x" = .ok ⟨[.expr (.binary (.sym .plus) .plus
      (.ident ⟨.ident "x", "x"⟩) (.ident ⟨.ident "x", "x"⟩))]⟩ := by decide +kernel
  obtain ⟨-, h⟩ := run_append hlet hsum (by decide +kernel)
  obtain ⟨hfirst, hboth⟩ := (h 4 0 fresh (fresh.set 0 "x" (.int (.ofCount 1)))).1 _ rfl
  have hsecond : ((fresh.set 0 "x" (.int (.ofCount 1))).run 4 0 "x + x").isSome = true := by
    decide +kernel
  obtain ⟨⟨result, u⟩, hsecond⟩ := Option.isSome_iff_exists.1 hsecond
  refine ⟨⟨_, result, u, hfirst, hsecond, ?_⟩, ?_⟩
  · rw [hboth, hsecond]
    rfl
  · obtain ⟨-, h'⟩ := run_append hreturn hsum (by decide +kernel)
    obtain ⟨hstopped, hboth'⟩ := (h' 4 0 fresh fresh).2 _ rfl
    rw [hboth', hstopped]
    rfl

end Store
end Monkey
