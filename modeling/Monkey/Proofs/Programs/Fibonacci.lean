import Mathlib.Data.Nat.Fib.Basic
import Monkey.Proofs.Programs.Basic

/-! # A function that calls itself twice

The function `fib` of `Fibonacci.source` computes the Fibonacci numbers by their recurrence. It does
so for every integer (`Fibonacci.yields_fib`). An integer below 2 is returned at once. The 92nd number
is the last in range, and a call for any later one goes down to the 93rd by its left operand, so
that the first fault is always the same sum.
-/

namespace Monkey.Fibonacci

open Eval

/-! ## The numbers in range -/

/-- The two largest Fibonacci numbers in range cannot be added. -/
def tooLarge : Fault :=
  .overflow ⟨7540113804746346429, by decide⟩ .plus ⟨4660046610375530309, by decide⟩

/-- What `fib` is to compute. -/
def fibonacci (n : Integer) : Except Fault Integer :=
  if n.val < 2 then .ok n
  else (Integer.ofInt? (Nat.fib n.val.toNat)).elim (.error tooLarge) .ok

theorem fib_91 : Nat.fib 91 = 4660046610375530309 := by decide +kernel

theorem fib_92 : Nat.fib 92 = 7540113804746346429 := by decide +kernel

theorem inRange_fib_iff (k : Nat) : Integer.InRange (Nat.fib k) ↔ k ≤ 92 := by
  constructor
  · intro h
    by_contra hk
    have hmono : Nat.fib 93 ≤ Nat.fib k := Nat.fib_mono (by omega)
    rw [Nat.fib_add_two (n := 91), fib_91, fib_92] at hmono
    omega
  · intro hk
    have hmono : Nat.fib k ≤ Nat.fib 92 := Nat.fib_mono hk
    rw [fib_92] at hmono
    omega

variable {n : Integer}

theorem fibonacci_of_lt (h : n.val < 2) : fibonacci n = .ok n := if_pos h

theorem fibonacci_of_le (h : 0 ≤ n.val) (hn : n.val ≤ 92) :
    ∃ m : Integer, m.val = Nat.fib n.val.toNat ∧ fibonacci n = .ok m := by
  have hrange : Integer.InRange (Nat.fib n.val.toNat) := (inRange_fib_iff _).2 (by omega)
  refine ⟨⟨_, hrange⟩, rfl, ?_⟩
  rw [fibonacci, Integer.ofInt?_of_inRange hrange]
  split
  · -- The first two numbers are 0 and 1.
    have hfib : (Nat.fib n.val.toNat : Int) = n.val := by
      obtain hzero | hone : n.val = 0 ∨ n.val = 1 := by omega
      · rw [hzero]
        rfl
      · rw [hone]
        rfl
    exact congrArg Except.ok (Integer.ext hfib.symm)
  · rfl

theorem fibonacci_of_gt (h : 92 < n.val) : fibonacci n = .error tooLarge := by
  have hrange : ¬Integer.InRange (Nat.fib n.val.toNat) := by
    rw [inRange_fib_iff]
    omega
  rw [fibonacci, if_neg (by omega), Integer.ofInt?_eq_none.2 hrange]
  rfl

/-- The recurrence holds for the faults as well. -/
theorem fibonacci_eq {m k : Integer} (hn : 2 ≤ n.val) (hm : m.val = n.val - 1)
    (hk : k.val = n.val - 2) :
    fibonacci n = (do let a ← fibonacci m; let b ← fibonacci k; operate a .plus b) := by
  by_cases hbig : 93 < n.val
  · rw [fibonacci_of_gt (by omega), fibonacci_of_gt (by omega : 92 < m.val)]
    rfl
  · obtain ⟨a, ha, hfa⟩ := fibonacci_of_le (by omega : 0 ≤ m.val) (by omega)
    obtain ⟨b, hb, hfb⟩ := fibonacci_of_le (by omega : 0 ≤ k.val) (by omega)
    have hsum : a.val + b.val = (Nat.fib n.val.toNat : Int) := by
      have hadd := Nat.fib_add_two (n := k.val.toNat)
      rw [show k.val.toNat + 2 = n.val.toNat by omega,
        show k.val.toNat + 1 = m.val.toNat by omega] at hadd
      omega
    rw [hfa, hfb]
    show fibonacci n = operate a .plus b
    by_cases hle : n.val ≤ 92
    · obtain ⟨c, hc, hfc⟩ := fibonacci_of_le (by omega : 0 ≤ n.val) hle
      have hoperate : operate a .plus b = .ok c := operate_of_eq (hsum.trans hc.symm)
      rw [hfc, hoperate]
    · have h92 : a = ⟨7540113804746346429, by decide⟩ := by
        apply Integer.ext
        rw [ha, show m.val.toNat = 92 by omega, fib_92]
        rfl
      have h91 : b = ⟨4660046610375530309, by decide⟩ := by
        apply Integer.ext
        rw [hb, show k.val.toNat = 91 by omega, fib_91]
        rfl
      rw [fibonacci_of_gt (by omega), h92, h91]
      rfl

/-! ## The function -/

def source : String :=
  "let fib = fn(n) \x7b if (n < 2) \x7b return n; \x7d fib(n - 1) + fib(n - 2) \x7d;"

/-- A call of `fib` for an earlier number. -/
def earlier (k : Expr) : Expr := .applied "fib" [.binary (.sym .minus) .minus (.var "n") k]

/-- The way out of the recursion. -/
def wayOut : Block := .braced [.ret (.word .returnWord) (some (.var "n"))]

def body : List Stmt :=
  [.expr (.cond (.word .ifWord) (.binary (.sym .less) .less (.var "n") (.number "2" 2)) wayOut none),
  .expr (.binary (.sym .plus) .plus (earlier (.number "1" 1)) (earlier (.number "2" 2)))]

theorem parse_source : Program.parse source = .ok ⟨[.named "fib" (.func ["n"] body)]⟩ := by
  decide +kernel

/-- The functions that the text makes differ in their numbers only. -/
def fib (id : Nat) : Value := .function (.func id ["n"] body 0)

/-- The function is bound to its own name. -/
structure Bound (id : Nat) (s : Store) : Prop where
  next : 0 < s.next
  get?_fib : s.get? 0 "fib" = some (fib id)

/-- The store in which the body is run. -/
def called (t : Store) (n : Integer) : Store := t.addFrame (.ofCall 0 ["n"] [.int n])

section Body

variable {s t : Store} {id : Nat} (h : Bound id s) (ht : s.Keeps t)
include h ht

theorem yields_n (n : Integer) : Yields (called t n) t.next (.expr (.var "n")) (.ok (.int n)) :=
  yields_var ht h.next (List.nodup_singleton _) (by simp)

theorem yields_condition (n : Integer) : Yields (called t n) t.next
    (.expr (.binary (.sym .less) .less (.var "n") (.number "2" 2))) (.ok (.bool (n.val < 2))) :=
  (yields_n h ht n).compare _ .less (yields_int _ _ _ (.ofCount 2))

/-- A call for an earlier number ends as it does elsewhere. -/
theorem yields_earlier {n m : Integer} {k : Nat} (digits : String) (hk : k ≤ 2)
    (hm : m.val = n.val - k) {r : Except Signal Value}
    (hcall : Yields s t.next (.call (fib id) [.int m]) r) :
    Yields (called t n) t.next (.expr (earlier (.number digits k))) r := by
  have hfib : Yields (called t n) t.next (.expr (.var "fib")) (.ok (fib id)) :=
    yields_var ht h.next (List.nodup_singleton _) (by simpa [List.lookup_cons] using h.get?_fib)
  have harg := (yields_n h ht n).operate (.sym .minus) .minus nofun
    (yields_int _ _ (.int digits) (.ofCount k))
  have hsub : operate n .minus (.ofCount k) = .ok m := by
    apply operate_of_eq
    rw [ArithmeticOp.exact, Integer.val_ofCount (by omega), hm]
  rw [hsub] at harg
  exact hfib.apply _ (.cons harg (.nil _ _)) (hcall.mono (ht.trans (Store.keeps_addFrame _ t)))

/-- Below 2, the rest of the body is not run. -/
theorem yields_body_of_lt {n : Integer} (hn : n.val < 2) :
    Yields (called t n) t.next (.block body) (.error (.returned (.int n))) := by
  have hret := ((yields_n h ht n).ret (.word .returnWord)).last
  have hif := (yields_condition h ht n).cond (.word .ifWord) (b := wayOut)
    ((Value.isTruthy_bool _).trans (decide_eq_true hn)) hret none
  exact hif.stmt.stop _

theorem yields_body_of_ge {n m k : Integer} (hn : 2 ≤ n.val) (hm : m.val = n.val - 1)
    (hk : k.val = n.val - 2) {x y : Except Fault Integer}
    (hx : Yields s t.next (.call (fib id) [.int m]) (result .int x))
    (hy : Yields s t.next (.call (fib id) [.int k]) (result .int y)) :
    Yields (called t n) t.next (.block body)
      (result .int (do let a ← x; let b ← y; operate a .plus b)) := by
  have hif := (yields_condition h ht n).condNone (.word .ifWord)
    ((Value.isTruthy_bool _).trans (decide_eq_false (Int.not_lt.2 hn))) wayOut
  have hl := yields_earlier h ht (k := 1) "1" (by decide) hm hx
  have hr := yields_earlier h ht (k := 2) "2" (by decide) hk hy
  have hsum := hl.operate_result (.sym .plus) .plus nofun hr
  exact hif.stmt.next hsum.stmt.last

end Body

/-- `fib` computes the Fibonacci numbers. -/
theorem yields_fib {s : Store} {id : Nat} (h : Bound id s) (n : Integer) (i : FrameId) :
    Yields s i (.call (fib id) [.int n]) (result .int (fibonacci n)) := by
  -- The calls inside are for smaller integers, none of which is negative.
  induction hsize : n.val.toNat using Nat.strong_induction_on generalizing n i with
  | h size ih =>
    by_cases hn : n.val < 2
    · rw [fibonacci_of_lt hn]
      exact .func id rfl fun t ht => yields_body_of_lt h ht hn
    · have hrange := n.inRange
      let m : Integer := ⟨n.val - 1, by omega⟩
      let k : Integer := ⟨n.val - 2, by omega⟩
      have hm : m.val.toNat < size := by show (n.val - 1).toNat < size; omega
      have hk : k.val.toNat < size := by show (n.val - 2).toNat < size; omega
      rw [fibonacci_eq (m := m) (k := k) (by omega) rfl rfl, ← caught_result]
      refine .func id rfl fun t ht => ?_
      exact yields_body_of_ge h ht (by omega) rfl rfl (ih _ hm m _ rfl) (ih _ hk k _ rfl)

/-! ## Running the text -/

/-- The store that the text leaves. -/
def defined : Store :=
  { Store.fresh with functions := 1 }.set 0 "fib" (fib 0)

theorem ends_source : Ends 0 (.block [.named "fib" (.func ["n"] body)]) .fresh
    (.ok (fib 0)) defined :=
  (ends_named_func 0 "fib" ["n"] body .fresh).last

theorem bound_defined : Bound 0 defined where
  next := Nat.one_pos
  get?_fib := (Store.get?_set Nat.one_pos "fib" "fib" _).trans (if_pos rfl)

/-- A call with an argument that has been given a name. -/
theorem yields_applied (n : Integer) : Yields (defined.set 0 "n" (.int n)) 0
    (.expr (.applied "fib" [.var "n"])) (result .int (fibonacci n)) := by
  have hnext : 0 < (defined.set 0 "n" (.int n)).next := Nat.one_pos
  have hget (y : String) := Store.get?_set bound_defined.next "n" y (.int n)
  have hbound : Bound 0 (defined.set 0 "n" (.int n)) :=
    ⟨hnext, by rw [hget, if_neg (by decide), bound_defined.get?_fib]⟩
  have hfib := yields_ident hnext hbound.get?_fib (.ident "fib")
  have hn := yields_ident hnext ((hget "n").trans (if_pos rfl)) (.ident "n")
  exact hfib.apply _ (.cons hn (.nil _ _)) (yields_fib hbound n 0)

theorem parse_applied : Program.parse "fib(n)" = .ok ⟨[.expr (.applied "fib" [.var "n"])]⟩ := by
  decide +kernel

/-- When the text has been run, a call of `fib` comes to an end for every integer, be it from outside
or from another text. Below 2 it gives the integer itself, up to 92 the Fibonacci number, and above
the fault that the 93rd is out of range. -/
theorem run_fib : ∃ (fib : Value) (s : Store),
    (∃ depth, Store.fresh.run depth 0 source = some (.ok fib, s)) ∧
    ∀ n : Integer, ∃ r : Except Signal Value,
      (∃ t, Ends 0 (.call fib [.int n]) s r t) ∧
      (∃ depth t, (s.set 0 "n" (.int n)).run depth 0 "fib(n)" = some (.ok (shown r), t)) ∧
      (n.val < 2 → r = .ok (.int n)) ∧
      (2 ≤ n.val → n.val ≤ 92 → ∃ m : Integer, m.val = Nat.fib n.val.toNat ∧ r = .ok (.int m)) ∧
      (93 ≤ n.val → ∃ f : Fault, r = .error (.raised f) ∧
        f.message = "integer overflow: 7540113804746346429 + 4660046610375530309") := by
  refine ⟨_, defined, Store.run_of_ends parse_source ends_source, fun n => ?_⟩
  refine ⟨result .int (fibonacci n), ?_, ?_, fun hn => ?_, fun hn hle => ?_, fun hn => ?_⟩
  · obtain ⟨t, ht, -⟩ := yields_fib bound_defined n 0 _ (.refl _)
    exact ⟨t, ht⟩
  · obtain ⟨t, ht, -⟩ := (yields_applied n).stmt.last _ (.refl _)
    obtain ⟨depth, hrun⟩ := Store.run_of_ends parse_applied ht
    exact ⟨depth, t, hrun⟩
  · rw [fibonacci_of_lt hn]
    rfl
  · obtain ⟨m, hm, hfib⟩ := fibonacci_of_le (by omega : 0 ≤ n.val) hle
    rw [hfib]
    exact ⟨m, hm, rfl⟩
  · rw [fibonacci_of_gt (by omega)]
    exact ⟨tooLarge, rfl, by decide +kernel⟩

/-- The 90th number is computed and the 200th is not, for the same reason as the 93rd; a negative
integer is given back. -/
theorem run_fib_beyond : ∃ (fib : Value) (s : Store),
    (∃ depth, Store.fresh.run depth 0 source = some (.ok fib, s)) ∧
    (∃ t, Ends 0 (.call fib [.int ⟨-5, by decide⟩]) s (.ok (.int ⟨-5, by decide⟩)) t) ∧
    (∃ t, Ends 0 (.call fib [.int (.ofCount 90)]) s (.ok (.int ⟨2880067194370816120, by decide⟩)) t) ∧
    ∃ depth t, (s.set 0 "n" (.int (.ofCount 200))).run depth 0 "fib(n)" =
      some (.ok (.error "integer overflow: 7540113804746346429 + 4660046610375530309"), t) := by
  obtain ⟨fib, s, hsource, h⟩ := run_fib
  refine ⟨fib, s, hsource, ?_, ?_, ?_⟩
  · obtain ⟨r, hends, -, hr, -⟩ := h ⟨-5, by decide⟩
    rwa [hr (by decide)] at hends
  · obtain ⟨r, hends, -, -, hr, -⟩ := h (.ofCount 90)
    obtain ⟨m, hm, rfl⟩ := hr (by decide) (by decide)
    have hfib : m = ⟨2880067194370816120, by decide⟩ := Integer.ext (hm.trans (by decide +kernel))
    rwa [hfib] at hends
  · obtain ⟨r, -, hrun, -, -, hr⟩ := h (.ofCount 200)
    obtain ⟨f, rfl, hf⟩ := hr (by decide)
    rwa [shown, hf] at hrun

end Monkey.Fibonacci
