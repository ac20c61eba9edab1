import Mathlib.Algebra.Ring.Int.Defs
import Mathlib.Data.List.Infix
import Monkey.Proofs.Programs.Basic

/-! # Functions that are given functions

The functions `map` and `reduce` of `MapReduce.source` go through an array in the same way: each makes
a function `iter` that calls itself for the rest of the array, and hands on what it has accumulated.
This is `List.foldlM` (`MapReduce.yields_iteration`). So what `map` computes is `List.mapM`, and what
`reduce` computes is `List.foldlM`, of whatever the given function computes.
-/

namespace Monkey.MapReduce

open Eval

/-! ## The text -/

def source : String := "
        let map = fn(arr, f) \x7b
            let iter = fn(arr, accumulated) \x7b
                if (len(arr) == 0) \x7b
                    accumulated
                \x7d else \x7b
                    iter(rest(arr), push(accumulated, f(first(arr))));
                \x7d
            \x7d;
            iter(arr, []);
        \x7d;
        let reduce = fn(arr, initial, f) \x7b
            let iter = fn(arr, result) \x7b
                if (len(arr) == 0) \x7b
                    result
                \x7d else \x7b
                    iter(rest(arr), f(result, first(arr)));
                \x7d
            \x7d;
            iter(arr, initial);
        \x7d;"

def isEmpty : Expr :=
  .binary (.sym .equal) .equal (.applied "len" [.var "arr"]) (.number "0" 0)

/-- At the end of the array. -/
def finished (acc : String) : Block := .braced [.expr (.var acc)]

/-- At an element. -/
def continued (step : Expr) : Block :=
  .braced [.expr (.applied "iter" [.applied "rest" [.var "arr"], step])]

/-- The body of `iter`. -/
def iteration (acc : String) (step : Expr) : List Stmt :=
  [.expr (.cond (.word .ifWord) isEmpty (finished acc) (some (continued step)))]

/-- The body of a function that goes through `arr`. -/
def traversal (acc : String) (step start : Expr) : List Stmt :=
  [.named "iter" (.func ["arr", acc] (iteration acc step)),
  .expr (.applied "iter" [.var "arr", start])]

def first : Expr := .applied "first" [.var "arr"]

def mapStep : Expr := .applied "push" [.var "accumulated", .applied "f" [first]]

def mapBody : List Stmt := traversal "accumulated" mapStep (.array (.sym .openBracket) [])

def reduceStep : Expr := .applied "f" [.var "result", first]

def reduceBody : List Stmt := traversal "result" reduceStep (.var "initial")

def definitions : List Stmt :=
  [.named "map" (.func ["arr", "f"] mapBody),
  .named "reduce" (.func ["arr", "initial", "f"] reduceBody)]

set_option maxRecDepth 8000 in
theorem parse_source : Program.parse source = .ok ⟨definitions⟩ := by
  refine (Program.parse_ofList _).trans ?_
  decide +kernel

/-! ## Going through an array -/

/-- The builtins can be called by their names. -/
structure Unshadowed (s : Store) : Prop where
  next : 0 < s.next
  builtin : ∀ b : Builtin, s.get? 0 b.name = none

/-- The parameters are different names, and hide neither the builtins nor `iter`. -/
structure Admissible (params : List String) (acc : String) : Prop where
  nodup : params.Nodup
  params_builtin : ∀ b : Builtin, b.name ∉ params
  acc_builtin : ∀ b : Builtin, b.name ≠ acc
  acc_arr : acc ≠ "arr"
  acc_iter : acc ≠ "iter"

/-- The frame `j` of `t` is that of a call in which `iter` has been bound. All other names stand for
what they did when it was called. -/
structure Traversing (s : Store) (params : List String) (args : List Value) (iter : Value)
    (j : FrameId) (t : Store) : Prop where
  keeps : s.Keeps t
  lt_next : j < t.next
  get?_iter : t.get? j "iter" = some iter
  get? : ∀ y, y ≠ "iter" → t.get? j y = ((params.zip args).lookup y).or (s.get? 0 y)

/-- The store in which the body of `iter` is run. -/
def entered (u : Store) (j : FrameId) (acc : String) (arr v : Value) : Store :=
  u.addFrame (.ofCall j ["arr", acc] [arr, v])

theorem keeps_entered (u : Store) (j : FrameId) (acc : String) (arr v : Value) :
    u.Keeps (entered u j acc arr v) := Store.keeps_addFrame _ u

section Iteration

variable {s t u : Store} {params : List String} {args : List Value} {iter : Value} {j : FrameId}
  {acc : String} (hs : Unshadowed s) (hp : Admissible params acc)
  (h : Traversing s params args iter j t) (hu : t.Keeps u) (arr v : Value)

include hp in
theorem Admissible.nodup_iter : ["arr", acc].Nodup := by simpa using hp.acc_arr.symm

include hp h hu

theorem yields_arr : Yields (entered u j acc arr v) u.next (.expr (.var "arr")) (.ok arr) :=
  yields_var hu h.lt_next hp.nodup_iter (by simp)

theorem yields_acc : Yields (entered u j acc arr v) u.next (.expr (.var acc)) (.ok v) := by
  have hne : (acc == "arr") = false := beq_eq_false_iff_ne.2 hp.acc_arr
  exact yields_var hu h.lt_next hp.nodup_iter (by simp [List.lookup_cons, hne])

theorem yields_outer {y : String} {w : Value} (hy : y ∉ ["arr", acc]) (hw : t.get? j y = some w) :
    Yields (entered u j acc arr v) u.next (.expr (.var y)) (.ok w) :=
  yields_var hu h.lt_next hp.nodup_iter (by rw [lookup_zip_of_notMem hy, Option.none_or, hw])

include hs

theorem yields_builtin_var (b : Builtin) : Yields (entered u j acc arr v) u.next
    (.expr (.var b.name)) (.ok (.builtin b)) := by
  have hnotMem : b.name ∉ ["arr", acc] := by
    rw [List.mem_pair, not_or]
    exact ⟨by cases b <;> decide, hp.acc_builtin b⟩
  have hiter : b.name ≠ "iter" := by cases b <;> decide
  refine yields_var_builtin hu h.lt_next hp.nodup_iter ?_
  rw [lookup_zip_of_notMem hnotMem, h.get? _ hiter, lookup_zip_of_notMem (hp.params_builtin b),
    hs.builtin]
  rfl

theorem yields_builtin_arr (b : Builtin) (hb : (b.answer [arr]).isError = false) :
    Yields (entered u j acc arr v) u.next (.expr (.applied b.name [.var "arr"]))
      (.ok (b.answer [arr])) :=
  (yields_builtin_var hs hp h hu arr v b).apply _
    (.cons (yields_arr hp h hu arr v) (.nil _ _)) (.builtin rfl hb)

theorem yields_first (vs : List Value) {w : Value} (hw : w.isError = false) :
    Yields (entered u j acc (.array (w :: vs)) v) u.next (.expr first) (.ok w) :=
  yields_builtin_arr hs hp h hu (.array (w :: vs)) v .first hw

theorem yields_isEmpty (vs : List Value) : Yields (entered u j acc (.array vs) v) u.next
    (.expr isEmpty) (.ok (.bool vs.isEmpty)) := by
  have hlen := yields_builtin_arr hs hp h hu (.array vs) v .len rfl
  have hcompare := hlen.compare (.sym .equal) .equal (yields_int _ _ (.int "0") (.ofCount 0))
  have hempty : vs.isEmpty = ComparisonOp.equal.holds (Integer.ofCount vs.length).val 0 := by
    rw [Bool.eq_iff_iff, List.isEmpty_iff_length_eq_zero, ComparisonOp.holds, decide_eq_true_iff]
    show vs.length = 0 ↔ ((min vs.length 9223372036854775807 : Nat) : Int) = 0
    omega
  rwa [hempty]

end Iteration

/-- `iter` computes what is accumulated, if each step does. -/
theorem yields_iteration {s t : Store} {params : List String} {args : List Value} {id : Nat}
    {j : FrameId} {acc : String} {step : Expr} {α β : Type} {elem : α → Value} {rep : β → Value}
    {g : β → α → Except Fault β} (hs : Unshadowed s) (hp : Admissible params acc)
    (h : Traversing s params args (.function (.func id ["arr", acc] (iteration acc step) j)) j t)
    (hstep : ∀ u, t.Keeps u → ∀ b x xs,
      Yields (entered u j acc (.array (elem x :: xs)) (rep b)) u.next (.expr step)
        (result rep (g b x))) (xs : List α) (b : β) (i : FrameId) :
    Yields t i (.call (.function (.func id ["arr", acc] (iteration acc step) j))
      [.array (xs.map elem), rep b]) (result rep (xs.foldlM g b)) := by
  -- The rest of the array is gone through by a call from inside, where the frames of `t` are kept.
  induction xs generalizing b i with
  | nil =>
    rw [← caught_result]
    refine .func id rfl fun u hu => ?_
    have hacc := yields_acc hp h hu (.array []) (rep b)
    have hif := (yields_isEmpty hs hp h hu (rep b) []).cond (.word .ifWord) (b := finished acc) rfl
      hacc.stmt.last (some (continued step))
    exact hif.stmt.last
  | cons x xs ih =>
    rw [← caught_result]
    refine .func id rfl fun u hu => ?_
    have hiter : "iter" ∉ ["arr", acc] := by
      rw [List.mem_pair, not_or]
      exact ⟨by decide, hp.acc_iter.symm⟩
    have hcallee := yields_outer hp h hu (.array (elem x :: xs.map elem)) (rep b) hiter h.get?_iter
    have hrest := yields_builtin_arr hs hp h hu (.array (elem x :: xs.map elem)) (rep b) .rest rfl
    have hkeeps := hu.trans (keeps_entered u j acc (.array (elem x :: xs.map elem)) (rep b))
    have hcall := hcallee.applied_result (.cons hrest (.nil _ _)) (hstep u hu b x (xs.map elem))
      fun c => (ih c u.next).mono hkeeps
    have hif := (yields_isEmpty hs hp h hu (rep b) (elem x :: xs.map elem)).condElse (.word .ifWord)
      rfl (finished acc) (d := continued step) hcall.stmt.last
    exact hif.stmt.last

/-! ## The functions -/

/-- The store in which `iter` has been bound in a new frame. -/
def begun (t : Store) (params : List String) (args : List Value) (iter : Value) : Store :=
  { t.addFrame (.ofCall 0 params args) with functions := t.functions + 1 }.set t.next "iter" iter

theorem traversing_begun {s t : Store} {params : List String} (hs : Unshadowed s)
    (hp : params.Nodup) (ht : s.Keeps t) (args : List Value) (iter : Value) :
    Traversing s params args iter t.next (begun t params args iter) := by
  let u : Store := { t.addFrame (.ofCall 0 params args) with functions := t.functions + 1 }
  have hframes : (t.addFrame (.ofCall 0 params args)).Keeps u := Store.keeps_of_frames_eq rfl
  have hnext : t.next < (t.addFrame (.ofCall 0 params args)).next := by
    rw [Store.next_addFrame]
    exact Nat.lt_succ_self _
  have hlt : t.next < u.next := Nat.lt_of_lt_of_le hnext hframes.next_le
  have hget (y : String) : (u.set t.next "iter" iter).get? t.next y =
      if "iter" = y then some iter else u.get? t.next y := Store.get?_set hlt "iter" y iter
  constructor
  · have hkeeps := (Store.keeps_addFrame (.ofCall 0 params args) t).trans hframes
    have hset : u.Rebinds t.next ["iter"] (u.set t.next "iter" iter) :=
      Store.rebinds_set List.mem_cons_self iter u
    exact ht.trans (hset.keeps_of_next hkeeps)
  · rw [begun, Store.next_set]
    exact hlt
  · rw [begun, hget, if_pos rfl]
  · intro y hy
    rw [begun, hget, if_neg (Ne.symm hy), hframes.get?_eq hnext, ht.get?_ofCall hs.next hp]

/-- A function that goes through `arr` computes what is accumulated from the start. -/
theorem yields_traversal {s : Store} {params : List String} {args : List Value} {acc : String}
    {step start : Expr} {α β : Type} {elem : α → Value} {rep : β → Value}
    {g : β → α → Except Fault β} {xs : List α} {b : β} (hs : Unshadowed s)
    (hp : Admissible params acc) (hlen : params.length = args.length)
    (harr : (params.zip args).lookup "arr" = some (.array (xs.map elem)))
    (hstart : ∀ iter j t, Traversing s params args iter j t →
      Yields t j (.expr start) (.ok (rep b)))
    (hstep : ∀ iter j t, Traversing s params args iter j t → ∀ u, t.Keeps u → ∀ b x xs,
      Yields (entered u j acc (.array (elem x :: xs)) (rep b)) u.next (.expr step)
        (result rep (g b x))) (id : Nat) (i : FrameId) :
    Yields s i (.call (.function (.func id params (traversal acc step start) 0)) args)
      (result rep (xs.foldlM g b)) := by
  rw [← caught_result]
  refine .func_of_ends id hlen fun t ht => ?_
  let iter : Closure := .func t.functions ["arr", acc] (iteration acc step) t.next
  have hlet := ends_named_func t.next "iter" ["arr", acc] (iteration acc step)
    (t.addFrame (.ofCall 0 params args))
  have h : Traversing s params args (.function iter) t.next (begun t params args (.function iter)) :=
    traversing_begun hs hp.nodup ht args (.function iter)
  have hiter := yields_ident h.lt_next h.get?_iter (.ident "iter")
  have harr' : (begun t params args (.function iter)).get? t.next "arr" =
      some (.array (xs.map elem)) := by
    rw [h.get? _ (by decide), harr, Option.some_or]
  have hargs := yields_ident h.lt_next harr' (.ident "arr")
  have hcall := hiter.apply (.sym .openParen)
    (.cons hargs (.cons (hstart _ _ _ h) (.nil _ _)))
    (yields_iteration hs hp h (hstep _ _ _ h) xs b t.next)
  obtain ⟨u, hu, -⟩ := hcall.stmt.last _ (.refl _)
  exact ⟨u, hlet.next hu⟩

/-- To collect results one by one is to map. -/
theorem foldlM_append_singleton {α β : Type} (g : α → Except Fault β) (xs : List α) (ys : List β) :
    xs.foldlM (fun ys x => do let y ← g x; pure (ys ++ [y])) ys =
      (do let zs ← xs.mapM g; pure (ys ++ zs)) := by
  induction xs generalizing ys with
  | nil => simp
  | cons x xs ih =>
    simp only [List.foldlM_cons, List.mapM_cons, bind_assoc, pure_bind, ih, List.append_assoc,
      List.singleton_append]

theorem admissible_map : Admissible ["arr", "f"] "accumulated" :=
  ⟨by decide, by rintro ⟨⟩ <;> decide, by rintro ⟨⟩ <;> decide, by decide, by decide⟩

theorem admissible_reduce : Admissible ["arr", "initial", "f"] "result" :=
  ⟨by decide, by rintro ⟨⟩ <;> decide, by rintro ⟨⟩ <;> decide, by decide, by decide⟩

section Functions

variable {s t u : Store} {j : FrameId} {iter arr v f : Value} {α β : Type} {elem : α → Value}
  {rep : β → Value} (hs : Unshadowed s) (helem : ∀ x, (elem x).isError = false)
include hs helem

theorem yields_mapStep (h : Traversing s ["arr", "f"] [arr, f] iter j t) (hu : t.Keeps u)
    {g : α → Except Fault β} (hf : ∀ i x, Yields s i (.call f [elem x]) (result rep (g x)))
    (ys : List β) (x : α) (vs : List Value) :
    Yields (entered u j "accumulated" (.array (elem x :: vs)) (.array (ys.map rep))) u.next
      (.expr mapStep)
      (result (fun ys => .array (ys.map rep)) (do let y ← g x; pure (ys ++ [y]))) := by
  have hp := admissible_map
  let elems : Value := .array (elem x :: vs)
  let ws : Value := .array (ys.map rep)
  have hget : t.get? j "f" = some f := by
    rw [h.get? _ (by decide)]
    simp [List.lookup_cons]
  have hvar := yields_outer hp h hu elems ws (by decide) hget
  have hfirst := yields_first hs hp h hu ws vs (helem x)
  have hkeeps := (h.keeps.trans hu).trans (keeps_entered u j "accumulated" elems ws)
  have happ := hvar.apply (.sym .openParen) (.cons hfirst (.nil _ _)) ((hf u.next x).mono hkeeps)
  have hpush := yields_builtin_var hs hp h hu elems ws .push
  have hacc := yields_acc hp h hu elems ws
  refine hpush.applied_result (.cons hacc (.nil _ _)) happ fun y => ?_
  refine .builtin (v := .array ((ys ++ [y]).map rep)) ?_ rfl
  rw [List.map_append]
  rfl

/-- `map` applies the function to each element, up to the first fault. -/
theorem yields_map {g : α → Except Fault β}
    (hf : ∀ i x, Yields s i (.call f [elem x]) (result rep (g x))) (xs : List α) (id : Nat)
    (i : FrameId) :
    Yields s i (.call (.function (.func id ["arr", "f"] mapBody 0)) [.array (xs.map elem), f])
      (result (fun ys => .array (ys.map rep)) (xs.mapM g)) := by
  have hcollect : xs.mapM g =
      xs.foldlM (fun ys x => do let y ← g x; pure (ys ++ [y])) ([] : List β) := by
    rw [foldlM_append_singleton]
    simp
  have harr : (["arr", "f"].zip [.array (xs.map elem), f]).lookup "arr" =
      some (Value.array (xs.map elem)) := by simp
  rw [hcollect]
  refine yields_traversal hs admissible_map rfl harr (fun iter j t _ => ?_)
    (fun iter j t h u hu ys x vs => ?_) id i
  · exact (YieldsAll.nil t j).array _
  · exact yields_mapStep hs helem h hu hf ys x vs

theorem yields_reduceStep (h : Traversing s ["arr", "initial", "f"] [arr, v, f] iter j t)
    (hu : t.Keeps u) {g : β → α → Except Fault β}
    (hf : ∀ i b x, Yields s i (.call f [rep b, elem x]) (result rep (g b x))) (b : β) (x : α)
    (vs : List Value) :
    Yields (entered u j "result" (.array (elem x :: vs)) (rep b)) u.next (.expr reduceStep)
      (result rep (g b x)) := by
  have hp := admissible_reduce
  let elems : Value := .array (elem x :: vs)
  have hget : t.get? j "f" = some f := by
    rw [h.get? _ (by decide)]
    simp [List.lookup_cons]
  have hvar := yields_outer hp h hu elems (rep b) (by decide) hget
  have hacc := yields_acc hp h hu elems (rep b)
  have hfirst := yields_first hs hp h hu (rep b) vs (helem x)
  have hkeeps := (h.keeps.trans hu).trans (keeps_entered u j "result" elems (rep b))
  exact hvar.apply _ (.cons hacc (.cons hfirst (.nil _ _))) ((hf u.next b x).mono hkeeps)

/-- `reduce` applies the function to what has been computed and to each element, up to the first
fault. -/
theorem yields_reduce {g : β → α → Except Fault β}
    (hf : ∀ i b x, Yields s i (.call f [rep b, elem x]) (result rep (g b x))) (xs : List α) (b : β)
    (id : Nat) (i : FrameId) :
    Yields s i (.call (.function (.func id ["arr", "initial", "f"] reduceBody 0))
      [.array (xs.map elem), rep b, f]) (result rep (xs.foldlM g b)) := by
  have harr : (["arr", "initial", "f"].zip [.array (xs.map elem), rep b, f]).lookup "arr" =
      some (Value.array (xs.map elem)) := by simp
  refine yields_traversal hs admissible_reduce rfl harr (fun iter j t h => ?_)
    (fun _ _ _ h _ hu => yields_reduceStep hs helem h hu hf) id i
  have hget : t.get? j "initial" = some (rep b) := by
    rw [h.get? _ (by decide)]
    simp [List.lookup_cons]
  exact yields_ident h.lt_next hget _

end Functions

/-! ## Sums of doubles -/

def double (n : Integer) : Except Fault Integer := operate n .star (.ofCount 2)

def add (a b : Integer) : Except Fault Integer := operate a .plus b

/-- What the sum of the doubles is to be, if the numbers may be of any size. -/
def total (xs : List Integer) : Int := (xs.map fun x => 2 * x.val).sum

theorem total_eq (xs : List Integer) : total xs = 2 * (xs.map Integer.val).sum := by
  induction xs with
  | nil => rfl
  | cons x xs ih =>
    rw [total] at ih
    rw [total, List.map_cons, List.map_cons, List.sum_cons, List.sum_cons, ih, Int.mul_add]

theorem total_snoc (xs : List Integer) (x : Integer) :
    total (xs ++ [x]) = total xs + 2 * x.val := by simp [total]

/-- What is computed instead. -/
def doubledSum (xs : List Integer) : Except Fault Integer := do
  let ys ← xs.mapM double
  ys.foldlM add (.ofCount 0)

theorem double_of_inRange {x : Integer} (h : Integer.InRange (2 * x.val)) :
    double x = .ok ⟨2 * x.val, h⟩ := operate_of_eq (Int.mul_comm _ _)

theorem double_of_not_inRange {x : Integer} (h : ¬Integer.InRange (2 * x.val)) :
    double x = .error (.overflow x .star (.ofCount 2)) := by
  apply operate_of_not_inRange
  show ¬Integer.InRange (x.val * 2)
  rwa [Int.mul_comm]

theorem mapM_double {xs : List Integer} (h : ∀ x ∈ xs, Integer.InRange (2 * x.val)) :
    ∃ ys : List Integer, ys.map Integer.val = xs.map (fun x => 2 * x.val) ∧
      xs.mapM double = .ok ys := by
  induction xs with
  | nil => exact ⟨[], rfl, rfl⟩
  | cons x xs ih =>
    obtain ⟨hx, hxs⟩ := List.forall_mem_cons.1 h
    obtain ⟨ys, hys, hmap⟩ := ih hxs
    refine ⟨⟨2 * x.val, hx⟩ :: ys, congrArg (List.cons (2 * x.val)) hys, ?_⟩
    rw [List.mapM_cons, double_of_inRange hx, hmap]
    rfl

/-- Sums are exact as long as they are in range. -/
theorem foldlM_add {ys : List Integer} {a : Integer}
    (h : ∀ k, Integer.InRange (a.val + ((ys.map Integer.val).take k).sum)) :
    ∃ n : Integer, n.val = a.val + (ys.map Integer.val).sum ∧ ys.foldlM add a = .ok n := by
  induction ys generalizing a with
  | nil => exact ⟨a, by simp, rfl⟩
  | cons y ys ih =>
    have hy : Integer.InRange (a.val + y.val) := by simpa using h 1
    obtain ⟨n, hn, hfold⟩ := ih (a := ⟨_, hy⟩) fun k => by
      simpa [Int.add_assoc] using h (k + 1)
    refine ⟨n, ?_, ?_⟩
    · rw [hn, List.map_cons, List.sum_cons, Int.add_assoc]
    · rw [List.foldlM_cons, add, operate_of_eq (c := ⟨_, hy⟩) rfl]
      exact hfold

theorem doubledSum_of_inRange {xs : List Integer} (h : ∀ x ∈ xs, Integer.InRange (2 * x.val))
    (hsums : ∀ front, front <+: xs → Integer.InRange (total front)) :
    ∃ n : Integer, n.val = total xs ∧ doubledSum xs = .ok n := by
  obtain ⟨ys, hys, hmap⟩ := mapM_double h
  have hrange (k : Nat) :
      Integer.InRange ((Integer.ofCount 0).val + ((ys.map Integer.val).take k).sum) := by
    rw [hys, ← List.map_take, show (Integer.ofCount 0).val = 0 from rfl, Int.zero_add]
    exact hsums _ (List.take_prefix k xs)
  obtain ⟨n, hn, hfold⟩ := foldlM_add hrange
  refine ⟨n, ?_, ?_⟩
  · rw [hn, hys]
    exact Int.zero_add _
  · rw [doubledSum, hmap]
    exact hfold

/-- The first double that is out of range is the fault. -/
theorem doubledSum_of_double {front : List Integer} {x : Integer}
    (hfront : ∀ y ∈ front, Integer.InRange (2 * y.val)) (hx : ¬Integer.InRange (2 * x.val))
    (back : List Integer) :
    doubledSum (front ++ x :: back) = .error (.overflow x .star (.ofCount 2)) := by
  obtain ⟨ys, -, hmap⟩ := mapM_double hfront
  rw [doubledSum, List.mapM_append, hmap, List.mapM_cons, double_of_not_inRange hx]
  rfl

/-- Where all doubles are in range, the first sum that is not is the fault. -/
theorem doubledSum_of_sum {front back : List Integer} {x : Integer}
    (h : ∀ y ∈ front ++ x :: back, Integer.InRange (2 * y.val))
    (hsums : ∀ p, p <+: front → Integer.InRange (total p))
    (hx : ¬Integer.InRange (total (front ++ [x]))) :
    ∃ a b : Integer, a.val = total front ∧ b.val = 2 * x.val ∧
      doubledSum (front ++ x :: back) = .error (.overflow a .plus b) := by
  rw [List.forall_mem_append, List.forall_mem_cons] at h
  obtain ⟨hfront, hdouble, hback⟩ := h
  obtain ⟨a, ha, hsum⟩ := doubledSum_of_inRange hfront hsums
  obtain ⟨ys, -, hys⟩ := mapM_double hfront
  obtain ⟨zs, -, hzs⟩ := mapM_double hback
  refine ⟨a, ⟨_, hdouble⟩, ha, rfl, ?_⟩
  have hover : ¬Integer.InRange (a.val + 2 * x.val) := by rwa [ha, ← total_snoc]
  have hadd : add a ⟨_, hdouble⟩ = .error (.overflow a .plus ⟨_, hdouble⟩) :=
    operate_of_not_inRange hover
  have hsum : ys.foldlM add (.ofCount 0) = .ok a := by rwa [doubledSum, hys] at hsum
  rw [doubledSum, List.mapM_append, hys, List.mapM_cons, double_of_inRange hdouble, hzs]
  show (ys ++ ⟨_, hdouble⟩ :: zs).foldlM add (.ofCount 0) = _
  rw [List.foldlM_append, hsum]
  show List.foldlM add a (⟨_, hdouble⟩ :: zs) = _
  rw [List.foldlM_cons, hadd]
  rfl

theorem message_double (x : Integer) : (Fault.overflow x .star (.ofCount 2)).message =
    "integer overflow: " ++ x.val.repr ++ " * 2" := by
  rw [← x.text_eq_repr]
  show "integer overflow: " ++ x.text ++ " " ++ "*" ++ " " ++ "2" = _
  simp only [String.append_assoc]
  rfl

theorem message_add (a b : Integer) : (Fault.overflow a .plus b).message =
    "integer overflow: " ++ a.val.repr ++ " + " ++ b.val.repr := by
  rw [← a.text_eq_repr, ← b.text_eq_repr]
  show "integer overflow: " ++ a.text ++ " " ++ "+" ++ " " ++ b.text = _
  rw [show " + " = " " ++ "+" ++ " " from rfl]
  simp only [String.append_assoc]

/-! ## Running the texts -/

def expression : String :=
  "reduce(map(xs, fn(x) \x7b x * 2 \x7d), 0, fn(acc, x) \x7b acc + x \x7d)"

def doubling : List Stmt :=
  [.expr (.binary (.sym .star) .star (.var "x") (.number "2" 2))]

def adding : List Stmt := [.expr (.binary (.sym .plus) .plus (.var "acc") (.var "x"))]

def mapping : Expr := .applied "map" [.var "xs", .func ["x"] doubling]

def reducing : Expr := .applied "reduce" [mapping, .number "0" 0, .func ["acc", "x"] adding]

theorem parse_expression : Program.parse expression = .ok ⟨[.expr reducing]⟩ := by
  refine (Program.parse_ofList _).trans ?_
  decide +kernel

theorem yields_doubling {s : Store} (hs : 0 < s.next) (id : Nat) (i : FrameId) (n : Integer) :
    Yields s i (.call (.function (.func id ["x"] doubling 0)) [.int n])
      (result .int (double n)) := by
  rw [← caught_result]
  refine .func id rfl fun t ht => ?_
  have hx : Yields (t.addFrame (.ofCall 0 ["x"] [.int n])) t.next (.expr (.var "x"))
      (.ok (.int n)) := yields_var ht hs (by decide) (by simp)
  exact (hx.operate _ .star nofun (yields_int _ _ _ _)).stmt.last

theorem yields_adding {s : Store} (hs : 0 < s.next) (id : Nat) (i : FrameId) (a b : Integer) :
    Yields s i (.call (.function (.func id ["acc", "x"] adding 0)) [.int a, .int b])
      (result .int (add a b)) := by
  rw [← caught_result]
  refine .func id rfl fun t ht => ?_
  have hacc : Yields (t.addFrame (.ofCall 0 ["acc", "x"] [.int a, .int b])) t.next
      (.expr (.var "acc")) (.ok (.int a)) := yields_var ht hs (by decide) (by simp)
  have hx : Yields (t.addFrame (.ofCall 0 ["acc", "x"] [.int a, .int b])) t.next
      (.expr (.var "x")) (.ok (.int b)) := yields_var ht hs (by decide) (by simp [List.lookup_cons])
  exact (hacc.operate _ .plus nofun hx).stmt.last

def map : Value := .function (.func 0 ["arr", "f"] mapBody 0)

def reduce : Value := .function (.func 1 ["arr", "initial", "f"] reduceBody 0)

/-- The store that the definitions leave. -/
def defined : Store where
  frames := #[⟨[("map", map), ("reduce", reduce)], none⟩]
  functions := 2
  output := ""

theorem ends_definitions : Ends 0 (.block definitions) .fresh (.ok reduce) defined := by
  have hmap := ends_named_func 0 "map" ["arr", "f"] mapBody .fresh
  exact hmap.next (ends_named_func 0 "reduce" ["arr", "initial", "f"] reduceBody _).last

theorem get?_defined (v : Value) (y : String) : (defined.set 0 "xs" v).get? 0 y =
    Bindings.find? y [("map", map), ("reduce", reduce), ("xs", v)] := by
  rw [Store.get?_of_frame (f := ⟨[("map", map), ("reduce", reduce), ("xs", v)], none⟩) rfl]
  exact Option.or_none

theorem unshadowed_defined (v : Value) : Unshadowed (defined.set 0 "xs" v) where
  next := Nat.one_pos
  builtin b := by
    rw [get?_defined]
    cases b <;> rfl

theorem ends_mapping (xs : List Integer) :
    let s := defined.set 0 "xs" (.array (xs.map .int))
    ∃ t, Ends 0 (.expr mapping) s (result (fun ys => .array (ys.map .int)) (xs.mapM double)) t ∧
      s.Keeps t := by
  intro s
  have hs : Unshadowed s := unshadowed_defined _
  have hmap : Ends 0 (.expr (.var "map")) s (.ok map) s :=
    ends_ident_of_get? (get?_defined _ "map") _
  have hxs : Ends 0 (.expr (.var "xs")) s (.ok (.array (xs.map .int))) s :=
    ends_ident_of_get? (get?_defined _ "xs") _
  have hkeeps : s.Keeps { s with functions := s.functions + 1 } := Store.keeps_of_frames_eq rfl
  obtain ⟨t, hcall, ht⟩ := yields_map hs (fun _ => rfl) (yields_doubling hs.next s.functions)
    xs 0 0 _ hkeeps
  exact ⟨t, hmap.apply _ (.cons hxs (.cons (ends_func 0 ["x"] doubling s) .nil)) hcall,
    hkeeps.trans ht⟩

theorem ends_reducing (xs : List Integer) :
    let s := defined.set 0 "xs" (.array (xs.map .int))
    ∃ t, Ends 0 (.expr reducing) s (result .int (doubledSum xs)) t ∧ s.Keeps t := by
  intro s
  have hs : Unshadowed s := unshadowed_defined _
  have hreduce : Ends 0 (.expr (.var "reduce")) s (.ok reduce) s :=
    ends_ident_of_get? (get?_defined _ "reduce") _
  obtain ⟨t, hmapping, ht⟩ := ends_mapping xs
  rw [doubledSum]
  cases hys : xs.mapM double with
  | error f =>
    rw [hys] at hmapping
    let hole : Position .expr .expr :=
      .argument (.sym .openParen) (.var "reduce") [] [.number "0" 0, .func ["acc", "x"] adding]
    have hbefore : Passes 0 hole.before s s := .cons hreduce trivial .nil
    exact ⟨t, hole.ends_fill (.expr mapping) hbefore hmapping, ht⟩
  | ok ys =>
    rw [hys] at hmapping
    have hkeeps : s.Keeps { t with functions := t.functions + 1 } :=
      ht.trans (Store.keeps_of_frames_eq rfl)
    have hargs := ListEnds.cons hmapping (.cons (ends_int 0 (.int "0") (.ofCount 0) t)
      (.cons (ends_func 0 ["acc", "x"] adding t) .nil))
    obtain ⟨u, hcall, hu⟩ := yields_reduce hs (fun _ => rfl) (yields_adding hs.next t.functions)
      ys (.ofCount 0) 1 0 _ hkeeps
    exact ⟨u, hreduce.apply _ hargs hcall, hkeeps.trans hu⟩

/-- When the definitions have been run and `xs` has been bound to any array of integers, the
expression comes to an end. If all doubles and all sums are in range, the value is the sum of the
doubles. If not, it is the error for the first double that is out of range, or else for the first
sum. The frame in which the expression is run is left as it was. -/
theorem run_mapReduce : ∃ (w : Value) (s : Store),
    (∃ depth, Store.fresh.run depth 0 source = some (.ok w, s)) ∧
    ∀ xs : List Integer, ∃ depth v t,
      (s.set 0 "xs" (.array (xs.map .int))).run depth 0 expression = some (.ok v, t) ∧
      t.frames[0]? = (s.set 0 "xs" (.array (xs.map .int))).frames[0]? ∧
      ((∀ x ∈ xs, Integer.InRange (2 * x.val)) →
        (∀ front, front <+: xs → Integer.InRange (total front)) →
        ∃ n : Integer, n.val = 2 * (xs.map Integer.val).sum ∧ v = .int n) ∧
      (∀ front x back, xs = front ++ x :: back →
        (∀ y ∈ front, Integer.InRange (2 * y.val)) → ¬Integer.InRange (2 * x.val) →
        v = .error ("integer overflow: " ++ x.val.repr ++ " * 2")) ∧
      ((∀ x ∈ xs, Integer.InRange (2 * x.val)) → ∀ front x back, xs = front ++ x :: back →
        (∀ p, p <+: front → Integer.InRange (total p)) → ¬Integer.InRange (total (front ++ [x])) →
        v = .error ("integer overflow: " ++ (total front).repr ++ " + " ++ (2 * x.val).repr)) := by
  refine ⟨reduce, defined, Store.run_of_ends parse_source ends_definitions, fun xs => ?_⟩
  obtain ⟨t, hends, hkeeps⟩ := ends_reducing xs
  obtain ⟨depth, hrun⟩ := Store.run_of_ends parse_expression hends.stmt.last
  refine ⟨depth, _, t, hrun, hkeeps 0 _ rfl, fun h hsums => ?_, ?_, ?_⟩
  · obtain ⟨n, hn, hsum⟩ := doubledSum_of_inRange h hsums
    rw [hsum]
    exact ⟨n, hn.trans (total_eq xs), rfl⟩
  · rintro front x back rfl hfront hx
    rw [doubledSum_of_double hfront hx back, ← message_double]
    rfl
  · rintro h front x back rfl hsums hx
    obtain ⟨a, b, ha, hb, hsum⟩ := doubledSum_of_sum h hsums hx
    rw [hsum, ← ha, ← hb, ← message_add]
    rfl

/-- Four integers are doubled and added; a sum may be out of range, although all doubles are in range,
and the sum of all would be; and a double that is out of range comes before any sum. -/
theorem run_mapReduce_overflow : ∃ (w : Value) (s : Store),
    (∃ depth, Store.fresh.run depth 0 source = some (.ok w, s)) ∧
    (∃ depth t, (s.set 0 "xs" (.array [.int (.ofCount 1), .int (.ofCount 2), .int (.ofCount 3),
      .int (.ofCount 4)])).run depth 0 expression = some (.ok (.int (.ofCount 20)), t)) ∧
    (∃ depth t, (s.set 0 "xs" (.array [.int (.ofCount 1), .int ⟨4611686018427387903, by decide⟩,
      .int ⟨-3, by decide⟩])).run depth 0 expression =
        some (.ok (.error "integer overflow: 2 + 9223372036854775806"), t)) ∧
    ∃ depth t, (s.set 0 "xs" (.array [.int ⟨4611686018427387903, by decide⟩, .int (.ofCount 1),
      .int ⟨-4611686018427387905, by decide⟩])).run depth 0 expression =
        some (.ok (.error "integer overflow: -4611686018427387905 * 2"), t) := by
  obtain ⟨w, s, hsource, h⟩ := run_mapReduce
  refine ⟨w, s, hsource, ?_, ?_, ?_⟩
  · obtain ⟨depth, v, t, hrun, -, hv, -⟩ := h [.ofCount 1, .ofCount 2, .ofCount 3, .ofCount 4]
    have hsums : ∀ p ∈ List.inits [Integer.ofCount 1, .ofCount 2, .ofCount 3, .ofCount 4],
      Integer.InRange (total p) := by decide
    obtain ⟨n, hn, rfl⟩ := hv (by decide) fun p hp => hsums p ((List.mem_inits _ _).2 hp)
    have hn : n = .ofCount 20 := Integer.ext hn
    rw [hn] at hrun
    exact ⟨depth, t, hrun⟩
  · obtain ⟨depth, v, t, hrun, -, -, -, hv⟩ :=
      h [.ofCount 1, ⟨4611686018427387903, by decide⟩, ⟨-3, by decide⟩]
    have hsums : ∀ p ∈ List.inits [Integer.ofCount 1], Integer.InRange (total p) := by decide
    have hv := hv (by decide) [.ofCount 1] _ _ rfl
      (fun p hp => hsums p ((List.mem_inits _ _).2 hp)) (by decide)
    rw [hv] at hrun
    exact ⟨depth, t, hrun⟩
  · obtain ⟨depth, v, t, hrun, -, -, hv, -⟩ :=
      h [⟨4611686018427387903, by decide⟩, .ofCount 1, ⟨-4611686018427387905, by decide⟩]
    have hv := hv [⟨4611686018427387903, by decide⟩, .ofCount 1] _ [] rfl (by decide) (by decide)
    rw [hv] at hrun
    exact ⟨depth, t, hrun⟩

end Monkey.MapReduce
