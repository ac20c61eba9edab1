import Mathlib.Order.Filter.AtTopBot.Basic
import Monkey.Eval.Depth
import Monkey.Proofs.Eval.Inside
import Monkey.Proofs.Value.Table

/-! # How evaluations end

The depth that an evaluation may go to decides whether it is cut off, and nothing else. `Eval.Ends`
leaves it out: an evaluation ends in some way if it does so within some depth. It then does so within
every greater depth (`Ends.eventually`), and can end in no other way (`Ends.unique`).

Parts that end, each within a depth of its own, end together within all depths that are great enough.
So there is one rule for each node that says how it ends if its parts do.
-/

namespace Monkey.Eval

open Filter

variable {i : FrameId} {a : Job} {s t u : Store} {r r' : Except Signal Value} {v w : Value}

theorem Job.run_mono {m n : Nat} (h : m ≤ n) (i : FrameId) (a : Job) :
    Below (a.run m i) (a.run n i) := by
  cases a with
  | expr e => exact expr_mono h i e
  | stmt c => exact stmt_mono h i c
  | block ss => exact .sequence ss (stmt_mono h i)
  | call v vs => exact .call (fun j ss => .sequence ss (stmt_mono h j)) v vs

/-- Evaluated in the frame `i` of the store `s`, `a` ends with `r` and leaves the store `t`. -/
def Ends (i : FrameId) (a : Job) (s : Store) (r : Except Signal Value) (t : Store) : Prop :=
  ∃ depth, a.run depth i s = some (r, t)

namespace Ends

theorem eventually (h : Ends i a s r t) : ∀ᶠ n in atTop, a.run n i s = some (r, t) := by
  obtain ⟨depth, h⟩ := h
  filter_upwards [eventually_ge_atTop depth] with n hn
  exact Job.run_mono hn i a s _ h

theorem unique (h : Ends i a s r t) (h' : Ends i a s r' u) : r = r' ∧ t = u := by
  obtain ⟨n, hn, hn'⟩ := (h.eventually.and h'.eventually).exists
  rw [hn] at hn'
  cases hn'
  exact ⟨rfl, rfl⟩

end Ends

/-! ## Names and functions -/

theorem ends_ident_of_get? {x : String} (h : s.get? i x = some v) (token : Token) :
    Ends i (.expr (.ident ⟨token, x⟩)) s (.ok v) s := ⟨1, name_of_get? h⟩

theorem ends_ident_of_none {x : String} (h : s.get? i x = none) (token : Token) :
    Ends i (.expr (.ident ⟨token, x⟩)) s
      ((Builtin.ofName? x).elim (.error (.raised (.unbound x))) (.ok ∘ .builtin)) s := by
  have hask : ask (·.get? i x) s = some (.ok none, s) := by rw [ask, h]
  refine ⟨1, (bind_of_ok hask).trans ?_⟩
  cases Builtin.ofName? x <;> rfl

theorem ends_fn (i : FrameId) (token : Token) (params : List Ident) (body : Block) (s : Store) :
    Ends i (.expr (.fn token params body)) s (.ok (.function ⟨s.functions, params, body, i⟩))
      { s with functions := s.functions + 1 } := ⟨1, rfl⟩

/-! ## Operators -/

/-- A fault that is there in place of a value is raised. -/
theorem ofExcept_apply {α : Type} (x : Except Fault α) (s : Store) :
    ofExcept x s = some (x.mapError .raised, s) := by
  cases x <;> rfl

theorem ends_int (i : FrameId) (token : Token) (n : Integer) (s : Store) :
    Ends i (.expr (.int token n)) s (.ok (.int n)) s := ⟨1, rfl⟩

namespace Ends

variable {e l r : Expr}

theorem unary (token : Token) (op : UnaryOp) (h : Ends i (.expr e) s (.ok v) t) :
    Ends i (.expr (.unary token op e)) s ((Eval.unary op v).mapError .raised) t := by
  obtain ⟨n, hn⟩ := h
  exact ⟨n + 1, (bind_of_ok hn).trans (ofExcept_apply _ t)⟩

theorem binary (token : Token) (op : BinaryOp) (hl : Ends i (.expr l) s (.ok v) t)
    (hr : Ends i (.expr r) t (.ok w) u) :
    Ends i (.expr (.binary token op l r)) s ((Eval.binary op v w).mapError .raised) u := by
  obtain ⟨n, hl, hr⟩ := (hl.eventually.and hr.eventually).exists
  exact ⟨n + 1, (bind_of_ok hl).trans ((bind_of_ok hr).trans (ofExcept_apply _ u))⟩

end Ends

/-! ## Conditions and statements -/

namespace Ends

variable {c e : Expr} {b a : Block} {ss : List Stmt} {d : Stmt}

theorem cond (token : Token) (hc : Ends i (.expr c) s (.ok v) t) (hv : v.isTruthy = true)
    (hb : Ends i (.block b.statements) t r u) (a? : Option Block) :
    Ends i (.expr (.cond token c b a?)) s r u := by
  obtain ⟨n, hc, hb⟩ := (hc.eventually.and hb.eventually).exists
  exact ⟨n + 1, (bind_of_ok hc).trans ((congrFun (if_pos hv) t).trans hb)⟩

theorem condElse (token : Token) (hc : Ends i (.expr c) s (.ok v) t) (hv : v.isTruthy = false)
    (b : Block) (ha : Ends i (.block a.statements) t r u) :
    Ends i (.expr (.cond token c b (some a))) s r u := by
  obtain ⟨n, hc, ha⟩ := (hc.eventually.and ha.eventually).exists
  exact ⟨n + 1, (bind_of_ok hc).trans ((congrFun (if_neg (Bool.eq_false_iff.1 hv)) t).trans ha)⟩

/-- Without an alternative, the value is `null`. -/
theorem condNone (token : Token) (hc : Ends i (.expr c) s (.ok v) t) (hv : v.isTruthy = false)
    (b : Block) : Ends i (.expr (.cond token c b none)) s (.ok .null) t := by
  obtain ⟨n, hc⟩ := hc
  exact ⟨n + 1, (bind_of_ok hc).trans (congrFun (if_neg (Bool.eq_false_iff.1 hv)) t)⟩

theorem stmt (h : Ends i (.expr e) s r t) : Ends i (.stmt (.expr e)) s r t := by
  obtain ⟨n, h⟩ := h
  exact ⟨n + 1, h⟩

theorem ret (token : Token) (h : Ends i (.expr e) s (.ok v) t) :
    Ends i (.stmt (.ret token (some e))) s (.error (.returned v)) t := by
  obtain ⟨n, h⟩ := h
  exact ⟨n + 1, bind_of_ok h⟩

theorem bind (token : Token) (x : Ident) (h : Ends i (.expr e) s (.ok v) t) :
    Ends i (.stmt (.bind token x e)) s (.ok v) (t.set i x.name v) := by
  obtain ⟨n, h⟩ := h
  exact ⟨n + 1, bind_of_ok h⟩

/-- The last statement of a block has the last word. -/
theorem last (h : Ends i (.stmt d) s r t) : Ends i (.block [d]) s r t := by
  obtain ⟨n, h⟩ := h
  refine ⟨n, ?_⟩
  rw [Job.run, sequence, List.foldlM_cons]
  exact (congrFun (bind_pure_self _) s).trans h

/-- The value of any other statement is forgotten. -/
theorem next {d' : Stmt} (hd : Ends i (.stmt d) s (.ok v) t) (hss : Ends i (.block (d' :: ss)) t r u) :
    Ends i (.block (d :: d' :: ss)) s r u := by
  obtain ⟨n, hd, hss⟩ := (hd.eventually.and hss.eventually).exists
  refine ⟨n, ?_⟩
  rw [Job.run, sequence, List.foldlM_cons]
  exact (bind_of_ok hd).trans hss

end Ends

/-! ## Lists of expressions -/

/-- Expressions are evaluated one after the other. All end normally. -/
inductive ListEnds (i : FrameId) : List Expr → Store → List Value → Store → Prop where
  | nil {s : Store} : ListEnds i [] s [] s
  | cons {e : Expr} {es : List Expr} {v : Value} {vs : List Value} {s t u : Store}
      (he : Ends i (.expr e) s (.ok v) t) (hes : ListEnds i es t vs u) :
      ListEnds i (e :: es) s (v :: vs) u

theorem ListEnds.eventually {es : List Expr} {vs : List Value} (h : ListEnds i es s vs t) :
    ∀ᶠ n in atTop, es.mapM (expr n i) s = some (.ok vs, t) := by
  induction h with
  | nil => exact .of_forall fun _ => rfl
  | @cons e _ _ _ _ _ _ he _ ih =>
    filter_upwards [he.eventually, ih] with n he ih
    rw [List.mapM_cons, bind_of_ok (x := expr n i e) he, bind_of_ok ih]
    rfl

theorem ListEnds.append {ds es : List Expr} {vs ws : List Value} (hds : ListEnds i ds s vs t)
    (hes : ListEnds i es t ws u) : ListEnds i (ds ++ es) s (vs ++ ws) u := by
  induction hds with
  | nil => exact hes
  | cons hd _ ih => exact .cons hd (ih hes)

theorem ListEnds.array {es : List Expr} {vs : List Value} (h : ListEnds i es s vs t)
    (token : Token) : Ends i (.expr (.array token es)) s (.ok (.array vs)) t := by
  obtain ⟨n, h⟩ := h.eventually.exists
  exact ⟨n + 1, bind_of_ok h⟩

/-- A call ends as what is called does with the arguments. -/
theorem Ends.apply {f : Expr} {es : List Expr} {vs : List Value} {w : Store} (token : Token)
    (hf : Ends i (.expr f) s (.ok v) t) (hes : ListEnds i es t vs u)
    (hcall : Ends i (.call v vs) u r w) : Ends i (.expr (.call token f es)) s r w := by
  obtain ⟨n, hf, hes, hcall⟩ := (hf.eventually.and (hes.eventually.and hcall.eventually)).exists
  exact ⟨n + 1, (bind_of_ok hf).trans ((bind_of_ok hes).trans hcall)⟩

/-! ## Pairs of a hash -/

/-- The keys and values of a hash are evaluated one after the other. All end normally, and the first
of each two values is a key. -/
inductive PairsEnd (i : FrameId) :
    List (Expr × Expr) → Store → List (Key × Entry Value) → Store → Prop where
  | nil {s : Store} : PairsEnd i [] s [] s
  | cons {p : Expr × Expr} {ps : List (Expr × Expr)} {kvs : List (Key × Entry Value)} {k : Key}
      {c v : Value} {s t u w : Store} (hk : c.key? = some k)
      (hc : Ends i (.expr p.1) s (.ok c) t) (hv : Ends i (.expr p.2) t (.ok v) u)
      (hps : PairsEnd i ps u kvs w) : PairsEnd i (p :: ps) s ((k, ⟨c, v⟩) :: kvs) w

namespace PairsEnd

variable {ps : List (Expr × Expr)} {kvs : List (Key × Entry Value)}

theorem keyed (h : PairsEnd i ps s kvs t) : Table.Keyed kvs := by
  induction h with
  | nil => exact fun _ _ hmem => nomatch hmem
  | cons hk _ _ _ ih =>
    intro l d hmem
    rcases List.mem_cons.1 hmem with heq | hmem
    · cases heq
      exact hk
    · exact ih l d hmem

theorem addPair_of_ok {f : Expr → Eval Value} {p : Expr × Expr} {k : Key} {c : Value}
    (hk : c.key? = some k) (hc : f p.1 s = some (.ok c, t)) (hv : f p.2 t = some (.ok v, u))
    (table : Table (Entry Value)) :
    addPair f table p s = some (.ok (table.insert k ⟨c, v⟩), u) := by
  have hkey : Eval.key c = .ok k := by rw [Eval.key, hk]
  rw [addPair, bind_of_ok hc, hkey]
  exact bind_of_ok hv

theorem eventually (h : PairsEnd i ps s kvs t) : ∀ᶠ n in atTop, ∀ table : Table (Entry Value),
    ps.foldlM (addPair (expr n i)) table s = some (.ok (table.insertAll kvs), t) := by
  induction h with
  | nil => exact .of_forall fun _ _ => rfl
  | cons hk hc hv _ ih =>
    filter_upwards [hc.eventually, hv.eventually, ih] with n hc hv ih table
    rw [List.foldlM_cons, bind_of_ok (addPair_of_ok hk hc hv table), ih]
    rfl

theorem ends_hash (h : PairsEnd i ps s kvs t) (token : Token) :
    Ends i (.expr (.hash token ps)) s (.ok (.hash (Table.ofPairs kvs))) t := by
  obtain ⟨n, h⟩ := h.eventually.exists
  exact ⟨n + 1, bind_of_ok (h [])⟩

end PairsEnd
end Monkey.Eval
