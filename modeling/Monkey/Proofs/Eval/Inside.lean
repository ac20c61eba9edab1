import Mathlib.Logic.Relation
import Monkey.Eval.Program

/-! # What is evaluated inside an evaluation

In the course of an evaluation, others are begun and come to their ends: those of the parts of an
expression, of the statements of a block, and of the calls. `Eval.Point` is the beginning of an
evaluation, together with the store that is found there, and `Eval.Point.Enters` says which ones are
begun directly by another. There is one rule for each place where something is evaluated. All that
comes before that place must have come to a normal end: nothing is begun behind a signal.

The rules say neither too much nor too little. What is entered is evaluated there: where it is cut
off or stops early, so does the rest (`Point.Enters.leads`). And an evaluation that is cut off has
entered another, and this one the next, down to the depth `0` (`Point.run_eq_none_iff_exists`).
-/

namespace Monkey.Eval

variable {α β : Type}

/-! ## Where evaluations are cut off -/

theorem bind_eq_none_iff {x : Eval α} {f : α → Eval β} {s : Store} :
    (x >>= f) s = none ↔ x s = none ∨ ∃ a t, x s = some (.ok a, t) ∧ f a t = none := by
  rcases h : x s with _ | ⟨e | a, t⟩
  · simp [bind_of_none h]
  · simp [bind_of_error h]
  · rw [bind_of_ok h]
    constructor
    · intro hf
      exact .inr ⟨a, t, rfl, hf⟩
    · rintro (h | ⟨_, _, ⟨⟩, hf⟩)
      · cases h
      · exact hf

theorem returning_eq_none_iff {x : Eval Value} {s : Store} : returning x s = none ↔ x s = none := by
  rw [returning]
  rcases x s with _ | ⟨(v | f) | v, t⟩ <;> simp

/-- A list is gone through up to some element. -/
theorem exists_of_foldlM_eq_none {f : β → α → Eval β} {l : List α} {b : β} {s : Store}
    (h : l.foldlM f b s = none) : ∃ before a after c t, l = before ++ a :: after ∧
      before.foldlM f b s = some (.ok c, t) ∧ f c a t = none := by
  induction l generalizing b s with
  | nil => cases h
  | cons a l ih =>
    rw [List.foldlM_cons, bind_eq_none_iff] at h
    rcases h with h | ⟨c, t, hc, h⟩
    · exact ⟨[], a, l, b, s, rfl, rfl, h⟩
    · obtain ⟨before, a', after, d, u, rfl, hd, hf⟩ := ih h
      refine ⟨a :: before, a', after, d, u, rfl, ?_, hf⟩
      rw [List.foldlM_cons, bind_of_ok hc, hd]

theorem exists_of_mapM_eq_none {f : α → Eval β} {l : List α} {s : Store}
    (h : l.mapM f s = none) : ∃ before a after bs t, l = before ++ a :: after ∧
      before.mapM f s = some (.ok bs, t) ∧ f a t = none := by
  induction l generalizing s with
  | nil => cases h
  | cons a l ih =>
    rw [List.mapM_cons, bind_eq_none_iff] at h
    rcases h with h | ⟨b, t, hb, h⟩
    · exact ⟨[], a, l, [], s, rfl, rfl, h⟩
    · rcases bind_eq_none_iff.1 h with h | ⟨_, _, -, h⟩
      · obtain ⟨before, a', after, bs, u, rfl, hbs, hf⟩ := ih h
        refine ⟨a :: before, a', after, b :: bs, u, rfl, ?_, hf⟩
        rw [List.mapM_cons, bind_of_ok hb, bind_of_ok hbs]
        rfl
      · cases h

theorem ofExcept_ne_none (a : Except Fault α) (s : Store) : ofExcept a s ≠ none := by
  cases a <;> exact nofun

theorem name_ne_none (i : FrameId) (x : String) (s : Store) : name i x s ≠ none := by
  intro h
  rw [name, bind_eq_none_iff] at h
  rcases h with h | ⟨v?, t, -, h⟩
  · cases h
  · cases v? with
    | some v => cases h
    | none => rcases hb : Builtin.ofName? x with _ | b <;> rw [hb] at h <;> cases h

/-- A name that is bound stands for what it is bound to. -/
theorem name_of_get? {i : FrameId} {x : String} {s : Store} {v : Value}
    (h : s.get? i x = some v) : name i x s = some (.ok v, s) := by
  have hask : ask (·.get? i x) s = some (.ok (some v), s) := by rw [ask, h]
  rw [name, bind_of_ok hask]
  rfl

theorem callBuiltin_ne_none (b : Builtin) (args : List Value) (s : Store) :
    callBuiltin b args s ≠ none := by
  intro h
  rw [callBuiltin, bind_eq_none_iff] at h
  rcases h with h | ⟨_, t, -, h⟩
  · cases h
  · rcases hv : b.answer args <;> rw [hv] at h <;> cases h

/-! ## Where evaluations lead to -/

/-- In its course `x`, started in `s`, comes to `y` in the store `t`. If `y` is cut off there, so is
`x`, and a signal of `y` is the last that happens. -/
structure Leads (x : Eval α) (s : Store) (y : Eval β) (t : Store) : Prop where
  spent : y t = none → x s = none
  signal : ∀ e u, y t = some (.error e, u) → x s = some (.error e, u)

namespace Leads

variable {γ : Type} {x : Eval α} {y : Eval β} {s t u : Store}

theorem of_eq {x y : Eval α} (h : x s = y t) : Leads x s y t :=
  ⟨h.trans, fun _ _ => h.trans⟩

theorem refl (x : Eval α) (s : Store) : Leads x s x s := of_eq rfl

theorem bind (h : Leads x s y t) (f : α → Eval γ) : Leads (x >>= f) s y t where
  spent hy := bind_of_none (h.spent hy)
  signal e u hy := bind_of_error (h.signal e u hy)

theorem of_ok {a : α} {f : α → Eval γ} (hx : x s = some (.ok a, t)) (h : Leads (f a) t y u) :
    Leads (x >>= f) s y u where
  spent hy := (bind_of_ok hx).trans (h.spent hy)
  signal e v hy := (bind_of_ok hx).trans (h.signal e v hy)

theorem foldlM {f : γ → α → Eval γ} {before after : List α} {a : α} {b c : γ}
    (hbefore : before.foldlM f b s = some (.ok c, t)) (h : Leads (f c a) t y u) :
    Leads ((before ++ a :: after).foldlM f b) s y u := by
  rw [List.foldlM_append]
  refine of_ok hbefore ?_
  rw [List.foldlM_cons]
  exact h.bind _

theorem mapM {f : α → Eval γ} {before after : List α} {a : α} {cs : List γ}
    (hbefore : before.mapM f s = some (.ok cs, t)) :
    Leads ((before ++ a :: after).mapM f) s (f a) t := by
  rw [List.mapM_append]
  refine of_ok hbefore ?_
  rw [List.mapM_cons]
  exact ((refl _ _).bind _).bind _

end Leads

/-! ## Points -/

/-- What there is to evaluate. -/
inductive Job where
  | expr (e : Expr)
  | stmt (c : Stmt)
  /-- Statements that are run one after the other. -/
  | block (ss : List Stmt)
  | call (callee : Value) (args : List Value)

def Job.run (depth : Nat) (scope : FrameId) : Job → Eval Value
  | .expr e => Eval.expr depth scope e
  | .stmt c => Eval.stmt depth scope c
  | .block ss => sequence (Eval.stmt depth scope) ss
  | .call callee args => Eval.call (fun frame => sequence (Eval.stmt depth frame)) callee args

/-- Where an evaluation begins. -/
structure Point where
  depth : Nat
  scope : FrameId
  job : Job
  store : Store

namespace Point

def eval (a : Point) : Eval Value := a.job.run a.depth a.scope

/-- How the evaluation ends, unless it is cut off. -/
def run (a : Point) : Option (Except Signal Value × Store) := a.eval a.store

/-- The evaluation that begins at the one point begins the evaluation at the other, as a part of
itself. -/
inductive Enters : Point → Point → Prop where
  | operand {n i s token op e} :
      Enters ⟨n + 1, i, .expr (.unary token op e), s⟩ ⟨n, i, .expr e, s⟩
  | left {n i s token op l r} :
      Enters ⟨n + 1, i, .expr (.binary token op l r), s⟩ ⟨n, i, .expr l, s⟩
  | right {n i s token op l r v t} (hl : expr n i l s = some (.ok v, t)) :
      Enters ⟨n + 1, i, .expr (.binary token op l r), s⟩ ⟨n, i, .expr r, t⟩
  | condition {n i s token c b a?} :
      Enters ⟨n + 1, i, .expr (.cond token c b a?), s⟩ ⟨n, i, .expr c, s⟩
  | consequence {n i s token c b a? v t} (hc : expr n i c s = some (.ok v, t))
      (hv : v.isTruthy = true) :
      Enters ⟨n + 1, i, .expr (.cond token c b a?), s⟩ ⟨n, i, .block b.statements, t⟩
  | alternative {n i s token c b a v t} (hc : expr n i c s = some (.ok v, t))
      (hv : v.isTruthy = false) :
      Enters ⟨n + 1, i, .expr (.cond token c b (some a)), s⟩ ⟨n, i, .block a.statements, t⟩
  | callee {n i s token f args} :
      Enters ⟨n + 1, i, .expr (.call token f args), s⟩ ⟨n, i, .expr f, s⟩
  | argument {n i s token f before e after v t vs u} (hf : expr n i f s = some (.ok v, t))
      (hbefore : before.mapM (expr n i) t = some (.ok vs, u)) :
      Enters ⟨n + 1, i, .expr (.call token f (before ++ e :: after)), s⟩ ⟨n, i, .expr e, u⟩
  | call {n i s token f args v t vs u} (hf : expr n i f s = some (.ok v, t))
      (hargs : args.mapM (expr n i) t = some (.ok vs, u)) :
      Enters ⟨n + 1, i, .expr (.call token f args), s⟩ ⟨n, i, .call v vs, u⟩
  | element {n i s token before e after vs t}
      (hbefore : before.mapM (expr n i) s = some (.ok vs, t)) :
      Enters ⟨n + 1, i, .expr (.array token (before ++ e :: after)), s⟩ ⟨n, i, .expr e, t⟩
  | indexed {n i s token l r} :
      Enters ⟨n + 1, i, .expr (.index token l r), s⟩ ⟨n, i, .expr l, s⟩
  | index {n i s token l r v t} (hl : expr n i l s = some (.ok v, t)) :
      Enters ⟨n + 1, i, .expr (.index token l r), s⟩ ⟨n, i, .expr r, t⟩
  | key {n i s token before p after table t}
      (hbefore : before.foldlM (addPair (expr n i)) [] s = some (.ok table, t)) :
      Enters ⟨n + 1, i, .expr (.hash token (before ++ p :: after)), s⟩ ⟨n, i, .expr p.1, t⟩
  | value {n i s token before p after table t v k u}
      (hbefore : before.foldlM (addPair (expr n i)) [] s = some (.ok table, t))
      (hkey : expr n i p.1 t = some (.ok v, u)) (hv : Eval.key v = .ok k) :
      Enters ⟨n + 1, i, .expr (.hash token (before ++ p :: after)), s⟩ ⟨n, i, .expr p.2, u⟩
  | bound {n i s token x e} :
      Enters ⟨n + 1, i, .stmt (.bind token x e), s⟩ ⟨n, i, .expr e, s⟩
  | returned {n i s token e} :
      Enters ⟨n + 1, i, .stmt (.ret token (some e)), s⟩ ⟨n, i, .expr e, s⟩
  | expression {n i s e} : Enters ⟨n + 1, i, .stmt (.expr e), s⟩ ⟨n, i, .expr e, s⟩
  | block {n i s b} : Enters ⟨n + 1, i, .stmt (.block b), s⟩ ⟨n, i, .block b.statements, s⟩
  | statement {n i s before c after v t}
      (hbefore : sequence (stmt n i) before s = some (.ok v, t)) :
      Enters ⟨n, i, .block (before ++ c :: after), s⟩ ⟨n, i, .stmt c, t⟩
  /-- The body of a function is run in a new frame. -/
  | body {n i s f args} (h : f.params.length = args.length) :
      Enters ⟨n, i, .call (.function f) args, s⟩ ⟨n, s.next, .block f.body.statements,
        s.addFrame (.ofCall f.scope (f.params.map Ident.name) args)⟩

variable {a b : Point}

/-- Evaluations lead to those that they enter. Only the call of a function catches a `return`. -/
theorem Enters.leads (h : Enters a b) :
    Leads a.eval a.store b.eval b.store ∨
      (∃ f args, a.job = .call (.function f) args) ∧ a.run = returning b.eval b.store := by
  cases h with
  | operand | left | condition | callee | indexed | bound | returned =>
    exact .inl ((Leads.refl _ _).bind _)
  | right hl | index hl => exact .inl (.of_ok hl ((Leads.refl _ _).bind _))
  | consequence hc hv =>
    refine .inl (.of_ok hc ?_)
    rw [if_pos hv]
    exact .refl _ _
  | alternative hc hv =>
    refine .inl (.of_ok hc ?_)
    rw [if_neg (Bool.eq_false_iff.1 hv)]
    exact .refl _ _
  | argument hf hbefore => exact .inl (.of_ok hf ((Leads.mapM hbefore).bind _))
  | call hf hargs => exact .inl (.of_ok hf (.of_ok hargs (.refl _ _)))
  | element hbefore => exact .inl ((Leads.mapM hbefore).bind _)
  | key hbefore => exact .inl ((Leads.foldlM hbefore ((Leads.refl _ _).bind _)).bind _)
  | value hbefore hkey hv =>
    refine .inl ((Leads.foldlM hbefore (.of_ok hkey ?_)).bind _)
    rw [hv]
    exact (Leads.refl _ _).bind _
  | expression | block => exact .inl (.refl _ _)
  | statement hbefore => exact .inl (.foldlM hbefore (.refl _ _))
  | body h =>
    refine .inr ⟨⟨_, _, rfl⟩, ?_⟩
    simp only [run, eval, Job.run, Eval.call, if_pos h]
    rfl

theorem Enters.run_eq_none (h : Enters a b) (hb : b.run = none) : a.run = none := by
  rcases h.leads with hab | ⟨-, hab⟩
  · exact hab.spent hb
  · exact hab.trans (returning_eq_none_iff.2 hb)

/-- There is something to do, and it may go no level deep. -/
def AtBottom (a : Point) : Prop :=
  a.depth = 0 ∧ ((∃ e, a.job = .expr e) ∨ ∃ c, a.job = .stmt c)

/-! ### Nothing else is entered -/

section Spent

variable {n : Nat} {i : FrameId} {s : Store}

theorem exists_enters_of_expr_eq_none {e : Expr} (h : expr (n + 1) i e s = none) :
    ∃ b, Enters ⟨n + 1, i, .expr e, s⟩ b ∧ b.run = none := by
  cases e with
  | ident x => exact absurd h (name_ne_none i x.name s)
  | int | str | bool | fn => cases h
  | unary token op e =>
    rcases bind_eq_none_iff.1 h with h | ⟨v, t, -, h⟩
    · exact ⟨_, .operand, h⟩
    · exact absurd h (ofExcept_ne_none _ t)
  | binary token op l r =>
    rcases bind_eq_none_iff.1 h with h | ⟨v, t, hl, h⟩
    · exact ⟨_, .left, h⟩
    · rcases bind_eq_none_iff.1 h with h | ⟨w, u, -, h⟩
      · exact ⟨_, .right hl, h⟩
      · exact absurd h (ofExcept_ne_none _ u)
  | cond token c b a? =>
    rcases bind_eq_none_iff.1 h with h | ⟨v, t, hc, h⟩
    · exact ⟨_, .condition, h⟩
    · by_cases hv : v.isTruthy = true
      · rw [if_pos hv] at h
        exact ⟨_, .consequence hc hv, h⟩
      · rw [if_neg hv] at h
        cases a? with
        | none => cases h
        | some a => exact ⟨_, .alternative hc (Bool.eq_false_iff.2 hv), h⟩
  | call token f args =>
    rcases bind_eq_none_iff.1 h with h | ⟨v, t, hf, h⟩
    · exact ⟨_, .callee, h⟩
    · rcases bind_eq_none_iff.1 h with h | ⟨vs, u, hargs, h⟩
      · obtain ⟨before, e, after, vs, u, rfl, hbefore, h⟩ := exists_of_mapM_eq_none h
        exact ⟨_, .argument hf hbefore, h⟩
      · exact ⟨_, .call hf hargs, h⟩
  | array token es =>
    rcases bind_eq_none_iff.1 h with h | ⟨vs, t, -, h⟩
    · obtain ⟨before, e, after, vs, t, rfl, hbefore, h⟩ := exists_of_mapM_eq_none h
      exact ⟨_, .element hbefore, h⟩
    · cases h
  | index token l r =>
    rcases bind_eq_none_iff.1 h with h | ⟨v, t, hl, h⟩
    · exact ⟨_, .indexed, h⟩
    · rcases bind_eq_none_iff.1 h with h | ⟨w, u, -, h⟩
      · exact ⟨_, .index hl, h⟩
      · exact absurd h (ofExcept_ne_none _ u)
  | hash token ps =>
    rcases bind_eq_none_iff.1 h with h | ⟨table, t, -, h⟩
    · obtain ⟨before, p, after, table, t, rfl, hbefore, h⟩ := exists_of_foldlM_eq_none h
      rcases bind_eq_none_iff.1 h with h | ⟨v, u, hkey, h⟩
      · exact ⟨_, .key hbefore, h⟩
      · rcases hv : Eval.key v with fault | k <;> rw [hv] at h
        · cases h
        · rcases bind_eq_none_iff.1 h with h | ⟨_, _, ⟨⟩, h⟩
          · cases h
          · rcases bind_eq_none_iff.1 h with h | ⟨w, _, -, h⟩
            · exact ⟨_, .value hbefore hkey hv, h⟩
            · cases h
    · cases h

theorem exists_enters_of_stmt_eq_none {c : Stmt} (h : stmt (n + 1) i c s = none) :
    ∃ b, Enters ⟨n + 1, i, .stmt c, s⟩ b ∧ b.run = none := by
  cases c with
  | bind token x e =>
    rcases bind_eq_none_iff.1 h with h | ⟨v, t, -, h⟩
    · exact ⟨_, .bound, h⟩
    · cases h
  | ret token e? =>
    cases e? with
    | none => cases h
    | some e =>
      rcases bind_eq_none_iff.1 h with h | ⟨v, t, -, h⟩
      · exact ⟨_, .returned, h⟩
      · cases h
  | expr e => exact ⟨_, .expression, h⟩
  | block b => exact ⟨_, .block, h⟩

theorem exists_enters_of_block_eq_none {ss : List Stmt} (h : sequence (stmt n i) ss s = none) :
    ∃ b, Enters ⟨n, i, .block ss, s⟩ b ∧ b.run = none := by
  obtain ⟨before, c, after, v, t, rfl, hbefore, h⟩ := exists_of_foldlM_eq_none h
  exact ⟨_, .statement hbefore, h⟩

theorem exists_enters_of_call_eq_none {v : Value} {vs : List Value}
    (h : Eval.call (fun frame => sequence (stmt n frame)) v vs s = none) :
    ∃ b, Enters ⟨n, i, .call v vs, s⟩ b ∧ b.run = none := by
  cases v with
  | function f =>
    by_cases hlen : f.params.length = vs.length
    · simp only [Eval.call, if_pos hlen] at h
      exact ⟨_, .body hlen, returning_eq_none_iff.1 h⟩
    · simp only [Eval.call, if_neg hlen] at h
      cases h
  | builtin b => exact absurd h (callBuiltin_ne_none b vs s)
  | _ => cases h

end Spent

/-- An evaluation is cut off exactly if it enters one that is, unless it is cut off at once. -/
theorem run_eq_none_iff : a.run = none ↔ a.AtBottom ∨ ∃ b, Enters a b ∧ b.run = none := by
  constructor
  · intro h
    obtain ⟨n, i, job, s⟩ := a
    cases job with
    | expr e =>
      cases n with
      | zero => exact .inl ⟨rfl, .inl ⟨e, rfl⟩⟩
      | succ n => exact .inr (exists_enters_of_expr_eq_none h)
    | stmt c =>
      cases n with
      | zero => exact .inl ⟨rfl, .inr ⟨c, rfl⟩⟩
      | succ n => exact .inr (exists_enters_of_stmt_eq_none h)
    | block ss => exact .inr (exists_enters_of_block_eq_none h)
    | call v vs => exact .inr (exists_enters_of_call_eq_none h)
  · rintro (h | ⟨b, hab, hb⟩)
    · obtain ⟨_, i, _, s⟩ := a
      obtain ⟨rfl, ⟨e, rfl⟩ | ⟨c, rfl⟩⟩ := h
      · rfl
      · rfl
    · exact hab.run_eq_none hb

/-- How many evaluations can lie inside each other. A call and the block that it runs may go as deep
as what is in them. -/
def height (a : Point) : Nat :=
  3 * a.depth + match a.job with
    | .expr _ | .stmt _ => 0
    | .block _ => 1
    | .call _ _ => 2

theorem Enters.height_lt (h : Enters a b) : b.height < a.height := by
  cases h <;> simp only [height] <;> omega

/-- An evaluation is cut off exactly if something in it goes deeper than it may. -/
theorem run_eq_none_iff_exists :
    a.run = none ↔ ∃ b, Relation.ReflTransGen Enters a b ∧ b.AtBottom := by
  constructor
  · intro h
    induction hn : a.height using Nat.strongRecOn generalizing a with
    | ind n ih =>
      rcases run_eq_none_iff.1 h with hbottom | ⟨b, hab, hb⟩
      · exact ⟨a, .refl, hbottom⟩
      · obtain ⟨c, hbc, hc⟩ := ih b.height (hn ▸ hab.height_lt) hb rfl
        exact ⟨c, .head hab hbc, hc⟩
  · rintro ⟨b, hab, hb⟩
    induction hab using Relation.ReflTransGen.head_induction_on with
    | refl => exact run_eq_none_iff.2 (.inl hb)
    | head hac _ ih => exact hac.run_eq_none ih

end Point
end Monkey.Eval
