import Monkey.Proofs.Eval.Context
import Monkey.Proofs.Store.WellScoped
import Monkey.Proofs.Syntax.Everywhere
import Monkey.Proofs.Value.Table

/-! # Programs without functions come to an end

Only the call of a function can take an evaluation deeper than the program is nested. A program that
has no function literal makes no function. If none can be reached from the frame that it is run in,
there is none that it could find by a name, take out of an array or a hash, be given by a builtin, and
then call. So it goes no deeper than its own height, and ends: `Program.eval_of_functionFree`.

That there is no function to be reached is what each step preserves (`Eval.Settles`). Elsewhere in the
store there may be any number of them.
-/

namespace Monkey

open Relation

/-! ## How deep programs are nested -/

mutual

/-- How many levels of the expression lie inside each other. -/
def Expr.height : Expr → Nat
  | .ident _ | .int _ _ | .str _ _ | .bool _ _ | .fn _ _ _ => 1
  | .unary _ _ e => e.height + 1
  | .binary _ _ l r => max l.height r.height + 1
  | .cond _ c b none => max c.height b.height + 1
  | .cond _ c b (some a) => max c.height (max b.height a.height) + 1
  | .call _ f es => max f.height (Expr.heightAll es) + 1
  | .array _ es => Expr.heightAll es + 1
  | .index _ l i => max l.height i.height + 1
  | .hash _ ps => Expr.heightPairs ps + 1

def Expr.heightAll : List Expr → Nat
  | [] => 0
  | e :: es => max e.height (Expr.heightAll es)

def Expr.heightPairs : List (Expr × Expr) → Nat
  | [] => 0
  | (k, v) :: ps => max (max k.height v.height) (Expr.heightPairs ps)

def Stmt.height : Stmt → Nat
  | .bind _ _ e => e.height + 1
  | .ret _ none => 1
  | .ret _ (some e) => e.height + 1
  | .expr e => e.height + 1
  | .block b => b.height + 1

def Stmt.heightAll : List Stmt → Nat
  | [] => 0
  | s :: ss => max s.height (Stmt.heightAll ss)

def Block.height : Block → Nat
  | .mk _ ss => Stmt.heightAll ss

end

def Program.height (p : Program) : Nat := Stmt.heightAll p.statements

section Height

variable {n : Nat}

theorem Expr.heightAll_le {es : List Expr} : Expr.heightAll es ≤ n ↔ ∀ e ∈ es, e.height ≤ n := by
  induction es with
  | nil => simp [Expr.heightAll]
  | cons e es ih => rw [Expr.heightAll, Nat.max_le, ih, List.forall_mem_cons]

theorem Expr.heightPairs_le {ps : List (Expr × Expr)} :
    Expr.heightPairs ps ≤ n ↔ ∀ p ∈ ps, p.1.height ≤ n ∧ p.2.height ≤ n := by
  induction ps with
  | nil => simp [Expr.heightPairs]
  | cons p ps ih => rw [Expr.heightPairs, Nat.max_le, Nat.max_le, ih, List.forall_mem_cons]

theorem Stmt.heightAll_le {ss : List Stmt} : Stmt.heightAll ss ≤ n ↔ ∀ s ∈ ss, s.height ≤ n := by
  induction ss with
  | nil => simp [Stmt.heightAll]
  | cons s ss ih => rw [Stmt.heightAll, Nat.max_le, ih, List.forall_mem_cons]

theorem Block.height_le {b : Block} : b.height ≤ n ↔ ∀ s ∈ b.statements, s.height ≤ n := by
  obtain ⟨t, ss⟩ := b
  exact Stmt.heightAll_le

theorem Expr.height_pos (e : Expr) : 0 < e.height := by
  cases e with
  | cond t c b a? => cases a? <;> exact Nat.succ_pos _
  | _ => exact Nat.succ_pos _

theorem Stmt.height_pos (s : Stmt) : 0 < s.height := by
  cases s with
  | ret t e? => cases e? <;> exact Nat.succ_pos _
  | _ => exact Nat.succ_pos _

end Height

/-! ## Where there are no functions -/

/-- Is not a function literal. -/
def Expr.NotFunction : Expr → Prop
  | .fn _ _ _ => False
  | _ => True

namespace Value

/-- No function is contained in the value. -/
def FunctionFree (v : Value) : Prop := ∀ f, ¬Within (.function f) v

variable {v : Value} {vs : List Value} {es : List (Key × Entry Value)}

theorem functionFree_array : (array vs).FunctionFree ↔ ∀ v ∈ vs, v.FunctionFree := by
  constructor
  · intro h v hv f hf
    exact h f (.element hv hf)
  · intro h f hf
    cases hf with
    | element hv hf => exact h _ hv f hf

theorem functionFree_hash : (hash es).FunctionFree ↔
    ∀ e ∈ es, e.2.key.FunctionFree ∧ e.2.value.FunctionFree := by
  constructor
  · intro h e he
    exact ⟨fun f hf => h f (.key he hf), fun f hf => h f (.value he hf)⟩
  · intro h f hf
    cases hf with
    | key he hf => exact (h _ he).1 f hf
    | value he hf => exact (h _ he).2 f hf

/-- No function is related to any. -/
abbrev NoClosures (f g : Closure) : Prop := f = g ∧ False

/-- What does the same with related values makes no functions out of values that have none. -/
theorem functionFree_iff_related : v.FunctionFree ↔ Related NoClosures True v v := by
  rw [related_self_iff]
  constructor
  · intro h
    exact ⟨rfl, h, fun _ _ => trivial⟩
  · intro h
    exact h.2.1

theorem forall_functionFree : (∀ v ∈ vs, v.FunctionFree) ↔
    List.Forall₂ (Related NoClosures True) vs vs := by
  rw [List.forall₂_same]
  exact forall₂_congr fun _ _ => functionFree_iff_related

end Value

/-- If something does the same with related operands, then its result has no function in it. -/
theorem Agree.functionFree {ε : Type} {x : Except ε Value} {v : Value}
    (h : Agree (Value.Related Value.NoClosures True) x x) (hv : x = .ok v) : v.FunctionFree := by
  subst hv
  cases h with
  | ok h => exact Value.functionFree_iff_related.2 h

namespace Store

/-- What is bound in the frame `i`, or in the frames around it, has no functions in it. -/
def FunctionFree (s : Store) (i : FrameId) : Prop :=
  ∀ j, ReflTransGen s.Outer i j → ∀ (f : Frame) (x : String) (v : Value),
    s.frames[j]? = some f → f.bindings.find? x = some v → v.FunctionFree

variable {s t : Store} {i o : FrameId} {x : String} {v : Value}

theorem outer_set (s : Store) (i : FrameId) (x : String) (v : Value) :
    (s.set i x v).Outer = s.Outer := by
  funext j o
  apply propext
  unfold Outer
  rw [getElem?_set]
  split
  · simp [Frame.set]
  · rfl

namespace FunctionFree

theorem of_frames_eq (h : s.FunctionFree i) (ht : t.frames = s.frames) : t.FunctionFree i := by
  obtain ⟨frames, functions, output⟩ := t
  subst ht
  exact h

theorem outer (h : s.FunctionFree i) (ho : s.Outer i o) : s.FunctionFree o :=
  fun j hj => h j (.head ho hj)

theorem get? (h : s.FunctionFree i) (hv : s.get? i x = some v) : v.FunctionFree := by
  induction i using Nat.strongRecOn with
  | ind i ih =>
    rcases hf : s.frames[i]? with _ | f
    · rw [Store.get?, hf] at hv
      cases hv
    · rw [get?_of_frame hf] at hv
      rcases Option.or_eq_some_iff.1 hv with hv | ⟨-, hv⟩
      · exact h i .refl f x v hf hv
      · obtain ⟨o, ho, hv⟩ := Option.bind_eq_some_iff.1 hv
        split at hv
        · rename_i hlt
          exact ih o hlt (h.outer ⟨f, hf, ho⟩) hv
        · cases hv

theorem set (h : s.FunctionFree i) (hv : v.FunctionFree) (x : String) :
    (s.set i x v).FunctionFree i := by
  intro j hj f y w hf hw
  rw [outer_set] at hj
  rw [getElem?_set] at hf
  split at hf
  · obtain ⟨g, hg, rfl⟩ := Option.map_eq_some_iff.1 hf
    rw [Frame.set, Bindings.find?_set] at hw
    split at hw
    · cases hw
      exact hv
    · exact h j hj g y w hg hw
  · exact h j hj f y w hf hw

end FunctionFree
end Store

/-! ## Evaluations without functions -/

namespace Eval

variable {α β : Type} {A : α → Prop} {B : β → Prop} {i : FrameId}

/-- There are no functions in what an evaluation ends with. -/
inductive Clean (A : α → Prop) : Except Signal α → Prop where
  | ok {a : α} (h : A a) : Clean A (.ok a)
  | returned {v : Value} (h : v.FunctionFree) : Clean A (.error (.returned v))
  | raised (f : Fault) : Clean A (.error (.raised f))

/-- Where no function can be reached from the frame `i`, `x` comes to an end, and none can be reached
then. -/
def Settles (i : FrameId) (A : α → Prop) (x : Eval α) : Prop :=
  ∀ s : Store, s.FunctionFree i → ∃ r t, x s = some (r, t) ∧ t.FunctionFree i ∧ Clean A r

namespace Settles

theorem pure {a : α} (h : A a) : Settles i A (pure a : Eval α) :=
  fun s hs => ⟨_, s, rfl, hs, .ok h⟩

theorem raise (f : Fault) : Settles i A (raise f : Eval α) :=
  fun s hs => ⟨_, s, rfl, hs, .raised f⟩

theorem returned {v : Value} (h : v.FunctionFree) :
    Settles i A (signal (.returned v) : Eval α) :=
  fun s hs => ⟨_, s, rfl, hs, .returned h⟩

theorem ofExcept {x : Except Fault α} (h : ∀ a, x = .ok a → A a) : Settles i A (ofExcept x) := by
  cases x with
  | ok a => exact pure (h a rfl)
  | error f => exact raise f

theorem ask {f : Store → α} (h : ∀ s : Store, s.FunctionFree i → A (f s)) :
    Settles i A (ask f) :=
  fun s hs => ⟨_, s, rfl, hs, .ok (h s hs)⟩

theorem update {f : Store → Store} (h : ∀ s : Store, s.FunctionFree i → (f s).FunctionFree i) :
    Settles i (fun _ => True) (update f) :=
  fun s hs => ⟨_, _, rfl, h s hs, .ok trivial⟩

theorem bind {x : Eval α} {f : α → Eval β} (hx : Settles i A x)
    (hf : ∀ a, A a → Settles i B (f a)) : Settles i B (x >>= f) := by
  intro s hs
  obtain ⟨r, t, hr, ht, hclean⟩ := hx s hs
  cases hclean with
  | ok ha =>
    rw [bind_of_ok hr]
    exact hf _ ha t ht
  | returned hv => exact ⟨_, t, bind_of_error hr, ht, .returned hv⟩
  | raised f => exact ⟨_, t, bind_of_error hr, ht, .raised f⟩

theorem foldlM {f : β → α → Eval β} {l : List α} (h : ∀ a ∈ l, ∀ b, B b → Settles i B (f b a))
    {b : β} (hb : B b) : Settles i B (l.foldlM f b) := by
  induction l generalizing b with
  | nil => exact pure hb
  | cons a l ih =>
    obtain ⟨ha, hl⟩ := List.forall_mem_cons.1 h
    rw [List.foldlM_cons]
    exact bind (ha b hb) fun _ => ih hl

theorem mapM {f : α → Eval β} {l : List α} (h : ∀ a ∈ l, Settles i B (f a)) :
    Settles i (fun bs => ∀ b ∈ bs, B b) (l.mapM f) := by
  induction l with
  | nil => exact pure nofun
  | cons a l ih =>
    obtain ⟨ha, hl⟩ := List.forall_mem_cons.1 h
    rw [List.mapM_cons]
    refine bind ha fun b hb => bind (ih hl) fun bs hbs => ?_
    exact pure (List.forall_mem_cons.2 ⟨hb, hbs⟩)

theorem sequence {f : Stmt → Eval Value} {ss : List Stmt}
    (h : ∀ c ∈ ss, Settles i Value.FunctionFree (f c)) :
    Settles i Value.FunctionFree (sequence f ss) :=
  foldlM (fun c hc _ _ => h c hc) (b := .null) nofun

theorem name (i : FrameId) (x : String) : Settles i Value.FunctionFree (name i x) := by
  have hask : Settles i (fun v? => ∀ v, v? = some v → v.FunctionFree)
      (Eval.ask (·.get? i x)) := ask fun s hs v => hs.get?
  refine bind hask fun v? hv? => ?_
  split
  · exact pure (hv? _ rfl)
  · split
    · exact pure nofun
    · exact raise _

theorem callBuiltin (b : Builtin) {vs : List Value} (hvs : ∀ v ∈ vs, v.FunctionFree) :
    Settles i Value.FunctionFree (callBuiltin b vs) := by
  have hanswer : (b.answer vs).FunctionFree := by
    have hagree := Builtin.agree_result b (Value.forall_functionFree.1 hvs)
    rw [Builtin.answer]
    split
    · rename_i v hv
      exact hagree.functionFree hv
    · intro f h
      cases h
  refine bind (update fun s hs => hs.of_frames_eq rfl) fun _ _ => ?_
  split
  · exact raise _
  · exact pure hanswer

/-- What is called is a builtin, or nothing that can be called. -/
theorem call (run : FrameId → List Stmt → Eval Value) {v : Value} (hv : v.FunctionFree)
    {vs : List Value} (hvs : ∀ v ∈ vs, v.FunctionFree) :
    Settles i Value.FunctionFree (call run v vs) := by
  cases v with
  | function f => exact absurd .self (hv f)
  | builtin b => exact callBuiltin b hvs
  | _ => exact raise _

theorem addPair {f : Expr → Eval Value} {p : Expr × Expr}
    (hk : Settles i Value.FunctionFree (f p.1)) (hv : Settles i Value.FunctionFree (f p.2))
    {table : Table (Entry Value)} (ht : (Value.hash table).FunctionFree) :
    Settles i (fun table => (Value.hash table).FunctionFree) (addPair f table p) := by
  refine bind hk fun c hc => bind (ofExcept (A := fun _ => True) fun _ _ => trivial) fun k _ => ?_
  refine bind hv fun v hv => pure (Value.functionFree_hash.2 fun e he => ?_)
  rcases Table.mem_insert he with rfl | he
  · exact ⟨hc, hv⟩
  · exact Value.functionFree_hash.1 ht e he

end Settles

/-- What holds of evaluations that may go `n` levels deep: where there are no functions, this is deep
enough for all that is not higher. -/
def SettlesWithin (i : FrameId) (n : Nat) : Prop :=
  (∀ e : Expr, e.Everywhere Expr.NotFunction → e.height ≤ n →
    Settles i Value.FunctionFree (expr n i e)) ∧
  ∀ c : Stmt, c.Everywhere Expr.NotFunction → c.height ≤ n →
    Settles i Value.FunctionFree (stmt n i c)

namespace SettlesWithin

variable {n : Nat}

theorem block (h : SettlesWithin i n) {b : Block} (hb : b.Everywhere Expr.NotFunction)
    (hn : b.height ≤ n) :
    Settles i Value.FunctionFree (Eval.sequence (Eval.stmt n i) b.statements) := by
  apply Settles.sequence
  intro c hc
  exact h.2 c (Block.everywhere_iff.1 hb c hc) (Block.height_le.1 hn c hc)

theorem exprs (h : SettlesWithin i n) {es : List Expr}
    (hes : Expr.EverywhereAll Expr.NotFunction es) (hn : Expr.heightAll es ≤ n) :
    Settles i (fun vs => ∀ v ∈ vs, Value.FunctionFree v) (es.mapM (Eval.expr n i)) := by
  apply Settles.mapM
  intro e he
  exact h.1 e (Expr.everywhereAll_iff.1 hes e he) (Expr.heightAll_le.1 hn e he)

theorem expr_succ (h : SettlesWithin i n) {e : Expr} (he : e.Everywhere Expr.NotFunction)
    (hn : e.height ≤ n + 1) : Settles i Value.FunctionFree (expr (n + 1) i e) := by
  cases e with
  | ident x => exact .name i x.name
  | int | str | bool => exact .pure nofun
  | unary t op e =>
    refine .bind (h.1 e he.2 (Nat.le_of_succ_le_succ hn)) fun v hv => .ofExcept fun w hw => ?_
    exact (agree_unary op (Value.functionFree_iff_related.1 hv)).functionFree hw
  | binary t op l r =>
    obtain ⟨hl, hr⟩ := Nat.max_le.1 (Nat.le_of_succ_le_succ hn)
    refine .bind (h.1 l he.2.1 hl) fun v hv => .bind (h.1 r he.2.2 hr) fun w hw => ?_
    refine .ofExcept fun u hu => ?_
    rw [Value.functionFree_iff_related] at hv hw
    exact (agree_binary (fun _ _ _ _ hf => hf.2.elim) op hv hw).functionFree hu
  | cond t c b a? =>
    cases a? with
    | none =>
      obtain ⟨hc, hb⟩ := Nat.max_le.1 (Nat.le_of_succ_le_succ hn)
      refine .bind (h.1 c he.2.1 hc) fun v _ => ?_
      split
      · exact h.block he.2.2 hb
      · exact .pure nofun
    | some a =>
      obtain ⟨hc, hba⟩ := Nat.max_le.1 (Nat.le_of_succ_le_succ hn)
      obtain ⟨hb, ha⟩ := Nat.max_le.1 hba
      refine .bind (h.1 c he.2.1 hc) fun v _ => ?_
      split
      · exact h.block he.2.2.1 hb
      · exact h.block he.2.2.2 ha
  | fn t ps b => exact he.1.elim
  | call t f es =>
    obtain ⟨hf, hes⟩ := Nat.max_le.1 (Nat.le_of_succ_le_succ hn)
    refine .bind (h.1 f he.2.1 hf) fun v hv => .bind (h.exprs he.2.2 hes) fun vs hvs => ?_
    exact .call _ hv hvs
  | array t es =>
    refine .bind (h.exprs he.2 (Nat.le_of_succ_le_succ hn)) fun vs hvs => ?_
    exact .pure (Value.functionFree_array.2 hvs)
  | index t l r =>
    obtain ⟨hl, hr⟩ := Nat.max_le.1 (Nat.le_of_succ_le_succ hn)
    refine .bind (h.1 l he.2.1 hl) fun v hv => .bind (h.1 r he.2.2 hr) fun w hw => ?_
    refine .ofExcept fun u hu => ?_
    rw [Value.functionFree_iff_related] at hv hw
    exact (agree_index hv hw).functionFree hu
  | hash t ps =>
    have hheight := Expr.heightPairs_le.1 (Nat.le_of_succ_le_succ hn)
    have hfree := Expr.everywherePairs_iff.1 he.2
    have hpairs : Settles i (fun table => (Value.hash table).FunctionFree)
        (ps.foldlM (addPair (Eval.expr n i)) []) := by
      refine .foldlM (fun p hp table => ?_) (Value.functionFree_hash.2 (List.forall_mem_nil _))
      exact .addPair (h.1 p.1 (hfree p hp).1 (hheight p hp).1)
        (h.1 p.2 (hfree p hp).2 (hheight p hp).2)
    exact .bind hpairs fun table htable => .pure htable

theorem stmt_succ (h : SettlesWithin i n) {c : Stmt} (hc : c.Everywhere Expr.NotFunction)
    (hn : c.height ≤ n + 1) : Settles i Value.FunctionFree (stmt (n + 1) i c) := by
  cases c with
  | bind t x e =>
    refine .bind (h.1 e hc (Nat.le_of_succ_le_succ hn)) fun v hv => ?_
    exact .bind (.update fun s hs => hs.set hv x.name) fun _ _ => .pure hv
  | ret t e? =>
    cases e? with
    | none => exact .raise _
    | some e => exact .bind (h.1 e hc (Nat.le_of_succ_le_succ hn)) fun v hv => .returned hv
  | expr e => exact h.1 e hc (Nat.le_of_succ_le_succ hn)
  | block b => exact h.block hc (Nat.le_of_succ_le_succ hn)

end SettlesWithin

theorem settlesWithin (i : FrameId) (n : Nat) : SettlesWithin i n := by
  induction n with
  | zero =>
    refine ⟨fun e _ hn => ?_, fun c _ hn => ?_⟩
    · exact absurd e.height_pos (Nat.not_lt.2 hn)
    · exact absurd c.height_pos (Nat.not_lt.2 hn)
  | succ n ih => exact ⟨fun _ => ih.expr_succ, fun _ => ih.stmt_succ⟩

/-- A program lets no `return` through. -/
theorem settles_program {p : Program} (hp : p.Everywhere Expr.NotFunction) {s : Store}
    (hs : s.FunctionFree i) : ∃ r t, (∀ n, p.height ≤ n → program n i p s = some (r, t)) ∧
      t.FunctionFree i ∧ ((∃ v, r = .ok v ∧ v.FunctionFree) ∨ ∃ f, r = .error (.raised f)) := by
  have hseq : Settles i Value.FunctionFree (sequence (stmt p.height i) p.statements) := by
    apply Settles.sequence
    intro c hc
    exact (settlesWithin i p.height).2 c (hp c hc) (Stmt.heightAll_le.1 (Nat.le_refl _) c hc)
  obtain ⟨r, t, hr, ht, hclean⟩ := hseq s hs
  have hprogram (n : Nat) (hn : p.height ≤ n) : program n i p s = some (caught r, t) :=
    returning_of_run (Below.sequence p.statements (stmt_mono hn i) s _ hr)
  refine ⟨caught r, t, hprogram, ht, ?_⟩
  cases hclean with
  | ok hv | returned hv => exact .inl ⟨_, rfl, hv⟩
  | raised f => exact .inr ⟨f, rfl⟩

end Eval

/-- A program without function literals is run where no function can be reached. It goes no deeper
than it is nested, and ends with a value or a fault. Then there is no function in its value, nor can
any be reached. -/
theorem Program.eval_of_functionFree {p : Program} (hp : p.Everywhere Expr.NotFunction)
    {i : FrameId} {s : Store} (hs : s.FunctionFree i) :
    ∃ v t, (∀ depth, p.height ≤ depth → p.eval depth i s = some (v, t) ∧
        (Eval.program depth i p s = some (.ok v, t) ∨
          ∃ f, Eval.program depth i p s = some (.error (.raised f), t) ∧ v = .error f.message)) ∧
      v.FunctionFree ∧ t.FunctionFree i := by
  obtain ⟨r, t, hr, ht, ⟨v, rfl, hv⟩ | ⟨f, rfl⟩⟩ := Eval.settles_program hp hs
  · refine ⟨v, t, fun depth hdepth => ?_, hv, ht⟩
    rw [eval, hr depth hdepth]
    exact ⟨rfl, .inl rfl⟩
  · refine ⟨.error f.message, t, fun depth hdepth => ?_, nofun, ht⟩
    rw [eval, hr depth hdepth]
    exact ⟨rfl, .inr ⟨f, rfl, rfl⟩⟩

/-- `x` is `[7]` in the one frame. There is a function in the other, which lies elsewhere. -/
def twoRooms : Store := ⟨#[⟨[("x", .array [.int (.ofCount 7)])], none⟩,
  ⟨[("f", .function ⟨0, [], .mk (.sym .openBrace) [], 1⟩)], none⟩], 1, ""⟩

/-- `let y = push(x, len(x)); { return y; }`, with a block as a statement. -/
def measured : Program := ⟨[
  .bind (.word .letWord) ⟨.ident "y", "y"⟩
    (.call (.sym .openParen) (.ident ⟨.ident "push", "push"⟩) [.ident ⟨.ident "x", "x"⟩,
      .call (.sym .openParen) (.ident ⟨.ident "len", "len"⟩) [.ident ⟨.ident "x", "x"⟩]]),
  .block (.mk (.sym .openBrace) [.ret (.word .returnWord) (some (.ident ⟨.ident "y", "y"⟩))])]⟩

/-- The program calls what it finds, and ends within four levels. -/
theorem Program.eval_of_functionFree_measured :
    measured.height = 4 ∧ twoRooms.get? 1 "f" ≠ none ∧ ∃ v t, measured.eval 4 0 twoRooms =
      some (v, t) ∧ v.FunctionFree ∧ t.FunctionFree 0 := by
  have hrooms : twoRooms.FunctionFree 0 := by
    intro j hj f x v hf hv
    rcases ReflTransGen.cases_head hj with rfl | ⟨o, ⟨g, hg, ho⟩, -⟩
    · cases hf
      change (if "x" = x then some (Value.array [.int (.ofCount 7)]) else none) = some v at hv
      split at hv
      · cases hv
        exact Value.functionFree_array.2 (List.forall_mem_singleton.2 nofun)
      · cases hv
    · cases hg
      cases ho
  have hmeasured : measured.Everywhere Expr.NotFunction := by
    simp [Program.Everywhere, measured, Stmt.Everywhere, Block.Everywhere, Expr.Everywhere,
      Expr.EverywhereAll, Stmt.EverywhereAll, Expr.NotFunction]
  obtain ⟨v, t, heval, hv, ht⟩ := Program.eval_of_functionFree hmeasured hrooms
  refine ⟨rfl, ?_, v, t, (heval 4 (Nat.le_refl 4)).1, hv, ht⟩
  rw [Store.get?_of_frame (rfl : twoRooms.frames[1]? = some _)]
  exact Option.some_ne_none _

end Monkey
