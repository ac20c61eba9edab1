import Monkey.Proofs.Eval.Along

/-! # What an evaluation leaves as it was

A program that is run in a frame binds names in that frame and in frames that it adds itself, and in
no other. In the frame that it is run in it binds only the names that it has a `let` for, outside of
all function literals (`Expr.lets` and its companions): the body of a function is run in the frame
of a call, which is new. So a call changes no frame that was there before it.

Before and after are compared by `Store.Rebinds` and `Store.Keeps`. That evaluations go along them
is shown level by level: `Eval.RebindsWithin`.
-/

namespace Monkey

/-! ## The names that a program binds -/

mutual

/-- The names that an expression binds in the frame that it is evaluated in. -/
def Expr.lets : Expr → List String
  | .ident _ | .int _ _ | .str _ _ | .bool _ _ | .fn _ _ _ => []
  | .unary _ _ e => e.lets
  | .binary _ _ l r => l.lets ++ r.lets
  | .cond _ c b none => c.lets ++ b.lets
  | .cond _ c b (some a) => c.lets ++ (b.lets ++ a.lets)
  | .call _ f es => f.lets ++ Expr.letsAll es
  | .array _ es => Expr.letsAll es
  | .index _ l i => l.lets ++ i.lets
  | .hash _ ps => Expr.letsPairs ps

def Expr.letsAll : List Expr → List String
  | [] => []
  | e :: es => e.lets ++ Expr.letsAll es

def Expr.letsPairs : List (Expr × Expr) → List String
  | [] => []
  | (k, v) :: ps => (k.lets ++ v.lets) ++ Expr.letsPairs ps

def Stmt.lets : Stmt → List String
  | .bind _ x e => x.name :: e.lets
  | .ret _ none => []
  | .ret _ (some e) => e.lets
  | .expr e => e.lets
  | .block b => b.lets

def Stmt.letsAll : List Stmt → List String
  | [] => []
  | s :: ss => s.lets ++ Stmt.letsAll ss

def Block.lets : Block → List String
  | .mk _ ss => Stmt.letsAll ss

end

theorem Expr.letsAll_eq_flatMap (es : List Expr) : Expr.letsAll es = es.flatMap Expr.lets := by
  induction es with
  | nil => rfl
  | cons e es ih => rw [Expr.letsAll, ih, List.flatMap_cons]

theorem Expr.letsPairs_eq_flatMap (ps : List (Expr × Expr)) :
    Expr.letsPairs ps = ps.flatMap fun p => p.1.lets ++ p.2.lets := by
  induction ps with
  | nil => rfl
  | cons p ps ih => rw [Expr.letsPairs, ih, List.flatMap_cons]

theorem Stmt.letsAll_eq_flatMap (ss : List Stmt) : Stmt.letsAll ss = ss.flatMap Stmt.lets := by
  induction ss with
  | nil => rfl
  | cons s ss ih => rw [Stmt.letsAll, ih, List.flatMap_cons]

theorem Block.lets_eq_flatMap (b : Block) : b.lets = b.statements.flatMap Stmt.lets := by
  cases b with
  | mk t ss => exact Stmt.letsAll_eq_flatMap ss

def Program.lets (p : Program) : List String := p.statements.flatMap Stmt.lets

/-! ## Stores before and after -/

/-- `g` is `f` with other values for some of the names `xs`, and perhaps more of them bound. -/
structure Frame.Rebinds (f : Frame) (xs : List String) (g : Frame) : Prop where
  outer : g.outer = f.outer
  bound : ∀ x, (f.bindings.find? x).isSome → (g.bindings.find? x).isSome
  kept : ∀ x, x ∉ xs → g.bindings.find? x = f.bindings.find? x

namespace Frame.Rebinds

variable {f g h : Frame} {xs : List String}

theorem refl (f : Frame) (xs : List String) : f.Rebinds xs f :=
  ⟨rfl, fun _ hx => hx, fun _ _ => rfl⟩

theorem trans (hfg : f.Rebinds xs g) (hgh : g.Rebinds xs h) : f.Rebinds xs h where
  outer := hgh.outer.trans hfg.outer
  bound x hx := hgh.bound x (hfg.bound x hx)
  kept x hx := (hgh.kept x hx).trans (hfg.kept x hx)

theorem set {x : String} (hx : x ∈ xs) (f : Frame) (v : Value) : f.Rebinds xs (f.set x v) where
  outer := rfl
  bound y hy := by
    rw [Frame.set, Bindings.find?_set]
    split
    · rfl
    · exact hy
  kept y hy := by
    have hne : x ≠ y := fun he => hy (he ▸ hx)
    rw [Frame.set, Bindings.find?_set, if_neg hne]

end Frame.Rebinds

namespace Store

variable {i : FrameId} {xs : List String} {s t u : Store}

/-- Every frame of `s` is still as it was in `t`. -/
def Keeps (s t : Store) : Prop :=
  ∀ (j : FrameId) (f : Frame), s.frames[j]? = some f → t.frames[j]? = some f

/-- Every frame of `s` but `i` is still as it was in `t`, and `i` has at most rebound the names
`xs`. -/
structure Rebinds (s : Store) (i : FrameId) (xs : List String) (t : Store) : Prop where
  others : ∀ (j : FrameId) (f : Frame), j ≠ i → s.frames[j]? = some f → t.frames[j]? = some f
  own : ∀ f, s.frames[i]? = some f → ∃ g, t.frames[i]? = some g ∧ f.Rebinds xs g

theorem transition_keeps : Eval.Transition Keeps where
  refl _ _ _ h := h
  trans hst htu j f h := htu j f (hst j f h)

theorem transition_rebinds (i : FrameId) (xs : List String) :
    Eval.Transition (Rebinds · i xs ·) where
  refl s := ⟨fun _ _ _ h => h, fun f h => ⟨f, h, .refl f xs⟩⟩
  trans hst htu := by
    refine ⟨fun j f hj h => htu.others j f hj (hst.others j f hj h), fun f h => ?_⟩
    obtain ⟨g, hg, hfg⟩ := hst.own f h
    obtain ⟨k, hk, hgk⟩ := htu.own g hg
    exact ⟨k, hk, hfg.trans hgk⟩

theorem Keeps.rebinds (h : Keeps s t) : s.Rebinds i xs t :=
  ⟨fun j f _ hf => h j f hf, fun f hf => ⟨f, h i f hf, .refl f xs⟩⟩

theorem keeps_of_frames_eq (h : t.frames = s.frames) : Keeps s t := by
  intro j f hf
  rw [h]
  exact hf

theorem rebinds_set {x : String} (hx : x ∈ xs) (v : Value) (s : Store) :
    s.Rebinds i xs (s.set i x v) := by
  constructor
  · intro j f hj hf
    rw [Store.set, Array.getElem?_modify, if_neg (Ne.symm hj)]
    exact hf
  · intro f hf
    refine ⟨f.set x v, ?_, .set hx f v⟩
    rw [Store.set, Array.getElem?_modify, if_pos rfl, hf, Option.map_some]

theorem keeps_addFrame (f : Frame) (s : Store) : Keeps s (s.addFrame f) := by
  intro j g hg
  obtain ⟨hj, -⟩ := Array.getElem?_eq_some_iff.1 hg
  rw [Store.addFrame, Array.getElem?_push, if_neg (Nat.ne_of_lt hj)]
  exact hg

/-- What has rebound names in no frame but a new one has changed none that was there. -/
theorem Rebinds.keeps_of_next (h : t.Rebinds s.next xs u) (hst : Keeps s t) : Keeps s u := by
  intro j f hf
  obtain ⟨hj, -⟩ := Array.getElem?_eq_some_iff.1 hf
  exact h.others j f (Nat.ne_of_lt hj) (hst j f hf)

theorem Rebinds.next_le {xs : List String} (h : s.Rebinds i xs t) : s.next ≤ t.next := by
  have hlt (j : Nat) (hj : j < s.frames.size) : j < t.frames.size := by
    have hf : s.frames[j]? = some s.frames[j] := Array.getElem?_eq_getElem hj
    by_cases hji : j = i
    · subst hji
      obtain ⟨g, hg, -⟩ := h.own _ hf
      exact (Array.getElem?_eq_some_iff.1 hg).1
    · exact (Array.getElem?_eq_some_iff.1 (h.others j _ hji hf)).1
  -- Were there more frames in `s`, then one with the number `t.next`.
  exact Nat.le_of_not_lt fun hsize => Nat.lt_irrefl _ (hlt _ hsize)

theorem Keeps.next_le (h : Keeps s t) : s.next ≤ t.next :=
  (h.rebinds : s.Rebinds 0 [] t).next_le

/-- Names stand for the same in frames that have not changed. -/
theorem Keeps.get?_eq (h : Keeps s t) {j : FrameId} (hj : j < s.frames.size) (x : String) :
    t.get? j x = s.get? j x := by
  induction j using Nat.strongRecOn with
  | ind j ih =>
    have hs : s.frames[j]? = some s.frames[j] := Array.getElem?_eq_getElem hj
    rw [Store.get?_of_frame (h j _ hs), Store.get?_of_frame hs]
    congr 2
    funext o
    by_cases hlt : o < j
    · rw [if_pos hlt, if_pos hlt]
      exact ih o hlt (Nat.lt_trans hlt hj)
    · rw [if_neg hlt, if_neg hlt]

end Store

/-! ## Evaluations -/

namespace Eval

open Store

variable {i : FrameId} {xs : List String}

theorem along_makeFunction (params : List Ident) (body : Block) (scope : FrameId) :
    Along Keeps (makeFunction params body scope) := by
  refine .bind transition_keeps (.ask transition_keeps _) fun _ => ?_
  refine .bind transition_keeps (.update fun s => keeps_of_frames_eq rfl) fun _ => ?_
  exact .pure transition_keeps _

theorem along_callBuiltin (b : Builtin) (args : List Value) : Along Keeps (callBuiltin b args) := by
  refine .bind transition_keeps (.update fun s => keeps_of_frames_eq rfl) fun _ => ?_
  split
  · exact .signal transition_keeps _
  · exact .pure transition_keeps _

/-- A call runs the body of a function in a frame that is new, and changes no other. -/
theorem along_call {run : FrameId → List Stmt → Eval Value}
    (h : ∀ j ss, ∃ xs, Along (Rebinds · j xs ·) (run j ss)) (callee : Value) (args : List Value) :
    Along Keeps (call run callee args) := by
  cases callee with
  | function f =>
    by_cases hp : f.params.length = args.length
    · intro s r t ht
      rw [call, if_pos hp] at ht
      obtain ⟨ys, hrun⟩ := h s.next f.body.statements
      exact (hrun.returning _ r t ht).keeps_of_next (keeps_addFrame _ s)
    · rw [call, if_neg hp]
      exact .signal transition_keeps _
  | builtin b => exact along_callBuiltin b args
  | _ => exact .signal transition_keeps _

/-- The names of a part are among those of the whole. -/
theorem subset_of_flatMap_subset {α : Type} {f : α → List String} {l : List α} {a : α}
    (h : l.flatMap f ⊆ xs) (ha : a ∈ l) : f a ⊆ xs :=
  fun _ hx => h (List.mem_flatMap.2 ⟨a, ha, hx⟩)

theorem along_sequence {stmt : Stmt → Eval Value} {ss : List Stmt}
    (h : ∀ s, s.lets ⊆ xs → Along (Rebinds · i xs ·) (stmt s)) (hss : ss.flatMap Stmt.lets ⊆ xs) :
    Along (Rebinds · i xs ·) (sequence stmt ss) :=
  .sequence (transition_rebinds i xs) fun s hs => h s (subset_of_flatMap_subset hss hs)

theorem along_block {stmt : Stmt → Eval Value} {b : Block}
    (h : ∀ s, s.lets ⊆ xs → Along (Rebinds · i xs ·) (stmt s)) (hb : b.lets ⊆ xs) :
    Along (Rebinds · i xs ·) (sequence stmt b.statements) := by
  rw [Block.lets_eq_flatMap] at hb
  exact along_sequence h hb

/-- What holds of evaluations that go `n` levels deep: in the frame `i`, they rebind at most the
names that they have a `let` for. -/
def RebindsWithin (n : Nat) : Prop :=
  (∀ i e xs, Expr.lets e ⊆ xs → Along (Rebinds · i xs ·) (expr n i e)) ∧
    ∀ i s xs, Stmt.lets s ⊆ xs → Along (Rebinds · i xs ·) (stmt n i s)

theorem RebindsWithin.sequence {n : Nat} (h : RebindsWithin n) (ss : List Stmt) :
    Along (Rebinds · i (ss.flatMap Stmt.lets) ·) (sequence (stmt n i) ss) :=
  along_sequence (fun s => h.2 i s _) (List.Subset.refl _)

theorem RebindsWithin.call {n : Nat} (h : RebindsWithin n) (callee : Value) (args : List Value) :
    Along Keeps (call (fun j => Eval.sequence (stmt n j)) callee args) :=
  along_call (fun _ ss => ⟨_, h.sequence ss⟩) callee args

theorem RebindsWithin.expr_succ {n : Nat} (h : RebindsWithin n) {e : Expr} (he : e.lets ⊆ xs) :
    Along (Rebinds · i xs ·) (expr (n + 1) i e) := by
  have hR := transition_rebinds i xs
  have hcall := h.call
  obtain ⟨hexpr, hstmt⟩ := h
  cases e with
  | ident x => exact .name hR i x.name
  | int | str | bool => exact .pure hR _
  | fn _ ps b => exact (along_makeFunction ps b i).mono fun _ _ => Keeps.rebinds
  | unary _ _ e => exact .bind hR (hexpr i e xs he) fun _ => .ofExcept hR _
  | binary _ _ l r =>
    obtain ⟨hl, hr⟩ := List.append_subset.1 he
    refine .bind hR (hexpr i l xs hl) fun _ => .bind hR (hexpr i r xs hr) fun _ => ?_
    exact .ofExcept hR _
  | cond _ c b a? =>
    cases a? with
    | none =>
      obtain ⟨hc, hb⟩ := List.append_subset.1 he
      refine .bind hR (hexpr i c xs hc) fun v => ?_
      split
      · exact along_block (fun s => hstmt i s xs) hb
      · exact .pure hR _
    | some a =>
      obtain ⟨hc, hba⟩ := List.append_subset.1 he
      obtain ⟨hb, ha⟩ := List.append_subset.1 hba
      refine .bind hR (hexpr i c xs hc) fun v => ?_
      split
      · exact along_block (fun s => hstmt i s xs) hb
      · exact along_block (fun s => hstmt i s xs) ha
  | call _ f es =>
    rw [Expr.lets, Expr.letsAll_eq_flatMap] at he
    obtain ⟨hf, hes⟩ := List.append_subset.1 he
    refine .bind hR (hexpr i f xs hf) fun callee => ?_
    refine .bind hR (.mapM hR fun e hmem => hexpr i e xs (subset_of_flatMap_subset hes hmem))
      fun args => ?_
    exact (hcall callee args).mono fun _ _ => Keeps.rebinds
  | array _ es =>
    rw [Expr.lets, Expr.letsAll_eq_flatMap] at he
    refine .bind hR (.mapM hR fun e hmem => hexpr i e xs (subset_of_flatMap_subset he hmem))
      fun _ => .pure hR _
  | index _ l r =>
    obtain ⟨hl, hr⟩ := List.append_subset.1 he
    refine .bind hR (hexpr i l xs hl) fun _ => .bind hR (hexpr i r xs hr) fun _ => ?_
    exact .ofExcept hR _
  | hash _ ps =>
    rw [Expr.lets, Expr.letsPairs_eq_flatMap] at he
    refine .bind hR (.foldlM hR (fun p hmem t => ?_) _) fun _ => .pure hR _
    have hp := subset_of_flatMap_subset he hmem
    obtain ⟨hk, hv⟩ := List.append_subset.1 hp
    exact .addPair hR (hexpr i p.1 xs hk) (hexpr i p.2 xs hv) t

theorem RebindsWithin.stmt_succ {n : Nat} (h : RebindsWithin n) {s : Stmt} (hs : s.lets ⊆ xs) :
    Along (Rebinds · i xs ·) (stmt (n + 1) i s) := by
  obtain ⟨hexpr, hstmt⟩ := h
  have hR := transition_rebinds i xs
  cases s with
  | bind _ x e =>
    obtain ⟨hx, he⟩ := List.cons_subset.1 hs
    refine .bind hR (hexpr i e xs he) fun v => ?_
    exact .bind hR (.update (rebinds_set hx v)) fun _ => .pure hR _
  | ret _ e? =>
    cases e? with
    | none => exact .signal hR _
    | some e => exact .bind hR (hexpr i e xs hs) fun _ => .signal hR _
  | expr e => exact hexpr i e xs hs
  | block b => exact along_block (fun s => hstmt i s xs) hs

theorem rebindsWithin (n : Nat) : RebindsWithin n := by
  induction n with
  | zero => exact ⟨fun _ _ _ _ => .spent, fun _ _ _ _ => .spent⟩
  | succ n ih => exact ⟨fun _ _ _ => ih.expr_succ, fun _ _ _ => ih.stmt_succ⟩

/-- Showing a fault as an error leaves the store as the program left it. -/
theorem exists_of_eval {p : Program} {depth : Nat} {s t : Store} {v : Value}
    (h : p.eval depth i s = some (v, t)) : ∃ r, program depth i p s = some (r, t) := by
  unfold Program.eval at h
  split at h
  · cases h
  all_goals
    rename_i hp
    cases h
    exact ⟨_, hp⟩

/-- The frame of an evaluation rebinds at most the names that the evaluation has a `let` for, and
all other frames stay as they were; a call changes none of them. -/
theorem rebinds_of_run (depth : Nat) (i : FrameId) (s : Store) :
    (∀ e r t, expr depth i e s = some (r, t) → s.Rebinds i e.lets t) ∧
    (∀ c r t, stmt depth i c s = some (r, t) → s.Rebinds i c.lets t) ∧
    (∀ p r t, program depth i p s = some (r, t) → s.Rebinds i p.lets t) ∧
    (∀ p v t, Program.eval p depth i s = some (v, t) → s.Rebinds i p.lets t) ∧
    (∀ callee args r t, call (fun j => sequence (stmt depth j)) callee args s = some (r, t) →
      s.Keeps t ∧ ∀ j x, j < s.frames.size → t.get? j x = s.get? j x) ∧
    ∀ (b : Builtin) args, s.Keeps (b.call args s).2 := by
  have h := rebindsWithin depth
  have hprogram (p : Program) : Along (Rebinds · i p.lets ·) (program depth i p) :=
    (h.sequence p.statements).returning
  refine ⟨fun e => h.1 i e _ (List.Subset.refl _) s, fun c => h.2 i c _ (List.Subset.refl _) s,
    fun p => hprogram p s, ?_, ?_, fun _ _ => keeps_of_frames_eq rfl⟩
  · intro p v t hv
    obtain ⟨r, hr⟩ := exists_of_eval hv
    exact hprogram p s r t hr
  · intro callee args r t ht
    have hkeeps : s.Keeps t := h.call callee args s r t ht
    exact ⟨hkeeps, fun j x hj => hkeeps.get?_eq hj x⟩

/-- One frame, in which `x` is 1. -/
def outside : Store := ⟨#[⟨[("x", .int ⟨1, by decide, by decide⟩)], none⟩], 0, ""⟩

/-- `{ let x = 2; }` -/
def inside : Block := .mk (.sym .openBrace) [.bind (.word .letWord) ⟨.ident "x", "x"⟩
  (.int (.int "2") ⟨2, by decide, by decide⟩)]

/-- `let z = fn() { let x = 2; }();` -/
def insideOut : Program := ⟨[.bind (.word .letWord) ⟨.ident "z", "z"⟩
  (.call (.sym .openParen) (.fn (.word .fnWord) [] inside) [])]⟩

/-- A function binds its own `x` in a second frame, and the `x` outside stays 1. -/
theorem rebinds_of_run_outside :
    (∃ v t, insideOut.eval 4 0 outside = some (v, t) ∧ t.next = 2 ∧ outside.Rebinds 0 ["z"] t) ∧
    ∃ r t, call (fun j => sequence (stmt 2 j)) (.function ⟨0, [], inside, 0⟩) [] outside =
      some (r, t) ∧ t.next = 2 ∧ outside.Keeps t ∧
      ∀ j x, j < outside.frames.size → t.get? j x = outside.get? j x := by
  obtain ⟨-, -, -, hprogram, -, -⟩ := rebinds_of_run 4 0 outside
  obtain ⟨-, -, -, -, hcall, -⟩ := rebinds_of_run 2 0 outside
  refine ⟨⟨_, _, rfl, rfl, hprogram insideOut _ _ rfl⟩, _, _, rfl, rfl, ?_⟩
  exact hcall (.function ⟨0, [], inside, 0⟩) [] _ _ rfl

end Eval
end Monkey
