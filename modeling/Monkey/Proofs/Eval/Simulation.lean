import Monkey.Eval.Program
import Monkey.Proofs.Store.Related
import Monkey.Proofs.Value.Operators

/-! # Two runs side by side

A `Simulation` says what two runs are to have in common: how the programs may differ, and how the
stores and the functions in them. The laws of the structure say that this lasts through everything
that an evaluation does to a store. If they hold, then either both runs are cut off, or both end in
the same way, with related values and related stores. This is shown level by level
(`Simulation.SimilarWithin`), and so for whole programs: `Simulation.similar_program` and
`Simulation.similar_eval`.

What belongs together can become more in the course of the runs, as each of them adds frames and
functions of its own. The worlds of a simulation keep track of that. A run leads from a world to a
later one, and what is related in a world is related in all later ones.

An invariant of one run is the special case in which both runs are the same.
-/

namespace Monkey

/-! ## Nodes that match -/

section Matches

variable (P : Expr → Expr → Prop) (Q : Stmt → Stmt → Prop)

/-- The same kind of node, with the same names, values and operators. The parts are related by `P`
and `Q`. Nothing is said of the parts of a function, which are not evaluated with it. -/
inductive Expr.Matches : Expr → Expr → Prop where
  | ident {x y : Ident} (h : x.name = y.name) : Matches (.ident x) (.ident y)
  | int {t u : Token} (n : Integer) : Matches (.int t n) (.int u n)
  | str {t u : Token} (s : String) : Matches (.str t s) (.str u s)
  | bool {t u : Token} (b : Bool) : Matches (.bool t b) (.bool u b)
  | unary {t u : Token} {d e : Expr} (op : UnaryOp) (h : P d e) :
      Matches (.unary t op d) (.unary u op e)
  | binary {t u : Token} {d e d' e' : Expr} (op : BinaryOp) (hl : P d e) (hr : P d' e') :
      Matches (.binary t op d d') (.binary u op e e')
  | cond {t u : Token} {d e : Expr} {b c : Block} (hc : P d e)
      (hb : List.Forall₂ Q b.statements c.statements) :
      Matches (.cond t d b none) (.cond u e c none)
  | condElse {t u : Token} {d e : Expr} {b c b' c' : Block} (hc : P d e)
      (hb : List.Forall₂ Q b.statements c.statements)
      (ha : List.Forall₂ Q b'.statements c'.statements) :
      Matches (.cond t d b (some b')) (.cond u e c (some c'))
  | fn {t u : Token} {xs ys : List Ident} {b c : Block} : Matches (.fn t xs b) (.fn u ys c)
  | call {t u : Token} {d e : Expr} {ds es : List Expr} (hf : P d e) (h : List.Forall₂ P ds es) :
      Matches (.call t d ds) (.call u e es)
  | array {t u : Token} {ds es : List Expr} (h : List.Forall₂ P ds es) :
      Matches (.array t ds) (.array u es)
  | index {t u : Token} {d e d' e' : Expr} (hl : P d e) (hi : P d' e') :
      Matches (.index t d d') (.index u e e')
  | hash {t u : Token} {ps qs : List (Expr × Expr)}
      (h : List.Forall₂ (fun p q => P p.1 q.1 ∧ P p.2 q.2) ps qs) :
      Matches (.hash t ps) (.hash u qs)

inductive Stmt.Matches : Stmt → Stmt → Prop where
  | bind {t u : Token} {x y : Ident} {d e : Expr} (hx : x.name = y.name) (h : P d e) :
      Matches (.bind t x d) (.bind u y e)
  | ret {t u : Token} {d e : Expr} (h : P d e) : Matches (.ret t (some d)) (.ret u (some e))
  | retNone {t u : Token} : Matches (.ret t none) (.ret u none)
  | expr {d e : Expr} (h : P d e) : Matches (.expr d) (.expr e)
  | block {b c : Block} (h : List.Forall₂ Q b.statements c.statements) :
      Matches (.block b) (.block c)

variable {P Q}

/-- A node matches itself, if all parts are related to themselves. -/
theorem Expr.matches_self (hP : ∀ e, P e e) (hQ : ∀ s, Q s s) (e : Expr) : e.Matches P Q e := by
  have hstmts (ss : List Stmt) : List.Forall₂ Q ss ss := List.forall₂_same.2 fun s _ => hQ s
  have hexprs (es : List Expr) : List.Forall₂ P es es := List.forall₂_same.2 fun e _ => hP e
  cases e with
  | ident x => exact .ident rfl
  | int t n => exact .int n
  | str t s => exact .str s
  | bool t b => exact .bool b
  | unary t op e => exact .unary op (hP e)
  | binary t op l r => exact .binary op (hP l) (hP r)
  | cond t c b a? =>
    cases a? with
    | none => exact .cond (hP c) (hstmts _)
    | some a => exact .condElse (hP c) (hstmts _) (hstmts _)
  | fn t xs b => exact .fn
  | call t f es => exact .call (hP f) (hexprs es)
  | array t es => exact .array (hexprs es)
  | index t l i => exact .index (hP l) (hP i)
  | hash t ps => exact .hash (List.forall₂_same.2 fun p _ => ⟨hP p.1, hP p.2⟩)

theorem Stmt.matches_self (hP : ∀ e, P e e) (hQ : ∀ s, Q s s) (c : Stmt) : c.Matches P Q c := by
  cases c with
  | bind t x e => exact .bind rfl (hP e)
  | ret t e? =>
    cases e? with
    | none => exact .retNone
    | some e => exact .ret (hP e)
  | expr e => exact .expr (hP e)
  | block b => exact .block (List.forall₂_same.2 fun s _ => hQ s)

theorem Expr.matches_of_eq {d e : Expr} (h : d = e) : d.Matches Eq Eq e := by
  subst h
  exact matches_self (fun _ => rfl) (fun _ => rfl) d

theorem Stmt.matches_of_eq {c d : Stmt} (h : c = d) : c.Matches Eq Eq d := by
  subst h
  exact matches_self (fun _ => rfl) (fun _ => rfl) c

end Matches

/-! ## Simulations -/

/-- What two runs have in common. -/
structure Simulation where
  World : Type
  Later : World → World → Prop
  /-- Functions that belong together. -/
  functions : World → Closure → Closure → Prop
  /-- Whether errors may be among the values. -/
  errors : Prop
  /-- Frames that belong together. -/
  frames : World → FrameId → FrameId → Prop
  stores : World → Store → Store → Prop
  exprs : Expr → Expr → Prop
  stmts : Stmt → Stmt → Prop
  refl : ∀ w, Later w w
  trans : ∀ {w w' w''}, Later w w' → Later w' w'' → Later w w''
  functions_later : ∀ {w w' f g}, Later w w' → functions w f g → functions w' f g
  frames_later : ∀ {w w' i j}, Later w w' → frames w i j → frames w' i j
  expr_matches : ∀ {d e}, exprs d e → Expr.Matches exprs stmts d e
  stmt_matches : ∀ {c d}, stmts c d → Stmt.Matches exprs stmts c d
  /-- Functions are told apart in the same way. -/
  id_iff : ∀ {w f f' g g'}, functions w f f' → functions w g g' → (f.id = g.id ↔ f'.id = g'.id)
  inspect_eq : ∀ {w f g}, functions w f g → f.inspect = g.inspect
  params : ∀ {w f g}, functions w f g → f.params.length = g.params.length
  body : ∀ {w f g}, functions w f g → List.Forall₂ stmts f.body.statements g.body.statements
  get? : ∀ {w s t i j x y}, stores w s t → frames w i j → exprs (.ident x) (.ident y) →
    Option.Rel (Value.Related (functions w) errors) (s.get? i x.name) (t.get? j y.name)
  set : ∀ {w s t i j x v v'}, stores w s t → frames w i j →
    Value.Related (functions w) errors v v' → stores w (s.set i x v) (t.set j x v')
  print : ∀ {w s t} (text), stores w s t → stores w (s.print text) (t.print text)
  makeFunction : ∀ {w s t i j a b xs ys c d}, stores w s t → frames w i j →
    exprs (.fn a xs c) (.fn b ys d) → ∃ w', Later w w' ∧
      functions w' ⟨s.functions, xs, c, i⟩ ⟨t.functions, ys, d, j⟩ ∧
      stores w' { s with functions := s.functions + 1 } { t with functions := t.functions + 1 }
  addFrame : ∀ {w s t f g vs vs'}, stores w s t → functions w f g →
    List.Forall₂ (Value.Related (functions w) errors) vs vs' → ∃ w', Later w w' ∧
      frames w' s.next t.next ∧ stores w' (s.addFrame (.ofCall f.scope (f.params.map Ident.name) vs))
        (t.addFrame (.ofCall g.scope (g.params.map Ident.name) vs'))

namespace Simulation

open Eval

variable {K : Simulation} {w w' : K.World} {α β γ δ : Type}

/-- Values that belong together. -/
abbrev values (K : Simulation) (w : K.World) : Value → Value → Prop :=
  Value.Related (K.functions w) K.errors

theorem values_later {v v' : Value} (hw : K.Later w w') (h : K.values w v v') :
    K.values w' v v' :=
  h.mono (fun _ _ => K.functions_later hw) id

/-- The evaluations end in the same way. -/
inductive Results (K : Simulation) (w : K.World) (A : α → β → Prop) :
    Except Signal α → Except Signal β → Prop where
  | ok {a : α} {b : β} (h : A a b) : Results K w A (.ok a) (.ok b)
  | returned {v v' : Value} (h : K.values w v v') :
      Results K w A (.error (.returned v)) (.error (.returned v'))
  | raised (f : Fault) : Results K w A (.error (.raised f)) (.error (.raised f))

/-- Either both evaluations are cut off, or both end in the same way in some later world. -/
inductive Outcomes (K : Simulation) (w : K.World) (A : K.World → α → β → Prop) :
    Option (Except Signal α × Store) → Option (Except Signal β × Store) → Prop where
  | spent : Outcomes K w A none none
  | ended {w' : K.World} {r : Except Signal α} {r' : Except Signal β} {s t : Store}
      (hw : K.Later w w') (hs : K.stores w' s t) (hr : Results K w' (A w') r r') :
      Outcomes K w A (some (r, s)) (some (r', t))

theorem Outcomes.of_later {A : K.World → α → β → Prop} {o : Option (Except Signal α × Store)}
    {o' : Option (Except Signal β × Store)} (hw : K.Later w w') (h : Outcomes K w' A o o') :
    Outcomes K w A o o' := by
  cases h with
  | spent => exact .spent
  | ended hw' hs hr => exact .ended (K.trans hw hw') hs hr

/-- From related stores, the evaluations lead to related stores and to results that are related by
`A`. -/
def Similar (K : Simulation) (w : K.World) (A : K.World → α → β → Prop) (x : Eval α)
    (y : Eval β) : Prop :=
  ∀ s t, K.stores w s t → Outcomes K w A (x s) (y t)

/-! ## Putting evaluations together -/

namespace Similar

variable {A : K.World → α → β → Prop} {B : K.World → γ → δ → Prop} {x : Eval α} {y : Eval β}

theorem spent : K.Similar w A spent spent := fun _ _ _ => .spent

theorem pure {a : α} {b : β} (h : A w a b) : K.Similar w A (pure a) (pure b) :=
  fun _ _ hs => .ended (K.refl w) hs (.ok h)

theorem returned {v v' : Value} (h : K.values w v v') :
    K.Similar w A (signal (.returned v)) (signal (.returned v')) :=
  fun _ _ hs => .ended (K.refl w) hs (.returned h)

theorem raise (f : Fault) : K.Similar w A (raise f) (raise f) :=
  fun _ _ hs => .ended (K.refl w) hs (.raised f)

theorem ofExcept {a : Except Fault α} {b : Except Fault β} (h : Agree (A w) a b) :
    K.Similar w A (ofExcept a) (ofExcept b) := by
  cases h with
  | ok h => exact pure h
  | error f => exact raise f

theorem ask {f : Store → α} {g : Store → β} (h : ∀ s t, K.stores w s t → A w (f s) (g t)) :
    K.Similar w A (ask f) (ask g) :=
  fun s t hs => .ended (K.refl w) hs (.ok (h s t hs))

theorem update {f g : Store → Store} (h : ∀ s t, K.stores w s t → K.stores w (f s) (g t)) :
    K.Similar w (fun _ _ _ => True) (update f) (update g) :=
  fun s t hs => .ended (K.refl w) (h s t hs) (.ok trivial)

theorem bind {f : α → Eval γ} {g : β → Eval δ} (h : K.Similar w A x y)
    (hfg : ∀ w' a b, K.Later w w' → A w' a b → K.Similar w' B (f a) (g b)) :
    K.Similar w B (x >>= f) (y >>= g) := by
  intro s t hs
  have hxy := h s t hs
  rcases hx : x s with _ | ⟨r, s'⟩ <;> rcases hy : y t with _ | ⟨r', t'⟩ <;> rw [hx, hy] at hxy
  · rw [bind_of_none hx, bind_of_none hy]
    exact .spent
  · cases hxy
  · cases hxy
  · cases hxy with
    | ended hw hs' hr =>
      cases hr with
      | ok hab =>
        rw [bind_of_ok hx, bind_of_ok hy]
        exact (hfg _ _ _ hw hab _ _ hs').of_later hw
      | returned hv =>
        rw [bind_of_error hx, bind_of_error hy]
        exact .ended hw hs' (.returned hv)
      | raised f =>
        rw [bind_of_error hx, bind_of_error hy]
        exact .ended hw hs' (.raised f)

theorem returning {x y : Eval Value} (h : K.Similar w K.values x y) :
    K.Similar w K.values (returning x) (returning y) := by
  intro s t hs
  have hxy := h s t hs
  rw [Eval.returning, Eval.returning]
  generalize x s = o at hxy ⊢
  generalize y t = o' at hxy ⊢
  cases hxy with
  | spent => exact .spent
  | ended hw hs' hr =>
    cases hr with
    | ok hv => exact .ended hw hs' (.ok hv)
    | returned hv => exact .ended hw hs' (.ok hv)
    | raised f => exact .ended hw hs' (.raised f)

section Lists

variable {P : γ → δ → Prop} {ls : List γ} {ms : List δ}

theorem foldlM {f : α → γ → Eval α} {g : β → δ → Eval β} (hl : List.Forall₂ P ls ms)
    (h : ∀ w' a b c d, K.Later w w' → A w' a b → P c d → K.Similar w' A (f a c) (g b d))
    {a : α} {b : β} (hab : A w a b) : K.Similar w A (ls.foldlM f a) (ms.foldlM g b) := by
  induction hl generalizing w a b with
  | nil => exact pure hab
  | cons hcd _ ih =>
    rw [List.foldlM_cons, List.foldlM_cons]
    refine bind (h w a b _ _ (K.refl w) hab hcd) fun w' a' b' hw hab' => ?_
    exact ih (fun w'' a b c d hw' => h w'' a b c d (K.trans hw hw')) hab'

theorem mapM {f : γ → Eval α} {g : δ → Eval β} (hl : List.Forall₂ P ls ms)
    (hA : ∀ w w' a b, K.Later w w' → A w a b → A w' a b)
    (h : ∀ w' c d, K.Later w w' → P c d → K.Similar w' A (f c) (g d)) :
    K.Similar w (fun w' => List.Forall₂ (A w')) (ls.mapM f) (ms.mapM g) := by
  induction hl generalizing w with
  | nil => exact pure .nil
  | cons hcd _ ih =>
    rw [List.mapM_cons, List.mapM_cons]
    refine bind (h w _ _ (K.refl w) hcd) fun w' a b hw hab => ?_
    refine bind (ih fun w'' c d hw' => h w'' c d (K.trans hw hw')) fun w'' as bs hw' habs => ?_
    exact pure (.cons (hA w' w'' a b hw' hab) habs)

theorem sequence {f g : Stmt → Eval Value} {ss ts : List Stmt} (hl : List.Forall₂ K.stmts ss ts)
    (h : ∀ w' c d, K.Later w w' → K.stmts c d → K.Similar w' K.values (f c) (g d)) :
    K.Similar w K.values (sequence f ss) (sequence g ts) :=
  foldlM hl (fun w' _ _ c d hw _ => h w' c d hw) .null

end Lists

/-! ## What evaluations do -/

variable {i j : FrameId}

theorem name (hij : K.frames w i j) {x y : Ident} (hxy : x.name = y.name)
    (h : K.exprs (.ident x) (.ident y)) :
    K.Similar w K.values (name i x.name) (name j y.name) := by
  have hask : K.Similar w (fun w' => Option.Rel (K.values w')) (Eval.ask (·.get? i x.name))
      (Eval.ask (·.get? j y.name)) :=
    ask fun s t hs => K.get? hs hij h
  refine bind hask fun w' v? v'? _ hv => ?_
  cases hv with
  | some hv => exact pure hv
  | none =>
    rw [hxy]
    rcases Builtin.ofName? y.name with _ | b
    · exact raise _
    · exact pure (.builtin b)

theorem makeFunction (hij : K.frames w i j) {a b : Token} {xs ys : List Ident} {c d : Block}
    (h : K.exprs (.fn a xs c) (.fn b ys d)) :
    K.Similar w K.values (Eval.makeFunction xs c i) (Eval.makeFunction ys d j) := by
  intro s t hs
  obtain ⟨w', hw, hfg, hs'⟩ := K.makeFunction hs hij h
  exact .ended hw hs' (.ok (.function hfg))

theorem callBuiltin (b : Builtin) {vs ws : List Value} (h : List.Forall₂ (K.values w) vs ws) :
    K.Similar w K.values (callBuiltin b vs) (callBuiltin b ws) := by
  have hprinted := Builtin.printed_eq (fun _ _ => K.inspect_eq) b h
  have hprint : K.Similar w (fun _ _ _ => True) (Eval.update (·.print (b.printed vs)))
      (Eval.update (·.print (b.printed ws))) := by
    rw [hprinted]
    exact update fun _ _ => K.print _
  refine bind hprint fun w' _ _ hw _ => ?_
  have hresult := Builtin.agree_result b h
  rw [Builtin.answer, Builtin.answer]
  generalize b.result vs = r at hresult ⊢
  generalize b.result ws = r' at hresult ⊢
  cases hresult with
  | error m => exact raise _
  | ok hv =>
    have hv' := K.values_later hw hv
    cases hv with
    | error _ m => exact raise _
    | _ => exact pure hv'

theorem call {run run' : FrameId → List Stmt → Eval Value}
    (hrun : ∀ w' i j ss ts, K.Later w w' → K.frames w' i j → List.Forall₂ K.stmts ss ts →
      K.Similar w' K.values (run i ss) (run' j ts))
    {f g : Value} {vs ws : List Value} (hfg : K.values w f g)
    (h : List.Forall₂ (K.values w) vs ws) :
    K.Similar w K.values (call run f vs) (call run' g ws) := by
  cases hfg with
  | @function f g hfg =>
    rw [Eval.call, Eval.call, K.params hfg, h.length_eq]
    split
    · intro s t hs
      -- The frames of the calls are new, and belong together from here on.
      obtain ⟨w', hw, hij, hs'⟩ := K.addFrame hs hfg h
      exact ((hrun w' _ _ _ _ hw hij (K.body hfg)).returning _ _ hs').of_later hw
    · exact raise _
  | builtin b => exact callBuiltin b h
  | _ => exact raise _

theorem addPair {f g : Expr → Eval Value} {p q : Expr × Expr}
    (hk : K.Similar w K.values (f p.1) (g q.1))
    (hv : ∀ w', K.Later w w' → K.Similar w' K.values (f p.2) (g q.2)) {t u : Table (Entry Value)}
    (h : Table.Related (Entry.Related (K.values w)) t u) :
    K.Similar w (fun w' => Table.Related (Entry.Related (K.values w'))) (addPair f t p)
      (addPair g u q) := by
  refine bind hk fun w₁ c d hw₁ hcd => ?_
  refine bind (A := fun _ => Eq) (ofExcept (agree_key hcd)) fun w₂ k _ hw₂ hkl => ?_
  subst hkl
  refine bind (hv w₂ (K.trans hw₁ hw₂)) fun w₃ v v' hw₃ hvv' => ?_
  have hw : K.Later w w₃ := K.trans hw₁ (K.trans hw₂ hw₃)
  have htu : Table.Related (Entry.Related (K.values w₃)) t u :=
    h.imp fun _ _ hab => ⟨hab.1, K.values_later hw hab.2.1, K.values_later hw hab.2.2⟩
  exact pure (htu.insert ⟨K.values_later (K.trans hw₂ hw₃) hcd, hvv'⟩)

end Similar

/-! ## Whole evaluations -/

/-- What holds of evaluations that go `n` levels deep. -/
structure SimilarWithin (K : Simulation) (n : Nat) : Prop where
  expr : ∀ w i j d e, K.frames w i j → K.exprs d e →
    K.Similar w K.values (expr n i d) (Eval.expr n j e)
  stmt : ∀ w i j c d, K.frames w i j → K.stmts c d →
    K.Similar w K.values (stmt n i c) (Eval.stmt n j d)

namespace SimilarWithin

variable {n : Nat} {i j : FrameId}

theorem sequence (h : K.SimilarWithin n) (hij : K.frames w i j) {ss ts : List Stmt}
    (hl : List.Forall₂ K.stmts ss ts) :
    K.Similar w K.values (sequence (Eval.stmt n i) ss) (Eval.sequence (Eval.stmt n j) ts) :=
  .sequence hl fun w' c d hw => h.stmt w' i j c d (K.frames_later hw hij)

theorem mapM (h : K.SimilarWithin n) (hij : K.frames w i j) {ds es : List Expr}
    (hl : List.Forall₂ K.exprs ds es) :
    K.Similar w (fun w' => List.Forall₂ (K.values w')) (ds.mapM (Eval.expr n i))
      (es.mapM (Eval.expr n j)) := by
  refine .mapM hl (fun _ _ _ _ => K.values_later) fun w' d e hw => ?_
  exact h.expr w' i j d e (K.frames_later hw hij)

theorem expr_succ (h : K.SimilarWithin n) (hij : K.frames w i j) {d e : Expr}
    (hde : K.exprs d e) : K.Similar w K.values (Eval.expr (n + 1) i d) (Eval.expr (n + 1) j e) := by
  have hexpr {w'} (hw : K.Later w w') {d e : Expr} (hde : K.exprs d e) :
      K.Similar w' K.values (Eval.expr n i d) (Eval.expr n j e) :=
    h.expr w' i j d e (K.frames_later hw hij) hde
  cases K.expr_matches hde with
  | ident hxy => exact .name hij hxy hde
  | int m => exact .pure (.int m)
  | str s => exact .pure (.str s)
  | bool b => exact .pure (.bool b)
  | unary op hd =>
    refine .bind (hexpr (K.refl w) hd) fun w' v v' hw hv => ?_
    exact .ofExcept (agree_unary op hv)
  | binary op hl hr =>
    refine .bind (hexpr (K.refl w) hl) fun w' v v' hw hv => ?_
    refine .bind (hexpr hw hr) fun w'' u u' hw' hu => ?_
    exact .ofExcept (agree_binary (fun _ _ _ _ => K.id_iff) op (K.values_later hw' hv) hu)
  | cond hc hb =>
    refine .bind (hexpr (K.refl w) hc) fun w' v v' hw hv => ?_
    rw [hv.isTruthy_eq]
    split
    · exact h.sequence (K.frames_later hw hij) hb
    · exact .pure .null
  | condElse hc hb ha =>
    refine .bind (hexpr (K.refl w) hc) fun w' v v' hw hv => ?_
    rw [hv.isTruthy_eq]
    split
    · exact h.sequence (K.frames_later hw hij) hb
    · exact h.sequence (K.frames_later hw hij) ha
  | fn => exact .makeFunction hij hde
  | call hf hl =>
    refine .bind (hexpr (K.refl w) hf) fun w' f g hw hfg => ?_
    refine .bind (h.mapM (K.frames_later hw hij) hl) fun w'' vs ws hw' hvs => ?_
    refine .call (fun w₃ k l ss ts _ hkl => ?_) (K.values_later hw' hfg) hvs
    exact h.sequence hkl
  | array hl =>
    refine .bind (h.mapM hij hl) fun w' vs ws hw hvs => ?_
    exact .pure (.array hvs)
  | index hl hi =>
    refine .bind (hexpr (K.refl w) hl) fun w' v v' hw hv => ?_
    refine .bind (hexpr hw hi) fun w'' u u' hw' hu => ?_
    exact .ofExcept (agree_index (K.values_later hw' hv) hu)
  | hash hl =>
    refine .bind (A := fun w' => Table.Related (Entry.Related (K.values w'))) ?_
      fun w' t u hw htu => ?_
    · refine .foldlM hl (fun w' t u p q hw htu hpq => ?_) .nil
      exact .addPair (hexpr hw hpq.1) (fun w'' hw' => hexpr (K.trans hw hw') hpq.2) htu
    · exact .pure (Value.related_hash.2 htu)

theorem stmt_succ (h : K.SimilarWithin n) (hij : K.frames w i j) {c d : Stmt}
    (hcd : K.stmts c d) : K.Similar w K.values (Eval.stmt (n + 1) i c) (Eval.stmt (n + 1) j d) := by
  cases K.stmt_matches hcd with
  | @bind _ _ x y d e hxy he =>
    refine .bind (h.expr w i j d e hij he) fun w' v v' hw hv => ?_
    rw [hxy]
    intro s t hs
    exact .ended (K.refl w') (K.set hs (K.frames_later hw hij) hv) (.ok hv)
  | ret he =>
    refine .bind (h.expr w i j _ _ hij he) fun w' v v' hw hv => ?_
    exact .returned hv
  | retNone => exact .raise _
  | expr he => exact h.expr w i j _ _ hij he
  | block hb => exact h.sequence hij hb

end SimilarWithin

theorem similarWithin (K : Simulation) (n : Nat) : K.SimilarWithin n := by
  -- Not on the program: the body of a function is no part of the call that runs it.
  induction n with
  | zero => exact ⟨fun _ _ _ _ _ _ _ => .spent, fun _ _ _ _ _ _ _ => .spent⟩
  | succ n ih =>
    constructor
    · intro w i j d e hij hde
      exact ih.expr_succ hij hde
    · intro w i j c d hij hcd
      exact ih.stmt_succ hij hcd

/-- Programs with related statements, run in frames that belong together, end in the same way. -/
theorem similar_program (K : Simulation) {w : K.World} (depth : Nat) {i j : FrameId}
    (hij : K.frames w i j) {p q : Program} (h : List.Forall₂ K.stmts p.statements q.statements) :
    K.Similar w K.values (program depth i p) (program depth j q) :=
  ((K.similarWithin depth).sequence hij h).returning

end Simulation

/-! ## Values of programs -/

/-- How the end of a program is shown. -/
def Eval.shown : Except Signal Value → Value
  | .ok v | .error (.returned v) => v
  | .error (.raised f) => .error f.message

theorem Program.eval_eq_map (p : Program) (depth : Nat) (i : FrameId) (s : Store) :
    p.eval depth i s = (Eval.program depth i p s).map fun (r, t) => (Eval.shown r, t) := by
  unfold Program.eval
  rcases Eval.program depth i p s with _ | ⟨(e | v), t⟩
  · rfl
  · cases e <;> rfl
  · rfl

/-- Programs with related statements have related values, if errors may be among them. -/
theorem Simulation.similar_eval (K : Simulation) (hK : K.errors) {w : K.World} (depth : Nat)
    {i j : FrameId} (hij : K.frames w i j) {p q : Program}
    (h : List.Forall₂ K.stmts p.statements q.statements) {s t : Store} (hs : K.stores w s t) :
    Option.Rel
      (fun a b => ∃ w', K.Later w w' ∧ K.stores w' a.2 b.2 ∧ K.values w' a.1 b.1)
      (p.eval depth i s) (q.eval depth j t) := by
  have hsim := K.similar_program depth hij h s t hs
  rw [Program.eval_eq_map, Program.eval_eq_map]
  generalize Eval.program depth i p s = o at hsim ⊢
  generalize Eval.program depth j q t = o' at hsim ⊢
  cases hsim with
  | spent => exact .none
  | ended hw hs' hr =>
    refine .some ⟨_, hw, hs', ?_⟩
    cases hr with
    | ok hv => exact hv
    | returned hv => exact hv
    | raised f => exact .error hK _

end Monkey
