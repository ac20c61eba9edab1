import Monkey.Proofs.Eval.Context
import Monkey.Proofs.Eval.Frames
import Monkey.Proofs.Eval.Unread

/-! # What evaluations come to, whatever has been called before

A function that calls itself does so in a store to which other calls have added their frames. None of
these matters: what a call comes to depends on the frame that the function lies in and on those around
it, and calls change no frame that is there. `Eval.Yields s i a r` says that `a` ends with `r` in all
stores that keep the frames of `s`, and keeps all frames that it finds.

There is one rule for each node. The parts are all given for the same `s`, so that nothing has to be
said about the frames that one part leaves to the next. A `let` has no such rule, since it changes a
frame.
-/

namespace Monkey

/-! ## Names in the frame of a call -/

theorem Frame.outer_ofCall (o : FrameId) (xs : List String) (vs : List Value) :
    (ofCall o xs vs).outer = some o :=
  List.foldlRecOn (motive := fun f : Frame => f.outer = some o) _ _ rfl fun _ h _ _ => h

theorem lookup_zip_of_notMem {xs : List String} {x : String} (h : x ∉ xs) (vs : List Value) :
    (xs.zip vs).lookup x = none := by
  rw [List.lookup_eq_none_iff]
  intro p hp
  rw [bne_iff_ne]
  rintro rfl
  exact h (List.of_mem_zip hp).1

/-- A call binds each parameter to the argument in its place. -/
theorem Frame.find?_ofCall {xs : List String} (hxs : xs.Nodup) (o : FrameId) (vs : List Value)
    (x : String) : (ofCall o xs vs).bindings.find? x = (xs.zip vs).lookup x := by
  have hfold (f : Frame) : ((xs.zip vs).foldl (fun f p => f.set p.1 p.2) f).bindings.find? x =
      ((xs.zip vs).lookup x).or (f.bindings.find? x) := by
    induction xs generalizing f vs with
    | nil => rfl
    | cons y xs ih =>
      cases vs with
      | nil => rfl
      | cons v vs =>
        obtain ⟨hy, hxs⟩ := List.nodup_cons.1 hxs
        rw [List.zip_cons_cons, List.foldl_cons, ih hxs, Frame.set, Bindings.find?_set,
          List.lookup_cons]
        by_cases hyx : y = x
        · subst hyx
          rw [lookup_zip_of_notMem hy, if_pos rfl, BEq.rfl]
          rfl
        · rw [if_neg hyx, beq_eq_false_iff_ne.2 (Ne.symm hyx)]
  rw [ofCall, hfold]
  exact Option.or_none

namespace Store

variable {s t u : Store} {o i : FrameId} {xs : List String}

theorem Keeps.refl (s : Store) : Keeps s s := transition_keeps.refl s

theorem Keeps.trans (hst : Keeps s t) (htu : Keeps t u) : Keeps s u :=
  transition_keeps.trans hst htu

/-- In the frame of a call, a name stands for an argument, or for the same as around it. -/
theorem Keeps.get?_ofCall (h : Keeps s t) (ho : o < s.next) (hxs : xs.Nodup) (vs : List Value)
    (x : String) : (t.addFrame (.ofCall o xs vs)).get? t.next x =
      ((xs.zip vs).lookup x).or (s.get? o x) := by
  have hframe : (t.addFrame (.ofCall o xs vs)).frames[t.next]? = some (.ofCall o xs vs) := by
    rw [getElem?_addFrame, if_pos rfl]
  have hlt : o < t.next := Nat.lt_of_lt_of_le ho h.next_le
  rw [get?_of_frame hframe, Frame.find?_ofCall hxs, Frame.outer_ofCall, Option.bind_some,
    if_pos hlt, (h.trans (keeps_addFrame _ t)).get?_eq ho]

/-- A name that has been bound stands for what it was bound to, and the others for the same as
before. -/
theorem get?_set (hi : i < s.next) (x y : String) (v : Value) :
    (s.set i x v).get? i y = if x = y then some v else s.get? i y := by
  by_cases hxy : x = y
  · have hs : s.frames[i]? = some s.frames[i] := Array.getElem?_eq_getElem hi
    have hframe : (s.set i x v).frames[i]? = some (s.frames[i].set x v) := by
      rw [getElem?_set, if_pos rfl, hs, Option.map_some]
    rw [get?_of_frame hframe, Frame.set, Bindings.find?_set, if_pos hxy, if_pos hxy, Option.some_or]
  · rw [if_neg hxy, (SameBut.set_self s i x v).get?_eq (Ne.symm hxy)]

end Store

namespace Eval

variable {s t : Store} {i : FrameId} {a : Job} {x : String} {v w : Value} {vs : List Value}
  {r : Except Signal Value} {e : Signal}

/-- Wherever the frames of `s` are kept, `a` ends with `r` and keeps all frames. -/
def Yields (s : Store) (i : FrameId) (a : Job) (r : Except Signal Value) : Prop :=
  ∀ t, s.Keeps t → ∃ u, Ends i a t r u ∧ t.Keeps u

/-- The same for expressions that are evaluated one after the other. -/
def YieldsAll (s : Store) (i : FrameId) (es : List Expr) (vs : List Value) : Prop :=
  ∀ t, s.Keeps t → ∃ u, ListEnds i es t vs u ∧ t.Keeps u

/-- The same for all that is evaluated before a hole. -/
def Reaches (s : Store) (i : FrameId) (ps : List Prior) : Prop :=
  ∀ t, s.Keeps t → ∃ u, Passes i ps t u ∧ t.Keeps u

theorem Yields.mono (h : Yields s i a r) (hst : s.Keeps t) : Yields t i a r :=
  fun u htu => h u (hst.trans htu)

/-! ## Expressions -/

theorem yields_int (s : Store) (i : FrameId) (token : Token) (n : Integer) :
    Yields s i (.expr (.int token n)) (.ok (.int n)) :=
  fun t _ => ⟨t, ends_int i token n t, .refl t⟩

theorem yields_ident (hi : i < s.next) (h : s.get? i x = some v) (token : Token) :
    Yields s i (.expr (.ident ⟨token, x⟩)) (.ok v) := by
  intro t ht
  rw [← ht.get?_eq hi] at h
  exact ⟨t, ends_ident_of_get? h token, .refl t⟩

theorem yields_builtin {b : Builtin} (hi : i < s.next) (h : s.get? i b.name = none)
    (token : Token) : Yields s i (.expr (.ident ⟨token, b.name⟩)) (.ok (.builtin b)) := by
  intro t ht
  rw [← ht.get?_eq hi] at h
  have hends := ends_ident_of_none h token
  rw [Builtin.ofName?_eq_some.2 rfl] at hends
  exact ⟨t, hends, .refl t⟩

namespace Yields

theorem binary {l r : Expr} (token : Token) (op : BinaryOp) (hl : Yields s i (.expr l) (.ok v))
    (hr : Yields s i (.expr r) (.ok w)) :
    Yields s i (.expr (.binary token op l r)) ((Eval.binary op v w).mapError .raised) := by
  intro t ht
  obtain ⟨u, hl, htu⟩ := hl t ht
  obtain ⟨u', hr, huu⟩ := hr u (ht.trans htu)
  exact ⟨u', hl.binary token op hr, htu.trans huu⟩

section Conditions

variable {c : Expr} {b d : Block}

theorem cond (token : Token) (hc : Yields s i (.expr c) (.ok v)) (hv : v.isTruthy = true)
    (hb : Yields s i (.block b.statements) r) (a? : Option Block) :
    Yields s i (.expr (.cond token c b a?)) r := by
  intro t ht
  obtain ⟨u, hc, htu⟩ := hc t ht
  obtain ⟨u', hb, huu⟩ := hb u (ht.trans htu)
  exact ⟨u', hc.cond token hv hb a?, htu.trans huu⟩

theorem condElse (token : Token) (hc : Yields s i (.expr c) (.ok v)) (hv : v.isTruthy = false)
    (b : Block) (hd : Yields s i (.block d.statements) r) :
    Yields s i (.expr (.cond token c b (some d))) r := by
  intro t ht
  obtain ⟨u, hc, htu⟩ := hc t ht
  obtain ⟨u', hd, huu⟩ := hd u (ht.trans htu)
  exact ⟨u', hc.condElse token hv b hd, htu.trans huu⟩

theorem condNone (token : Token) (hc : Yields s i (.expr c) (.ok v)) (hv : v.isTruthy = false)
    (b : Block) : Yields s i (.expr (.cond token c b none)) (.ok .null) := by
  intro t ht
  obtain ⟨u, hc, htu⟩ := hc t ht
  exact ⟨u, hc.condNone token hv b, htu⟩

end Conditions

/-! ## Statements -/

section Statements

variable {e : Expr} {d d' : Stmt} {ss : List Stmt}

theorem stmt (h : Yields s i (.expr e) r) : Yields s i (.stmt (.expr e)) r := by
  intro t ht
  obtain ⟨u, h, htu⟩ := h t ht
  exact ⟨u, h.stmt, htu⟩

theorem ret (token : Token) (h : Yields s i (.expr e) (.ok v)) :
    Yields s i (.stmt (.ret token (some e))) (.error (.returned v)) := by
  intro t ht
  obtain ⟨u, h, htu⟩ := h t ht
  exact ⟨u, h.ret token, htu⟩

theorem last (h : Yields s i (.stmt d) r) : Yields s i (.block [d]) r := by
  intro t ht
  obtain ⟨u, h, htu⟩ := h t ht
  exact ⟨u, h.last, htu⟩

theorem next (hd : Yields s i (.stmt d) (.ok v)) (hss : Yields s i (.block (d' :: ss)) r) :
    Yields s i (.block (d :: d' :: ss)) r := by
  intro t ht
  obtain ⟨u, hd, htu⟩ := hd t ht
  obtain ⟨u', hss, huu⟩ := hss u (ht.trans htu)
  exact ⟨u', hd.next hss, htu.trans huu⟩

end Statements
end Yields

/-! ## Calls -/

theorem YieldsAll.nil (s : Store) (i : FrameId) : YieldsAll s i [] [] :=
  fun t _ => ⟨t, .nil, .refl t⟩

theorem YieldsAll.cons {e : Expr} {es : List Expr} (he : Yields s i (.expr e) (.ok v))
    (hes : YieldsAll s i es vs) : YieldsAll s i (e :: es) (v :: vs) := by
  intro t ht
  obtain ⟨u, he, htu⟩ := he t ht
  obtain ⟨u', hes, huu⟩ := hes u (ht.trans htu)
  exact ⟨u', .cons he hes, htu.trans huu⟩

theorem YieldsAll.append {ds es : List Expr} {ws : List Value} (hds : YieldsAll s i ds vs)
    (hes : YieldsAll s i es ws) : YieldsAll s i (ds ++ es) (vs ++ ws) := by
  intro t ht
  obtain ⟨u, hds, htu⟩ := hds t ht
  obtain ⟨u', hes, huu⟩ := hes u (ht.trans htu)
  exact ⟨u', hds.append hes, htu.trans huu⟩

theorem YieldsAll.array {es : List Expr} (h : YieldsAll s i es vs) (token : Token) :
    Yields s i (.expr (.array token es)) (.ok (.array vs)) := by
  intro t ht
  obtain ⟨u, h, htu⟩ := h t ht
  exact ⟨u, h.array token, htu⟩

namespace Yields

theorem apply {f : Expr} {es : List Expr} (token : Token) (hf : Yields s i (.expr f) (.ok v))
    (hes : YieldsAll s i es vs) (hcall : Yields s i (.call v vs) r) :
    Yields s i (.expr (.call token f es)) r := by
  intro t ht
  obtain ⟨u, hf, htu⟩ := hf t ht
  obtain ⟨u', hes, huu⟩ := hes u (ht.trans htu)
  have htu' := htu.trans huu
  obtain ⟨w, hcall, huw⟩ := hcall u' (ht.trans htu')
  exact ⟨w, hf.apply token hes hcall, htu'.trans huw⟩

/-- That a call keeps all frames need not be shown. -/
theorem of_ends (h : ∀ t, s.Keeps t → ∃ u, Ends i (.call v vs) t r u) :
    Yields s i (.call v vs) r := by
  intro t ht
  obtain ⟨u, n, hn⟩ := h t ht
  exact ⟨u, ⟨n, hn⟩, (rebindsWithin n).call v vs t r u hn⟩

/-- The body of a function finds the frame of the call, besides those that were there. -/
theorem function {f : Closure} {args : List Value} (hlen : f.params.length = args.length)
    (h : ∀ t, s.Keeps t → ∃ u, Ends t.next (.block f.body.statements)
      (t.addFrame (.ofCall f.scope (f.params.map Ident.name) args)) r u) :
    Yields s i (.call (.function f) args) (caught r) := by
  apply of_ends
  intro t ht
  obtain ⟨u, hbody⟩ := h t ht
  exact ⟨u, ends_call hlen hbody⟩

/-- A builtin that answers with no error has its answer for a value. -/
theorem builtin {b : Builtin} (h : b.answer vs = v) (hv : v.isError = false) :
    Yields s i (.call (.builtin b) vs) (.ok v) := by
  apply of_ends
  intro t _
  refine ⟨t.print (b.printed vs), 0, ?_⟩
  rw [Job.run, call, callBuiltin, bind_of_ok (rfl : update _ t = some (.ok (), _)), h]
  cases v with
  | error m => cases hv
  | _ => rfl

end Yields

/-! ## Signals -/

namespace Reaches

theorem nil (s : Store) (i : FrameId) : Reaches s i [] := fun t _ => ⟨t, .nil, .refl t⟩

theorem cons {p : Prior} {ps : List Prior} (h : Yields s i p.job (.ok v)) (hv : p.fits v)
    (hps : Reaches s i ps) : Reaches s i (p :: ps) := by
  intro t ht
  obtain ⟨u, h, htu⟩ := h t ht
  obtain ⟨u', hps, huu⟩ := hps u (ht.trans htu)
  exact ⟨u', .cons h hv hps, htu.trans huu⟩

end Reaches

theorem YieldsAll.reaches {es : List Expr} (h : YieldsAll s i es vs) :
    Reaches s i (Prior.exprs es) := by
  intro t ht
  obtain ⟨u, h, htu⟩ := h t ht
  exact ⟨u, Passes.exprs_iff.2 ⟨vs, h⟩, htu⟩

/-- A signal in a hole that is reached ends the node around it. -/
theorem Position.yields_fill {k l : Category} (p : Position k l) (y : Phrase l)
    (h : Reaches s i p.before) (hy : Yields s i y.job (.error e)) :
    Yields s i (p.fill y).job (.error e) := by
  intro t ht
  obtain ⟨u, h, htu⟩ := h t ht
  obtain ⟨u', hy, huu⟩ := hy u (ht.trans htu)
  exact ⟨u', p.ends_fill y h hy, htu.trans huu⟩

theorem Yields.stop {d : Stmt} (h : Yields s i (.stmt d) (.error e)) (ss : List Stmt) :
    Yields s i (.block (d :: ss)) (.error e) :=
  Position.yields_fill (.statement [] ss) (.stmt d) (.nil s i) h

end Eval
end Monkey
