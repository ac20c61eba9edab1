import Monkey.Proofs.Syntax.Everywhere
import Monkey.Session

/-! # Names that are not read

What a name stands for is of no consequence to a program that does not have the name as an
expression, nor can call a function that has. Two stores may then differ in one binding of the name:
runs in them are the same in everything else, and the stores differ in nothing else afterwards
(`Program.eval_of_ignores`). To bind the name is not to read it, so the program may well do that, be
it with `let` or as a parameter.

This is the simulation `Simulation.unread`. It is the one of the invariant that no function reads the
name, with other stores.
-/

namespace Monkey

/-! ## Programs that ignore a name -/

/-- Is not the name `x`. -/
def Expr.NotNamed (x : String) : Expr → Prop
  | .ident y => y.name ≠ x
  | _ => True

/-- The name `x` is no expression in the program, not even in the body of a function. -/
abbrev Program.Ignores (x : String) (p : Program) : Prop := p.Everywhere (Expr.NotNamed x)

/-- The name `x` is no expression in the body of any function in the value. -/
def Value.Ignores (x : String) (v : Value) : Prop :=
  ∀ f : Closure, (Value.function f).Within v → f.body.Everywhere (Expr.NotNamed x)

/-- No function reads `x`. -/
def Invariant.ignoring (x : String) : Invariant := .everywhere (Expr.NotNamed x)

theorem Invariant.holds_ignoring_iff {x : String} {v : Value} :
    (ignoring x).Holds v ↔ v.Ignores x :=
  and_iff_left fun _ _ => trivial

/-! ## Stores that differ in one binding -/

/-- The same frame, but for what the names in `X` stand for. -/
structure Frame.SameBut (X : String → Prop) (f g : Frame) : Prop where
  outer : f.outer = g.outer
  bound : ∀ y, ¬X y → f.bindings.find? y = g.bindings.find? y

/-- The same store, but for what `x` stands for in the frame `i`. It may be that it stands for
nothing there. -/
structure Store.SameBut (i : FrameId) (x : String) (s t : Store) : Prop where
  frames : ∀ k : FrameId,
    Option.Rel (Frame.SameBut fun y => k = i ∧ y = x) s.frames[k]? t.frames[k]?
  functions : s.functions = t.functions
  output : s.output = t.output

theorem Frame.SameBut.refl (X : String → Prop) (f : Frame) : f.SameBut X f :=
  ⟨rfl, fun _ _ => rfl⟩

theorem Frame.SameBut.set {X : String → Prop} {f g : Frame} (h : f.SameBut X g) (y : String)
    (v : Value) : (f.set y v).SameBut X (g.set y v) where
  outer := h.outer
  bound z hz := by
    rw [Frame.set, Frame.set, Bindings.find?_set, Bindings.find?_set, h.bound z hz]

namespace Store.SameBut

variable {i : FrameId} {x : String} {s t : Store}

theorem next_eq (h : s.SameBut i x t) : s.next = t.next :=
  next_eq_of_iff fun k => rel_eq_none_iff (h.frames k)

/-- To bind the name leaves everything else as it is. -/
theorem set_self (s : Store) (i : FrameId) (x : String) (v : Value) :
    (s.set i x v).SameBut i x s where
  frames k := by
    rw [getElem?_set]
    rcases s.frames[k]? with _ | f
    · split <;> exact .none
    · split
      · rename_i hk
        refine .some ⟨rfl, fun y hy => ?_⟩
        have hne : x ≠ y := fun hxy => hy ⟨hk.symm, hxy.symm⟩
        rw [Frame.set, Bindings.find?_set, if_neg hne]
      · exact .some (.refl _ f)
  functions := rfl
  output := rfl

/-- Other names stand for the same. -/
theorem get?_eq (h : s.SameBut i x t) {y : String} (hy : y ≠ x) (j : FrameId) :
    s.get? j y = t.get? j y := by
  -- From a frame, the search goes on in an older one, which has a smaller number.
  induction j using Nat.strongRecOn with
  | ind j ih =>
    have hfg := h.frames j
    rcases hs : s.frames[j]? with _ | f <;> rcases ht : t.frames[j]? with _ | g <;>
      rw [hs, ht] at hfg <;> cases hfg
    · rw [Store.get?, Store.get?, hs, ht]
    · rename_i hfg
      rw [get?_of_frame hs, get?_of_frame ht, hfg.outer, hfg.bound y fun hx => hy hx.2]
      congr 2
      funext o
      split
      · rename_i hlt
        exact ih o hlt
      · rfl

theorem set (h : s.SameBut i x t) (j : FrameId) (y : String) (v : Value) :
    (s.set j y v).SameBut i x (t.set j y v) where
  frames k := by
    rw [getElem?_set, getElem?_set]
    split
    · exact rel_map (h.frames k) fun _ _ hfg => hfg.set y v
    · exact h.frames k
  functions := h.functions
  output := h.output

theorem addFrame (h : s.SameBut i x t) (f : Frame) :
    (s.addFrame f).SameBut i x (t.addFrame f) where
  frames k := by
    rw [getElem?_addFrame, getElem?_addFrame, h.next_eq]
    split
    · exact .some (.refl _ f)
    · exact h.frames k
  functions := h.functions
  output := h.output

end Store.SameBut

/-! ## The simulation -/

/-- A program that ignores `x`, in stores that differ in what `x` stands for in the frame `i`. -/
def Simulation.unread (i : FrameId) (x : String) : Simulation :=
  { (Invariant.ignoring x).simulation with
    stores := fun n s t => (Invariant.ignoring x).simulation.stores n s s ∧ s.SameBut i x t
    get? := by
      rintro n s t j _ y z ⟨hs, hst⟩ rfl ⟨hyz, hy⟩
      cases hyz
      rw [← hst.get?_eq hy j]
      exact (Invariant.ignoring x).simulation.get? hs rfl ⟨rfl, hy⟩
    set := by
      rintro n s t j _ y v v' ⟨hs, hst⟩ rfl hv
      obtain ⟨rfl, -⟩ := Value.related_self_iff.1 hv
      exact ⟨(Invariant.ignoring x).simulation.set hs rfl hv, hst.set j y v⟩
    print := by
      rintro n s t text ⟨hs, hst⟩
      refine ⟨(Invariant.ignoring x).simulation.print text hs, hst.frames, hst.functions, ?_⟩
      exact congrArg (· ++ text) hst.output
    makeFunction := by
      rintro n s t j _ a b ys zs c d ⟨hs, hst⟩ rfl hfn
      obtain ⟨m, hm, hf, hs'⟩ := (Invariant.ignoring x).simulation.makeFunction hs rfl hfn
      rw [← hst.functions]
      exact ⟨m, hm, hf, hs', hst.frames, rfl, hst.output⟩
    addFrame := by
      rintro n s t f _ vs vs' ⟨hs, hst⟩ ⟨rfl, hf⟩ hvs
      obtain rfl := (Invariant.ignoring x).eq_of_forall₂_values hvs
      obtain ⟨m, hm, -, hs'⟩ := (Invariant.ignoring x).simulation.addFrame hs ⟨rfl, hf⟩ hvs
      exact ⟨m, hm, hst.next_eq, hs', hst.addFrame _⟩ }

/-! ## Programs -/

/-- What two runs have in common that differ in the value of a name only: they end in the same way,
in stores that differ in this one binding, and in which no function reads the name. -/
structure SameUnread (i : FrameId) (x : String) {α : Type} (a b : α × Store) : Prop where
  result : a.1 = b.1
  stores : a.2.SameBut i x b.2
  ignores : a.2.Forall (Value.Ignores x)

theorem Eval.program_of_ignores {i : FrameId} {x : String} {s t : Store} (h : s.SameBut i x t)
    (hs : s.Forall (Value.Ignores x)) {p : Program} (hp : p.Ignores x) (depth : Nat)
    (j : FrameId) :
    Option.Rel (SameUnread i x) (program depth j p s) (program depth j p t) := by
  have hrelated : s.Related Eq (Invariant.ignoring x).values s :=
    ((Invariant.ignoring x).related_iff_forall s).2
      (hs.mono fun _ => Invariant.holds_ignoring_iff.2)
  have hsim := (Simulation.unread i x).similar_program (w := s.functions) depth (i := j) (j := j) rfl
    (forall₂_eq_and_iff.2 hp) s t ⟨⟨rfl, rfl, hrelated⟩, h⟩
  generalize program depth j p s = o at hsim ⊢
  generalize program depth j p t = o' at hsim ⊢
  cases hsim with
  | spent => exact .none
  | ended hw hst hr =>
    obtain ⟨⟨-, -, hs'⟩, hst⟩ := hst
    refine .some ⟨?_, hst, ?_⟩
    · cases hr with
      | ok hv => rw [(Value.related_self_iff.1 hv).1]
      | returned hv => rw [(Value.related_self_iff.1 hv).1]
      | raised f => rfl
    · exact Store.Forall.mono (((Invariant.ignoring x).related_iff_forall _).1 hs')
        fun _ => Invariant.holds_ignoring_iff.1

/-- A program that ignores a name, run in stores that differ in one binding of the name, is cut off
in both or ends in the same way in both. It prints the same, and the stores still differ in nothing
but this binding. Of what the name stands for in the other store nothing is asked. -/
theorem Program.eval_of_ignores {i : FrameId} {x : String} {s t : Store} (h : s.SameBut i x t)
    (hs : s.Forall (Value.Ignores x)) {p : Program} (hp : p.Ignores x) (depth : Nat)
    (j : FrameId) :
    Option.Rel (SameUnread i x) (Eval.program depth j p s) (Eval.program depth j p t) ∧
      Option.Rel (SameUnread i x) (p.eval depth j s) (p.eval depth j t) := by
  have hprogram := Eval.program_of_ignores h hs hp depth j
  refine ⟨hprogram, ?_⟩
  rw [Program.eval_eq_map, Program.eval_eq_map]
  refine rel_map hprogram ?_
  rintro ⟨r, s'⟩ ⟨r', t'⟩ ⟨hr, hst, hignores⟩
  exact ⟨congrArg Eval.shown hr, hst, hignores⟩

/-- `fn(x) { let x = y; y }`, as it is made in the first frame. -/
def rebinder : Closure :=
  ⟨0, [⟨.ident "x", "x"⟩], .mk (.sym .openBrace)
    [.bind (.word .letWord) ⟨.ident "x", "x"⟩ (.ident ⟨.ident "y", "y"⟩),
      .expr (.ident ⟨.ident "y", "y"⟩)], 0⟩

/-- In the first frame, `f` stands for that function and `y` for five. -/
def withRebinder : Store :=
  (Store.fresh.set 0 "f" (.function rebinder)).set 0 "y" (.int (.ofCount 5))

/-- `f(y);` -/
def rebinderCall : Program := ⟨[.expr (.call (.sym .openParen) (.ident ⟨.ident "f", "f"⟩)
  [.ident ⟨.ident "y", "y"⟩])]⟩

/-- The function binds `x` twice, but it does not read it. So it does not matter whether `x` is bound
where the function was made. -/
theorem Program.eval_of_ignores_rebinder :
    (withRebinder.set 0 "x" .null).SameBut 0 "x" withRebinder ∧ rebinderCall.Ignores "x" ∧
    ∃ a b, rebinderCall.eval 4 0 (withRebinder.set 0 "x" .null) = some a ∧
      rebinderCall.eval 4 0 withRebinder = some b ∧ SameUnread 0 "x" a b := by
  have hsame : (withRebinder.set 0 "x" .null).SameBut 0 "x" withRebinder := .set_self _ 0 "x" .null
  have hcall : rebinderCall.Ignores "x" := by
    refine List.forall_mem_singleton.2 ⟨trivial, ?_, ?_, trivial⟩
    · exact (by decide : "f" ≠ "x")
    · exact (by decide : "y" ≠ "x")
  have hbody : rebinder.body.Everywhere (Expr.NotNamed "x") := by
    have hy : "y" ≠ "x" := by decide
    exact ⟨hy, hy, trivial⟩
  have hf : (Value.function rebinder).Ignores "x" := by
    rintro _ ⟨⟩
    exact hbody
  have hstore : (withRebinder.set 0 "x" .null).Forall (Value.Ignores "x") := by
    have hfresh : Store.fresh.Forall (Value.Ignores "x") :=
      (Store.forall_empty _).addFrame_empty none
    have hfive : (Value.int (.ofCount 5)).Ignores "x" := by rintro _ ⟨⟩
    have hnull : Value.null.Ignores "x" := by rintro _ ⟨⟩
    exact ((hfresh.set hf).set hfive).set hnull
  have hends : (rebinderCall.eval 4 0 (withRebinder.set 0 "x" .null)).isSome = true := by
    decide +kernel
  obtain ⟨a, ha⟩ := Option.isSome_iff_exists.1 hends
  obtain ⟨b, hb, hab⟩ := exists_of_rel (Program.eval_of_ignores hsame hstore hcall 4 0).2 ha
  exact ⟨hsame, hcall, a, b, ha, hb, hab⟩

end Monkey
