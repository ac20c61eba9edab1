import Monkey.Proofs.Eval.Ends

/-! # Equality of values is an equivalence

Equal values differ in their functions only, and functions that stand at the same place have the
same number (`Value.beq_iff_related`). Such values are equal to the same values. So equality is not
only reflexive but symmetric and transitive as well, and values that can be keys are equal just if
they are the same key.

In the language, equality is come to in three ways: integers are compared as numbers, two strings
are not compared at all, and all other values are compared as values. The first way and the last
agree (`Eval.binary_equal`, `Eval.binary_notEqual`).
-/

namespace Monkey

/-! ## Values -/

namespace Value

variable {E : Prop} {v w v' w' : Value}

theorem forall₂_of_beqAll {R : Value → Value → Prop} {vs ws : List Value}
    (hR : ∀ v ∈ vs, ∀ {w}, beq v w = true → R v w) (h : beqAll vs ws = true) :
    List.Forall₂ R vs ws := by
  induction vs generalizing ws with
  | nil =>
    cases ws with
    | nil => exact .nil
    | cons w ws => cases h
  | cons v vs ih =>
    cases ws with
    | nil => cases h
    | cons w ws =>
      obtain ⟨hv, hvs⟩ := List.forall_mem_cons.1 @hR
      rw [beqAll, Bool.and_eq_true] at h
      exact .cons (hv h.1) (ih hvs h.2)

/-- Equal values are the same but for functions, and these have the same numbers. -/
theorem related_of_beq (h : (v == w) = true) :
    Related (fun f g => f.id = g.id) True v w := by
  replace h : beq v w = true := h
  induction v generalizing w with
  | array vs ih =>
    cases w with
    | array ws => exact .array (forall₂_of_beqAll @ih h)
    | _ => simp [beq] at h
  | hash es ih =>
    cases w with
    | hash ds =>
      apply related_hash.2
      refine forall₂_imp_of_mem (beqEntries_iff.1 h) fun e he d hed => ?_
      exact ⟨hed.1, (ih e he).1 hed.2.1, (ih e he).2 hed.2.2⟩
    | _ => simp [beq] at h
  | function f =>
    cases w with
    | function g => exact .function (of_decide_eq_true h)
    | _ => simp [beq] at h
  | error m =>
    cases w with
    | error m' =>
      obtain rfl : m = m' := of_decide_eq_true h
      exact .error trivial m
    | _ => simp [beq] at h
  | null =>
    cases w with
    | null => exact .null
    | _ => simp [beq] at h
  | int | bool | str | builtin =>
    cases w <;> simp only [beq, decide_eq_true_eq, Bool.false_eq_true] at h
    subst h
    constructor

theorem Related.beq_eq_of_id (hv : Related (fun f g => f.id = g.id) E v v')
    (hw : Related (fun f g => f.id = g.id) E w w') : (v == w) = (v' == w') := by
  refine Related.beq_eq ?_ hv hw
  intro f f' g g' hf hg
  rw [hf, hg]

theorem beq_iff_related : (v == w) = true ↔ Related (fun f g => f.id = g.id) True v w := by
  refine ⟨related_of_beq, fun h => ?_⟩
  have hself := related_of_beq (beq_self_eq_true v)
  rw [← hself.beq_eq_of_id h]
  exact beq_self_eq_true v

/-- Equal values are equal to the same values. -/
theorem beq_congr (hv : (v == v') = true) (hw : (w == w') = true) : (v == w) = (v' == w') :=
  (related_of_beq hv).beq_eq_of_id (related_of_beq hw)

instance : EquivBEq Value where
  symm {v w} h := by
    rw [← beq_congr h (beq_self_eq_true v)]
    exact beq_self_eq_true v
  trans {u v w} h h' := by
    rw [beq_congr h (beq_self_eq_true w)]
    exact h'

theorem equivalence_beq : Equivalence fun v w : Value => (v == w) = true where
  refl := beq_self_eq_true
  symm h := BEq.symm h
  trans h h' := BEq.trans h h'

end Value

theorem Key.beq_value_iff (k l : Key) : (k.value == l.value) = true ↔ k = l := by
  constructor
  · intro h
    have hkeys := (Value.related_of_beq h).key?_eq
    rw [key?_value, key?_value] at hkeys
    exact Option.some.inj hkeys
  · rintro rfl
    exact beq_self_eq_true k.value

/-! ## The operators of the language -/

namespace Eval

/-- Both operands are strings. -/
def BothStrings (a b : Value) : Prop := a.kind = .string ∧ b.kind = .string

theorem bothStrings_comm {a b : Value} : BothStrings a b ↔ BothStrings b a := and_comm

theorem binary_of_bothStrings {a b : Value} {op : BinaryOp} (hop : op = .equal ∨ op = .notEqual)
    (h : BothStrings a b) : binary op a b = .error (.noBinary .string op .string) := by
  obtain ⟨ha, hb⟩ := h
  cases a <;> cases ha
  cases b <;> cases hb
  rcases hop with rfl | rfl <;> rfl

theorem binary_equal {a b : Value} (h : ¬BothStrings a b) :
    binary .equal a b = .ok (.bool (a == b)) := by
  cases a with
  | int l => cases b <;> rfl
  | str x =>
    cases b with
    | str y => exact absurd ⟨rfl, rfl⟩ h
    | _ => rfl
  | _ => rfl

theorem binary_notEqual {a b : Value} (h : ¬BothStrings a b) :
    binary .notEqual a b = .ok (.bool !(a == b)) := by
  cases a with
  | int l =>
    cases b with
    | int r => exact congrArg (Except.ok ∘ Value.bool) decide_not
    | _ => rfl
  | str x =>
    cases b with
    | str y => exact absurd ⟨rfl, rfl⟩ h
    | _ => rfl
  | _ => rfl

theorem exists_binary_eq_ok {a b : Value} {op : BinaryOp} (hop : op = .equal ∨ op = .notEqual)
    (h : ¬BothStrings a b) : ∃ v, binary op a b = .ok v := by
  rcases hop with rfl | rfl
  · exact ⟨_, binary_equal h⟩
  · exact ⟨_, binary_notEqual h⟩

/-- Neither operator tells its operands apart. -/
theorem binary_comm {op : BinaryOp} (hop : op = .equal ∨ op = .notEqual) (a b : Value) :
    binary op a b = binary op b a := by
  by_cases h : BothStrings a b
  · rw [binary_of_bothStrings hop h, binary_of_bothStrings hop (bothStrings_comm.1 h)]
  · have h' : ¬BothStrings b a := fun hba => h (bothStrings_comm.1 hba)
    rcases hop with rfl | rfl
    · rw [binary_equal h, binary_equal h', BEq.comm]
    · rw [binary_notEqual h, binary_notEqual h', BEq.comm]

/-- Equality of values is an equivalence. Equal values are the same all through, but for functions,
of which only the number counts. Values that can be keys are equal just if their keys are, which the
order of keys agrees with. Both operators raise a fault just if both operands are strings. Otherwise
`==` tells whether the operands are equal, and `!=` whether they are not. Neither of them would end
differently if the operands were swapped. -/
theorem equality_laws :
    Equivalence (fun a b : Value => (a == b) = true) ∧
    (∀ a b : Value, (a == b) = true ↔ Value.Related (fun f g => f.id = g.id) True a b) ∧
    (∀ (a b : Value) (k l : Key), a.key? = some k → b.key? = some l →
      ((a == b) = true ↔ k = l) ∧ (k = l ↔ k.cmp l = .eq)) ∧
    ∀ (a b : Value) (i : FrameId) (l r : Expr) (s t u : Store) (token : Token),
      Ends i (.expr l) s (.ok a) t → Ends i (.expr r) t (.ok b) u →
      (¬BothStrings a b →
        Ends i (.expr (.binary token .equal l r)) s (.ok (.bool (a == b))) u ∧
        Ends i (.expr (.binary token .notEqual l r)) s (.ok (.bool !(a == b))) u) ∧
      ∀ op : BinaryOp, op = .equal ∨ op = .notEqual →
        (BothStrings a b → ∃ f : Fault,
          f.message = "unknown operator: STRING " ++ op.text ++ " STRING" ∧
          Ends i (.expr (.binary token op l r)) s (.error (.raised f)) u) ∧
        ((∃ e w, Ends i (.expr (.binary token op l r)) s (.error e) w) ↔ BothStrings a b) ∧
        ∀ (j : FrameId) (l' r' : Expr) (s' t' u' : Store) (token' : Token),
          Ends j (.expr l') s' (.ok b) t' → Ends j (.expr r') t' (.ok a) u' →
          ∃ result, Ends i (.expr (.binary token op l r)) s result u ∧
            Ends j (.expr (.binary token' op l' r')) s' result u' := by
  refine ⟨Value.equivalence_beq, fun a b => Value.beq_iff_related, ?_, ?_⟩
  · intro a b k l ha hb
    rw [Value.key?_eq_some.1 ha, Value.key?_eq_some.1 hb]
    exact ⟨Key.beq_value_iff k l, Std.LawfulEqCmp.compare_eq_iff_eq.symm⟩
  · intro a b i l r s t u token hl hr
    have hends {op : BinaryOp} {result : Except Fault Value} (h : binary op a b = result) :
        Ends i (.expr (.binary token op l r)) s (result.mapError .raised) u :=
      h ▸ hl.binary token op hr
    refine ⟨fun h => ⟨hends (binary_equal h), hends (binary_notEqual h)⟩,
      fun op hop => ⟨?_, ?_, ?_⟩⟩
    · intro h
      refine ⟨_, ?_, hends (binary_of_bothStrings hop h)⟩
      rcases hop with rfl | rfl <;> rfl
    · constructor
      · rintro ⟨e, w, hsignal⟩
        by_contra h
        obtain ⟨v, hv⟩ := exists_binary_eq_ok hop h
        cases (hsignal.unique (hends hv)).1
      · intro h
        exact ⟨_, u, hends (binary_of_bothStrings hop h)⟩
    · intro j l' r' s' t' u' token' hl' hr'
      refine ⟨_, hl.binary token op hr, ?_⟩
      rw [binary_comm hop a b]
      exact hl'.binary token' op hr'

/-- One frame, in which `x` is an array with a string in it, and `y` is that string. -/
def wrapped : Store := ⟨#[⟨[("x", .array [.str "a"]), ("y", .str "a")], none⟩], 0, ""⟩

/-- A string is equal to itself, as a value and as a key, but `y == y` is not possible. It is not
equal to an array that holds it, whichever of the two comes first. -/
theorem equality_laws_wrapped :
    (Value.str "a" == .str "a") = true ∧ Key.cmp (.str "a") (.str "a") = .eq ∧
    (∃ f : Fault, f.message = "unknown operator: STRING == STRING" ∧
      Ends 0 (.expr (.binary (.sym .equal) .equal (.ident ⟨.ident "y", "y"⟩)
        (.ident ⟨.ident "y", "y"⟩))) wrapped (.error (.raised f)) wrapped) ∧
    Ends 0 (.expr (.binary (.sym .notEqual) .notEqual (.ident ⟨.ident "x", "x"⟩)
      (.ident ⟨.ident "y", "y"⟩))) wrapped (.ok (.bool true)) wrapped ∧
    Ends 0 (.expr (.binary (.sym .notEqual) .notEqual (.ident ⟨.ident "y", "y"⟩)
      (.ident ⟨.ident "x", "x"⟩))) wrapped (.ok (.bool true)) wrapped := by
  obtain ⟨-, -, hkeys, hoperators⟩ := equality_laws
  have hframe (x : String) := Store.get?_of_frame (rfl : wrapped.frames[0]? = some _) x
  have hx : Ends 0 (.expr (.ident ⟨.ident "x", "x"⟩)) wrapped (.ok (.array [.str "a"])) wrapped :=
    ⟨1, name_of_get? (hframe "x")⟩
  have hy : Ends 0 (.expr (.ident ⟨.ident "y", "y"⟩)) wrapped (.ok (.str "a")) wrapped :=
    ⟨1, name_of_get? (hframe "y")⟩
  obtain ⟨hequal, horder⟩ := hkeys (.str "a") (.str "a") (.str "a") (.str "a") rfl rfl
  refine ⟨hequal.2 rfl, horder.1 rfl, ?_, ?_⟩
  · obtain ⟨-, hfaults⟩ := hoperators _ _ 0 _ _ _ _ _ (.sym .equal) hy hy
    exact (hfaults .equal (.inl rfl)).1 ⟨rfl, rfl⟩
  · obtain ⟨hresults, hfaults⟩ := hoperators _ _ 0 _ _ _ _ _ (.sym .notEqual) hx hy
    obtain ⟨-, hxy⟩ := hresults fun h => nomatch h.1
    obtain ⟨-, -, hswap⟩ := hfaults .notEqual (.inr rfl)
    obtain ⟨result, hxy', hyx⟩ := hswap 0 _ _ _ _ _ (.sym .notEqual) hy hx
    obtain ⟨rfl, -⟩ := hxy'.unique hxy
    exact ⟨hxy, hyx⟩

end Eval
end Monkey
