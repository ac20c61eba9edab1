import Monkey.Eval.Builtin
import Monkey.Eval.Operators
import Monkey.Proofs.Value.Related

/-! # Operators and builtins on related values

No operator and no builtin looks into a function, but for its number when functions are compared and
for its text when it is shown. So they give related results for related operands, and fail in the
same way if they fail: `Agree`.
-/

namespace Monkey

variable {F : Closure → Closure → Prop} {E : Prop}

/-! ## Operators -/

/-- Both are the same error, or both are values, which are related. -/
inductive Agree {ε α β : Type} (A : α → β → Prop) : Except ε α → Except ε β → Prop where
  | ok {a : α} {b : β} (h : A a b) : Agree A (.ok a) (.ok b)
  | error (e : ε) : Agree A (.error e) (.error e)

theorem Agree.bind {ε α β γ δ : Type} {A : α → β → Prop} {B : γ → δ → Prop} {x : Except ε α}
    {y : Except ε β} {f : α → Except ε γ} {g : β → Except ε δ} (h : Agree A x y)
    (hfg : ∀ a b, A a b → Agree B (f a) (g b)) : Agree B (x >>= f) (y >>= g) := by
  cases h with
  | ok hab => exact hfg _ _ hab
  | error e => exact .error e

namespace Eval

open Value

variable {v w v' w' : Value}

theorem agree_unary (op : UnaryOp) (h : Related F E v w) :
    Agree (Related F E) (unary op v) (unary op w) := by
  cases op with
  | bang =>
    rw [unary, unary, h.isTruthy_eq]
    exact .ok (.bool _)
  | minus =>
    cases h with
    | int n =>
      rw [unary]
      split
      · exact .ok (.int _)
      · exact .error _
    | _ => exact .error _

theorem agree_arithmetic (l : Integer) (op : BinaryOp) (r : Integer) :
    Agree (Related F E) (arithmetic l op r) (arithmetic l op r) := by
  have hchecked (n? : Option Integer) :
      Agree (Related F E) (checked l op r n?) (checked l op r n?) := by
    cases n? with
    | none => exact .error _
    | some n => exact .ok (.int n)
  cases op with
  | plus | minus | star => exact hchecked _
  | slash =>
    rw [arithmetic]
    split
    · exact .error _
    · exact hchecked _
  | less | greater | equal | notEqual => exact .ok (.bool _)

/-- What a binary operator gives for any two values but two integers or two strings. -/
def comparison (op : BinaryOp) (l r : Value) : Except Fault Value :=
  match op with
  | .equal => .ok (.bool (l == r))
  | .notEqual => .ok (.bool !(l == r))
  | _ =>
    if l.kind = r.kind then .error (.noBinary l.kind op r.kind)
    else .error (.mismatch l.kind op r.kind)

theorem agree_comparison (hF : ∀ f f' g g', F f f' → F g g' → (f.id = g.id ↔ f'.id = g'.id))
    (op : BinaryOp) (hv : Related F E v v') (hw : Related F E w w') :
    Agree (Related F E) (comparison op v w) (comparison op v' w') := by
  unfold comparison
  rw [hv.beq_eq hF hw, hv.kind_eq, hw.kind_eq]
  split
  · exact .ok (.bool _)
  · exact .ok (.bool _)
  · split <;> exact .error _

theorem agree_binary (hF : ∀ f f' g g', F f f' → F g g' → (f.id = g.id ↔ f'.id = g'.id))
    (op : BinaryOp) (hv : Related F E v v') (hw : Related F E w w') :
    Agree (Related F E) (binary op v w) (binary op v' w') := by
  have hvw := agree_comparison hF op hv hw
  cases hv with
  | int l =>
    cases hw with
    | int r => exact agree_arithmetic l op r
    | _ => exact hvw
  | str l =>
    cases hw with
    | str r =>
      rw [binary]
      split
      · exact .ok (.str _)
      · exact .error _
    | _ => exact hvw
  | _ => exact hvw

theorem agree_key (h : Related F E v w) : Agree Eq (key v) (key w) := by
  rw [key, key, h.key?_eq, h.kind_eq]
  split
  · exact .ok rfl
  · exact .error _

theorem related_element {vs ws : List Value} (h : List.Forall₂ (Related F E) vs ws) (i : Int) :
    Related F E (element vs i) (element ws i) := by
  cases i with
  | ofNat n => exact rel_getD (rel_getElem? h n) .null
  | negSucc n => exact .null

theorem agree_index (hv : Related F E v v') (hw : Related F E w w') :
    Agree (Related F E) (index v w) (index v' w') := by
  cases hv with
  | array hvs =>
    cases hw with
    | int i => exact .ok (related_element hvs i.val)
    | _ => exact .error _
  | hash hk hc hv =>
    refine (agree_key hw).bind ?_
    rintro k _ rfl
    exact .ok (rel_getD ((related_hash.1 (.hash hk hc hv)).value? k) .null)
  | _ => exact .error _

end Eval

/-! ## Builtins -/

namespace Builtin

open Value

variable {v w : Value} {vs ws : List Value}

theorem agree_single (h : List.Forall₂ (Related F E) vs ws) :
    Agree (Related F E) (single vs) (single ws) := by
  cases h with
  | nil => exact .error _
  | cons hv hvs =>
    cases hvs with
    | nil => exact .ok hv
    | cons _ hvs =>
      simp only [single, List.length_cons, hvs.length_eq]
      exact .error _

theorem agree_elements (b : Builtin) (h : Related F E v w) :
    Agree (List.Forall₂ (Related F E)) (elements b v) (elements b w) := by
  cases h with
  | array hvs => exact .ok hvs
  | _ => exact .error _

theorem agree_length (h : Related F E v w) : Agree (Related F E) (length v) (length w) := by
  cases h with
  | str s => exact .ok (.int _)
  | array hvs =>
    rw [length, length, hvs.length_eq]
    exact .ok (.int _)
  | _ => exact .error _

/-- A function of the elements of the only argument. -/
theorem agree_onElements (b : Builtin) (h : List.Forall₂ (Related F E) vs ws)
    {f : List Value → Value}
    (hf : ∀ vs ws, List.Forall₂ (Related F E) vs ws → Related F E (f vs) (f ws)) :
    Agree (Related F E) (do pure (f (← elements b (← single vs))))
      (do pure (f (← elements b (← single ws)))) :=
  (agree_single h).bind fun _ _ hv => (agree_elements b hv).bind fun _ _ hvs => .ok (hf _ _ hvs)

/-- Builtins do the same with related arguments. -/
theorem agree_result (b : Builtin) (h : List.Forall₂ (Related F E) vs ws) :
    Agree (Related F E) (b.result vs) (b.result ws) := by
  cases b with
  | len => exact (agree_single h).bind fun _ _ => agree_length
  | first =>
    refine agree_onElements .first h fun vs ws hvs => ?_
    rw [List.headD_eq_head?_getD, List.headD_eq_head?_getD, List.head?_eq_getElem?,
      List.head?_eq_getElem?]
    exact rel_getD (rel_getElem? hvs 0) .null
  | last =>
    refine agree_onElements .last h fun vs ws hvs => ?_
    rw [List.getLastD_eq_getLast?, List.getLastD_eq_getLast?]
    exact rel_getD (rel_getLast? hvs) .null
  | rest =>
    refine agree_onElements .rest h fun vs ws hvs => ?_
    cases hvs with
    | nil => exact .null
    | cons _ hvs => exact .array hvs
  | push =>
    have hlen := h.length_eq
    match h with
    | .cons hv (.cons hw .nil) =>
      refine (agree_elements .push hv).bind fun _ _ hvs => .ok (.array ?_)
      exact List.rel_append hvs (.cons hw .nil)
    | .nil => exact .error _
    | .cons _ .nil => exact .error _
    | .cons _ (.cons _ (.cons _ _)) =>
      simp only [result, hlen]
      exact .error _
  | puts => exact .ok .null

/-- Builtins print the same for related arguments, if they are shown in the same way. -/
theorem printed_eq (hF : ∀ f g, F f g → f.inspect = g.inspect) (b : Builtin)
    (h : List.Forall₂ (Related F E) vs ws) : b.printed vs = b.printed ws := by
  cases b with
  | puts =>
    have hmap : vs.map (·.inspect ++ "\n") = ws.map (·.inspect ++ "\n") :=
      map_eq_map_iff.2 (h.imp fun _ _ hvw => by rw [hvw.inspect_eq hF])
    exact congrArg String.join hmap
  | _ => rfl

end Builtin
end Monkey
