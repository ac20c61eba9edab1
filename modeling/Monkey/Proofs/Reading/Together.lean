import Monkey.Proofs.Reading.Termination

/-! # Two readers side by side

A `Read.Congruence` is a relation between what two readers leave behind. It holds where both read
nothing, or refuse the same token, and its last law says that it lasts when readers are put behind
each other. Then it holds of everything that the grammar puts together, as long as the statements in
blocks are related: `Reading.together_expressionOver`, `Reading.together_statement` and their
companions say this for two readers of statements that may be different.

The readers of statements are tied to themselves through the blocks of expressions. What one of them
does on some tokens rests on what it does on fewer of them, so they are related as soon as each step
keeps them so (`Reading.together_attempt`).

An invariant of one reader is the special case in which both readers are the same. So what a fault
shows is always taken from one of the tokens (`Reading.dueTo_of_mem_faults`).
-/

namespace Monkey

open Reading

/-- What a fault takes from a token, and not from its kind alone, it takes from one that satisfies
`T`: the digits of a number. -/
def Reading.Fault.DueTo (T : Token → Prop) : Fault → Prop
  | .invalidInteger digits => T (.int digits)
  | .unexpected _ _ | .noOperand _ => True

namespace Read

/-- A relation between outcomes that lasts when readers are put together, on texts with tokens of
some kind. -/
structure Congruence where
  tokens : Token → Prop
  Rel : ∀ {α : Type}, Outcome α → Outcome α → Prop
  rel_pure : ∀ {α : Type} (a : α) (ts : List Token), Rel ⟨some a, ts, []⟩ ⟨some a, ts, []⟩
  rel_refuse : ∀ {α : Type} {f : Fault} (ts : List Token), f.DueTo tokens →
    Rel (⟨none, ts, [f]⟩ : Outcome α) ⟨none, ts, [f]⟩
  rel_bind : ∀ {α β : Type} {p q : Read α} {f g : α → Read β} {ts : List Token},
    Rel (p ts) (q ts) → (∀ a us fs, p ts = ⟨some a, us, fs⟩ → Rel (f a us) (g a us)) →
    Rel ((p >>= f) ts) ((q >>= g) ts)

namespace Congruence

variable {α β ι : Type} {K : Congruence} {k m n : Nat} {ts : List Token} {p q : Read α}

/-- On the tokens `ts`, the first reader leaves an end of them, after `k` tokens or more, and the
outcomes of both are related. -/
def Together (K : Congruence) (k : Nat) (ts : List Token) (p q : Read α) : Prop :=
  (∀ t ∈ ts, K.tokens t) → (p ts).rest <:+ ts.drop k ∧ K.Rel (p ts) (q ts)

namespace Together

theorem of_tokens (h : (∀ t ∈ ts, K.tokens t) → K.Together k ts p q) : K.Together k ts p q :=
  fun hts => h hts hts

theorem weaken (h : K.Together k ts p q) (hm : m ≤ k) : K.Together m ts p q := by
  intro hts
  obtain ⟨hs, hr⟩ := h hts
  exact ⟨hs.trans (List.drop_suffix_drop_left ts hm), hr⟩

theorem pure (a : α) : K.Together 0 ts (pure a) (pure a) :=
  fun _ => ⟨List.suffix_rfl, K.rel_pure a ts⟩

theorem refuse {f : Fault} (h : f.DueTo K.tokens) :
    K.Together 0 ts (refuse f : Read α) (refuse f) :=
  fun _ => ⟨List.suffix_rfl, K.rel_refuse ts h⟩

/-- What follows a reader does not give back what the reader has used up. -/
theorem bind {f g : α → Read β} (h : K.Together k ts p q)
    (hf : ∀ a us, us.length ≤ ts.length - k → K.Together 0 us (f a) (g a)) :
    K.Together k ts (p >>= f) (q >>= g) := by
  intro hts
  obtain ⟨hs, hr⟩ := h hts
  have hafter : ∀ a us fs, p ts = ⟨some a, us, fs⟩ →
      us <:+ ts.drop k ∧ (f a us).rest <:+ us ∧ K.Rel (f a us) (g a us) := by
    intro a us fs hp
    rw [hp] at hs
    have hl : us.length ≤ ts.length - k := by
      rw [← List.length_drop]
      exact hs.length_le
    exact ⟨hs, hf a us hl fun t ht => hts t (List.mem_of_mem_drop (hs.subset ht))⟩
  constructor
  · rcases hp : p ts with ⟨_ | a, us, fs⟩
    · rw [hp] at hs
      rw [bind_of_none hp]
      exact hs
    · obtain ⟨hus, hrest, -⟩ := hafter a us fs hp
      rw [bind_of_some hp]
      exact hrest.trans hus
  · exact K.rel_bind hr fun a us fs hp => (hafter a us fs hp).2.2

theorem peek_bind {f g : Token → Read β}
    (h : K.Together k ts (f (ts.headD .eof)) (g (ts.headD .eof))) :
    K.Together k ts (peek >>= f) (peek >>= g) := h

theorem take_bind {f g : Token → Read β}
    (h : K.Together 0 ts.tail (f (ts.headD .eof)) (g (ts.headD .eof))) :
    K.Together 1 ts (Read.take >>= f) (Read.take >>= g) := by
  intro hts
  rw [List.drop_one]
  exact h fun t ht => hts t (List.mem_of_mem_tail ht)

theorem take_bind_cons {t : Token} {f g : Token → Read β} (h : K.Together 0 ts (f t) (g t)) :
    K.Together 1 (t :: ts) (Read.take >>= f) (Read.take >>= g) := take_bind h

theorem take : K.Together 1 ts take take := by
  rw [← bind_pure_self Read.take]
  exact take_bind (pure _)

theorem ite {c : Prop} [Decidable c] {p' q' : Read α} (h : c → K.Together k ts p q)
    (h' : ¬c → K.Together k ts p' q') :
    K.Together k ts (if c then p else p') (if c then q else q') := by
  by_cases hc : c
  · rw [if_pos hc, if_pos hc]
    exact h hc
  · rw [if_neg hc, if_neg hc]
    exact h' hc

theorem expect (t : Token) : K.Together 0 ts (expect t) (expect t) :=
  peek_bind (ite (fun _ => take.weaken (Nat.zero_le 1)) fun _ => refuse trivial)

/-- Where a token is expected and found, there is one less. -/
theorem expect_bind {t : Token} (ht : t ≠ .eof) {f g : Token → Read β}
    (h : ∀ us, us.length < ts.length → K.Together 0 us (f t) (g t)) :
    K.Together 0 ts (Read.expect t >>= f) (Read.expect t >>= g) := by
  by_cases hc : ts.headD .eof = t
  · have hlt : ts.tail.length < ts.length := by
      rw [eq_cons_of_headD hc ht]
      exact Nat.lt_succ_self _
    have hexpect (e : Token → Read β) : (Read.expect t >>= e) ts = (Read.take >>= e) ts := by
      rw [bind_of_accepts (expect_of_head hc), Read.take_bind, hc]
    have htake : K.Together 0 ts (Read.take >>= f) (Read.take >>= g) := by
      refine (take_bind ?_).weaken (Nat.zero_le 1)
      rw [hc]
      exact h ts.tail hlt
    rw [Together, hexpect f, hexpect g]
    exact htake
  · have hexpect (e : Token → Read β) : (Read.expect t >>= e) ts =
        Read.refuse (.unexpected t.kind (ts.headD .eof).kind) ts :=
      bind_of_none (expect_of_ne hc)
    rw [Together, hexpect f, hexpect g]
    exact refuse trivial

theorem skip (t : Token) : K.Together 0 ts (skip t) (skip t) :=
  peek_bind (ite (fun _ => (take_bind (pure ())).weaken (Nat.zero_le 1)) fun _ => pure ())

/-- Two readers that are described in terms of themselves go together, if the descriptions do
whenever the readers that they call go together on fewer tokens. -/
theorem fix {b c : (ι → Read α) → ι → Read α}
    (h : ∀ (p q : ι → Read α) (ts : List Token), ts.length ≤ n →
      (∀ j us, us.length < ts.length → K.Together k us (p j) (q j)) →
      ∀ i, K.Together k ts (b p i) (c q i))
    (i : ι) (ts : List Token) (hn : ts.length ≤ n) : K.Together k ts (fix b i) (fix c i) := by
  induction hl : ts.length using Nat.strongRecOn generalizing i ts with
  | ind l ih =>
    subst hl
    have hstep := h (fun j us => if us.length < ts.length then Read.fix b j us else stuck us)
      (fun j us => if us.length < ts.length then Read.fix c j us else stuck us) ts hn
      (fun j us hlt => by
        simp only [Together, if_pos hlt]
        exact ih us.length hlt j us (by omega) rfl) i
    rw [Together, Read.fix, Read.fix]
    exact hstep

theorem loop {b c : Read α → Read α}
    (h : ∀ (p q : Read α) (ts : List Token), ts.length ≤ n →
      (∀ us, us.length < ts.length → K.Together k us p q) → K.Together k ts (b p) (c q))
    (ts : List Token) (hn : ts.length ≤ n) : K.Together k ts (loop b) (loop c) :=
  fix (fun p q ts hts hself _ => h (p ()) (q ()) ts hts (hself ())) () ts hn

end Together
end Congruence
end Read

namespace Reading

open Read Congruence

variable {α : Type} {K : Congruence} {ts : List Token}

/-! ## Lists of items -/

theorem together_ident : K.Together 0 ts ident ident := by
  refine .peek_bind ?_
  split
  · exact (Together.take.bind fun _ _ _ => .pure _).weaken (Nat.zero_le 1)
  · exact .refuse trivial

section Items

variable {p q : Read α}

theorem together_moreItems (h : ∀ us, us.length ≤ ts.length → K.Together 0 us p q) :
    K.Together 0 ts (moreItems p) (moreItems q) := by
  refine .loop (fun self self' us hus hself => ?_) ts (Nat.le_refl _)
  refine .peek_bind (.ite (fun hc => ?_) fun _ => .pure _)
  have hpos : 0 < us.length := length_pos_of_headD (by rw [hc]; exact nofun)
  have htail : us.tail.length < us.length := by
    rw [List.length_tail]
    omega
  refine (Together.take_bind ((h us.tail (by omega)).bind fun _ vs hvs => ?_)).weaken
    (Nat.zero_le 1)
  exact (hself vs (by omega)).bind fun _ _ _ => .pure _

theorem together_items (h : ∀ us, us.length ≤ ts.length → K.Together 0 us p q) (close : Symbol) :
    K.Together 0 ts (items p close) (items q close) := by
  refine .peek_bind (.ite (fun _ => ?_) fun _ => ?_)
  · exact (Together.take.bind fun _ _ _ => .pure _).weaken (Nat.zero_le 1)
  · refine (h ts (Nat.le_refl _)).bind fun _ us hus => ?_
    refine (together_moreItems fun vs hvs => h vs (by omega)).bind fun _ _ _ => ?_
    exact (Together.expect _).bind fun _ _ _ => .pure _

end Items

theorem together_pairEnd : K.Together 0 ts pairEnd pairEnd :=
  .peek_bind (.ite (fun _ => .pure ()) fun _ => (Together.expect _).bind fun _ _ _ => .pure ())

theorem together_pairs {p q : Read Expr}
    (h : ∀ us, us.length ≤ ts.length → K.Together 0 us p q) :
    K.Together 0 ts (pairs p) (pairs q) := by
  refine .loop (fun self self' us hus hself => ?_) ts (Nat.le_refl _)
  refine .peek_bind (.ite (fun _ => ?_) fun _ => ?_)
  · exact (Together.take.bind fun _ _ _ => .pure _).weaken (Nat.zero_le 1)
  · refine (h us hus).bind fun key vs hvs => ?_
    refine .expect_bind (by decide) fun ws hws => ?_
    refine (h ws (by omega)).bind fun value xs hxs => ?_
    refine together_pairEnd.bind fun _ ys hys => ?_
    exact (hself ys (by omega)).bind fun _ _ _ => .pure _

/-! ## Statements and blocks -/

theorem together_statement {p q : Read Expr}
    (h : ∀ us, us.length ≤ ts.length → K.Together 1 us p q) :
    K.Together 1 ts (statement p) (statement q) := by
  have hend {us : List Token} {s : Stmt} :
      K.Together 0 us (do skip (.sym .semicolon); pure s) (do skip (.sym .semicolon); pure s) :=
    (Together.skip _).bind fun _ _ _ => .pure _
  have hvalue {us : List Token} (hus : us.length ≤ ts.length) (stmt : Expr → Stmt) :
      K.Together 1 us (do let e ← p; skip (.sym .semicolon); pure (stmt e))
        (do let e ← q; skip (.sym .semicolon); pure (stmt e)) :=
    (h us hus).bind fun _ _ _ => hend
  have htail : ts.tail.length ≤ ts.length := by
    rw [List.length_tail]
    omega
  refine .peek_bind ?_
  split
  · refine .take_bind (together_ident.bind fun _ us hus => ?_)
    refine (Together.expect _).bind fun _ vs hvs => ?_
    exact (hvalue (by omega) _).weaken (Nat.zero_le 1)
  · refine .take_bind (.peek_bind ?_)
    split
    · exact hend
    · exact hend
    · exact hend
    · exact (hvalue htail _).weaken (Nat.zero_le 1)
  · exact hvalue (Nat.le_refl _) _

section Blocks

variable {s s' : Read Stmt}

/-- A block goes on where a statement in it fails. So it is the attempts at statements that have to
be related, and not the statements. -/
theorem together_blockRest
    (h : ∀ us, us.length ≤ ts.length → K.Together 1 us (attempt s) (attempt s')) :
    K.Together 0 ts (blockRest s) (blockRest s') := by
  refine .loop (fun self self' us hus hself => ?_) ts (Nat.le_refl _)
  refine .peek_bind ?_
  split
  · exact (Together.take.bind fun _ _ _ => .pure _).weaken (Nat.zero_le 1)
  · exact .refuse trivial
  · rename_i hc
    have hpos := length_pos_of_headD hc
    refine ((h us hus).bind fun _ vs hvs => ?_).weaken (Nat.zero_le 1)
    exact (hself vs (by omega)).bind fun _ _ _ => .pure _

theorem together_blockOver
    (h : ∀ us, us.length < ts.length → K.Together 1 us (attempt s) (attempt s')) :
    K.Together 0 ts (blockOver s) (blockOver s') := by
  refine .expect_bind (by decide) fun us hus => ?_
  exact (together_blockRest fun vs hvs => h vs (by omega)).bind fun _ _ _ => .pure _

theorem together_alternativeOver
    (h : ∀ us, us.length < ts.length → K.Together 1 us (attempt s) (attempt s')) :
    K.Together 0 ts (alternativeOver s) (alternativeOver s') := by
  refine .peek_bind (.ite (fun _ => ?_) fun _ => .pure _)
  refine (Together.take_bind ?_).weaken (Nat.zero_le 1)
  refine (together_blockOver fun us hus => h us ?_).bind fun _ _ _ => .pure _
  rw [List.length_tail] at hus
  omega

/-! ## Expressions -/

/-- Of all readers, this one alone shows a token in its fault. -/
theorem together_number {digits : String} (h : K.tokens (.int digits)) (token : Token) :
    K.Together 0 ts (number token digits) (number token digits) := by
  unfold number
  split
  · exact .pure _
  · exact .refuse h

variable {p q : Level → Read Expr}

theorem together_conditionalOver {t : Token}
    (hs : ∀ us, us.length ≤ ts.length → K.Together 1 us (attempt s) (attempt s'))
    (h : ∀ l us, us.length ≤ ts.length → K.Together 0 us (p l) (q l)) :
    K.Together 1 (t :: ts) (conditionalOver s p) (conditionalOver s' q) := by
  refine .take_bind_cons ?_
  refine (Together.expect _).bind fun _ us hus => ?_
  refine (h _ us hus).bind fun _ vs hvs => ?_
  refine (Together.expect _).bind fun _ ws hws => ?_
  refine (together_blockOver fun ys hys => hs ys (by omega)).bind fun _ xs hxs => ?_
  exact (together_alternativeOver fun ys hys => hs ys (by omega)).bind fun _ _ _ => .pure _

theorem together_functionOver {t : Token}
    (hs : ∀ us, us.length ≤ ts.length → K.Together 1 us (attempt s) (attempt s')) :
    K.Together 1 (t :: ts) (functionOver s) (functionOver s') := by
  refine .take_bind_cons ?_
  refine (Together.expect _).bind fun _ us hus => ?_
  refine (together_items (fun _ _ => together_ident) _).bind fun _ vs hvs => ?_
  exact (together_blockOver fun xs hxs => hs xs (by omega)).bind fun _ _ _ => .pure _

theorem together_operandOver_cons {t : Token}
    (hs : ∀ us, us.length ≤ ts.length → K.Together 1 us (attempt s) (attempt s'))
    (h : ∀ l us, us.length ≤ ts.length → K.Together 0 us (p l) (q l)) :
    K.Together 1 (t :: ts) (operandOver s p) (operandOver s' q) := by
  have hself := fun l => h l ts (Nat.le_refl _)
  refine .peek_bind ?_
  simp only [List.headD_cons]
  split
  · exact together_conditionalOver hs h
  · exact together_functionOver hs
  · rename_i hif hfn
    refine .of_tokens fun hts => .take_bind_cons ?_
    split
    · exact .pure _
    · exact together_number (hts _ List.mem_cons_self) _
    · exact .pure _
    · exact .pure _
    · exact .pure _
    · exact (hself _).bind fun _ _ _ => .pure _
    · exact (hself _).bind fun _ _ _ => .pure _
    · refine (hself _).bind fun _ _ _ => ?_
      exact (Together.expect _).bind fun _ _ _ => .pure _
    · exact absurd rfl hif
    · exact absurd rfl hfn
    · exact (together_items (h _) _).bind fun _ _ _ => .pure _
    · exact (together_pairs (h _)).bind fun _ _ _ => .pure _
    · exact .refuse trivial

theorem together_operandOver
    (hs : ∀ us, us.length < ts.length → K.Together 1 us (attempt s) (attempt s'))
    (h : ∀ l us, us.length < ts.length → K.Together 1 us (p l) (q l)) :
    K.Together 1 ts (operandOver s p) (operandOver s' q) := by
  cases ts with
  | nil => exact .peek_bind (.take_bind (.refuse (f := .noOperand .eof) trivial))
  | cons t ts =>
    apply together_operandOver_cons
    · intro us hus
      exact hs us (Nat.lt_succ_of_le hus)
    · intro l us hus
      exact (h l us (Nat.lt_succ_of_le hus)).weaken (Nat.zero_le 1)

theorem together_extend (h : ∀ l us, us.length ≤ ts.length - 1 → K.Together 0 us (p l) (q l))
    (left : Expr) (k : Follow) : K.Together 1 ts (extend p left k) (extend q left k) := by
  cases k with
  | binary op => exact Together.take.bind fun _ us hus => (h _ us hus).bind fun _ _ _ => .pure _
  | call =>
    refine Together.take.bind fun _ us hus => ?_
    exact (together_items (fun vs hvs => h _ vs (by omega)) _).bind fun _ _ _ => .pure _
  | index =>
    refine Together.take.bind fun _ us hus => (h _ us hus).bind fun _ _ _ => ?_
    exact (Together.expect _).bind fun _ _ _ => .pure _

theorem together_extendAbove (h : ∀ l us, us.length < ts.length → K.Together 0 us (p l) (q l))
    (level : Level) (left : Expr) :
    K.Together 0 ts (extendAbove p level left) (extendAbove q level left) := by
  refine .fix (fun self self' us hus hself e => ?_) left ts (Nat.le_refl _)
  refine .peek_bind ?_
  split
  · rename_i k hk
    have hpos : 0 < us.length :=
      length_pos_of_headD fun he => by rw [he, above?_eof] at hk; cases hk
    refine ((together_extend (fun l vs hvs => h l vs (by omega)) e k).bind
      fun _ vs hvs => ?_).weaken (Nat.zero_le 1)
    exact hself _ vs (by omega)
  · exact .pure _

/-- Expressions are read in related ways, if the statements in their blocks are. -/
theorem together_expressionOver
    (hs : ∀ us, us.length < ts.length → K.Together 1 us (attempt s) (attempt s')) (level : Level) :
    K.Together 1 ts (expressionOver s level) (expressionOver s' level) := by
  refine .fix (fun self self' us hus hself l => ?_) level ts (Nat.le_refl _)
  refine (together_operandOver (fun vs hvs => hs vs (by omega)) hself).bind fun e vs hvs => ?_
  refine together_extendAbove (fun l ws hws => ?_) l e
  exact (hself l ws (by omega)).weaken (Nat.zero_le 1)

/-! ## Programs -/

/-- All statements up to the end of the text, with `stmt` as the reader of statements. -/
def statementsOver (stmt : Read Stmt) : Read (List Stmt) := loop fun self => do
  if (← peek) = .eof then
    pure []
  else
    let s? ← attempt stmt
    let ss ← self
    pure (s?.toList ++ ss)

theorem statementsOver_statement :
    statementsOver (statement (expression .lowest)) = statements := rfl

theorem together_statementsOver
    (h : ∀ us, us.length ≤ ts.length → K.Together 1 us (attempt s) (attempt s')) :
    K.Together 0 ts (statementsOver s) (statementsOver s') := by
  refine .loop (fun self self' us hus hself => ?_) ts (Nat.le_refl _)
  refine .peek_bind (.ite (fun _ => .pure _) fun hc => ?_)
  have hpos := length_pos_of_headD hc
  refine ((h us hus).bind fun _ vs hvs => ?_).weaken (Nat.zero_le 1)
  exact (hself vs (by omega)).bind fun _ _ _ => .pure _

end Blocks

/-! ## The circle of statements and expressions -/

/-- `s` is a reader of statements that is written down as the one of the grammar is, with `wrap`
around each activation. If `wrap` keeps the relation, statements are read in related ways. -/
theorem together_attempt {wrap : Read Stmt → Read Stmt} {s : Read Stmt}
    (hwrap : ∀ {p q : Read Stmt} {ts : List Token}, K.Rel (p ts) (q ts) →
      K.Rel (attempt p ts) (attempt (wrap q) ts))
    (hs : s = wrap (statementStep s)) (ts : List Token) :
    K.Together 1 ts (attempt (statement (expression .lowest))) (attempt s) := by
  -- An activation calls for statements on fewer tokens only, and there they are related.
  induction hl : ts.length using Nat.strongRecOn generalizing ts with
  | ind n ih =>
    subst hl
    have hexpr (us : List Token) (hus : us.length ≤ ts.length) :
        K.Together 1 us (expression .lowest) (expressionOver s .lowest) := by
      rw [← expressionOver_statement]
      exact together_expressionOver (fun vs hvs => ih vs.length (by omega) vs rfl) .lowest
    have hstep : K.Together 1 ts (statement (expression .lowest)) (statementStep s) :=
      together_statement hexpr
    intro hts
    obtain ⟨hsuffix, hrel⟩ := hstep hts
    rw [hs]
    exact ⟨hsuffix, hwrap hrel⟩

/-! ## What faults show -/

/-- Each fault of the first reader takes from tokens of some kind what it shows. -/
def dueTo (T : Token → Prop) : Congruence where
  tokens := T
  Rel out _ := ∀ f ∈ out.faults, f.DueTo T
  rel_pure _ _ := List.forall_mem_nil _
  rel_refuse _ h := List.forall_mem_singleton.2 h
  rel_bind {_ _ p _ _ _ ts} hp hf := by
    rcases hout : p ts with ⟨_ | a, us, fs⟩
    · rw [bind_of_none hout]
      rw [hout] at hp
      exact hp
    · rw [bind_of_some hout]
      rw [hout] at hp
      exact List.forall_mem_append.2 ⟨hp, hf a us fs hout⟩

theorem dueTo_of_mem_faults {T : Token → Prop} (hts : ∀ t ∈ ts, T t) :
    ∀ f ∈ (statements ts).faults, f.DueTo T := by
  have hself : statement (expression .lowest) =
      id (statementStep (statement (expression .lowest))) := loop_statement.unfolds ()
  have hstmt (us : List Token) : (dueTo T).Together 1 us
      (attempt (statement (expression .lowest))) (attempt (statement (expression .lowest))) :=
    together_attempt (fun h => h) hself us
  rw [← statementsOver_statement]
  exact (together_statementsOver (fun us _ => hstmt us) hts).2

end Reading
end Monkey
