import Monkey.Proofs.Reading.Accepts
import Monkey.Proofs.Syntax.WellFormed

/-! # What readers promise

`Read.Makes Q ts p` is what a reader `p` promises on the tokens `ts`, whether it finds faults or
not: it leaves an end of `ts`, it does not fail without a fault, and what it reads satisfies `Q`.

A reader puts together what its parts have read, and takes tokens from the text and from nowhere
else. So if all tokens of the text satisfy `T`, what is read is built from such tokens:
`Reading.makes_expression` and `Reading.makes_statements`. This holds in spite of faults, since a
statement with a fault in it is left out whole.
-/

namespace Monkey

open Reading

namespace Read

variable {α β ι : Type} {Q : α → Prop} {R : β → Prop} {ts us : List Token} {p : Read α}

structure Makes (Q : α → Prop) (ts : List Token) (p : Read α) : Prop where
  suffix : (p ts).rest <:+ ts
  reports : (p ts).value? = none → (p ts).faults ≠ []
  holds : ∀ a, (p ts).value? = some a → Q a

namespace Makes

theorem pure {a : α} (h : Q a) : Makes Q ts (pure a) :=
  ⟨List.suffix_rfl, nofun, by rintro _ ⟨⟩; exact h⟩

theorem refuse (f : Fault) : Makes Q ts (refuse f) :=
  ⟨List.suffix_rfl, fun _ => nofun, nofun⟩

theorem bind_of_run {f : α → Read β} (h : Makes Q ts p)
    (hf : ∀ a us fs, p ts = ⟨some a, us, fs⟩ → Makes R us (f a)) : Makes R ts (p >>= f) := by
  obtain ⟨hs, hr, -⟩ := h
  rcases hp : p ts with ⟨_ | a, us, fs⟩
  · rw [hp] at hs hr
    refine ⟨?_, ?_, ?_⟩ <;> rw [bind_of_none hp]
    · exact hs
    · exact fun _ => hr rfl
    · exact nofun
  · rw [hp] at hs
    obtain ⟨hs', hr', hh'⟩ := hf a us fs hp
    refine ⟨?_, ?_, ?_⟩ <;> rw [bind_of_some hp]
    · exact hs'.trans hs
    · exact fun hn => List.append_ne_nil_of_right_ne_nil _ (hr' hn)
    · exact hh'

/-- What follows a reader starts from an end of the tokens, with what the reader promises. If the
reader is known to use up `k` tokens, there are that many less. -/
theorem bind_alike {k : Nat} {f : α → Read β} (h : Makes Q ts p) (hk : Alike k ts p p)
    (hf : ∀ a us, us <:+ ts → us.length ≤ ts.length - k → Q a → Makes R us (f a)) :
    Makes R ts (p >>= f) := by
  refine h.bind_of_run fun a us fs hp => ?_
  have hs := h.suffix
  have hl := hk.2
  have ha := h.holds a
  rw [hp] at hs hl ha
  exact hf a us hs hl (ha rfl)

theorem bind {f : α → Read β} (h : Makes Q ts p)
    (hf : ∀ a us, us <:+ ts → Q a → Makes R us (f a)) : Makes R ts (p >>= f) := by
  refine h.bind_of_run fun a us fs hp => ?_
  have hs := h.suffix
  have ha := h.holds a
  rw [hp] at hs ha
  exact hf a us hs (ha rfl)

theorem peek_bind {f : Token → Read β} (h : Makes R ts (f (ts.headD .eof))) :
    Makes R ts (peek >>= f) := ⟨h.suffix, h.reports, h.holds⟩

theorem take_bind {f : Token → Read β} (h : Makes R ts.tail (f (ts.headD .eof))) :
    Makes R ts (take >>= f) :=
  ⟨h.suffix.trans (List.tail_suffix ts), h.reports, h.holds⟩

theorem ite {c : Prop} [Decidable c] {q : Read α} (h : c → Makes Q ts p) (h' : ¬c → Makes Q ts q) :
    Makes Q ts (if c then p else q) := by
  by_cases hc : c
  · rw [if_pos hc]
    exact h hc
  · rw [if_neg hc]
    exact h' hc

theorem expect (t : Token) : Makes (· = t) ts (expect t) := by
  refine peek_bind (ite (fun hc => ?_) fun _ => refuse _)
  refine ⟨List.tail_suffix ts, nofun, ?_⟩
  rintro _ ⟨⟩
  exact hc

/-- Where a token is expected and found, there is one less. -/
theorem expect_bind {t : Token} (ht : t ≠ .eof) {f : Token → Read β}
    (h : ∀ us, us <:+ ts → us.length < ts.length → Makes R us (f t)) :
    Makes R ts (Read.expect t >>= f) := by
  refine (expect t).bind_of_run fun t' us fs hp => ?_
  by_cases hc : ts.headD .eof = t
  · rw [expect_of_head hc] at hp
    cases hp
    refine h ts.tail (List.tail_suffix ts) ?_
    rw [eq_cons_of_headD hc ht]
    exact Nat.lt_succ_self _
  · rw [expect_of_ne hc] at hp
    cases hp

theorem skip (t : Token) : Makes (fun _ => True) ts (skip t) :=
  peek_bind (ite (fun _ => take_bind (pure trivial)) fun _ => pure trivial)

theorem attempt (h : Makes Q ts p) : Makes (fun a? => ∀ a ∈ a?, Q a) ts (attempt p) := by
  refine ⟨h.suffix, nofun, ?_⟩
  rintro _ ⟨⟩ a ha
  exact h.holds a ha

/-- A promise that holds on tokens as soon as it holds on their proper ends holds on all ends of a
text. The arguments of the reader satisfy `I` throughout. -/
theorem of_shorter {I : ι → Prop} {p : ι → Read α} {all : List Token}
    (h : ∀ i ts, I i → ts <:+ all →
      (∀ j us, I j → us <:+ ts → us.length < ts.length → Makes Q us (p j)) → Makes Q ts (p i))
    (i : ι) (ts : List Token) (hi : I i) (hts : ts <:+ all) : Makes Q ts (p i) := by
  induction hl : ts.length using Nat.strongRecOn generalizing i ts with
  | ind l ih =>
    subst hl
    exact h i ts hi hts fun j us hj hs hlt => ih us.length hlt j us hj (hs.trans hts) rfl

/-- The same for a reader without an argument. -/
theorem of_shorter_self {all : List Token}
    (h : ∀ ts, ts <:+ all → (∀ us, us <:+ ts → us.length < ts.length → Makes Q us p) →
      Makes Q ts p) : Makes Q all p :=
  of_shorter (I := fun _ : Unit => True)
    (fun _ ts _ hts ih => h ts hts fun us => ih () us trivial) () all trivial List.suffix_rfl

end Makes

end Read

namespace Reading

open Read

variable {α : Type} {T : Token → Prop} {ts : List Token}

/-- A token that is seen, and is not the end, is one of the tokens. -/
theorem holds_headD {t : Token} (hts : ∀ t ∈ ts, T t) (h : ts.headD .eof = t) (ht : t ≠ .eof) :
    T t := by
  rw [eq_cons_of_headD h ht] at hts
  exact hts t List.mem_cons_self

/-! ## Lists of items -/

theorem makes_ident (hts : ∀ t ∈ ts, T t) : Makes (Ident.Built T) ts ident := by
  refine Makes.peek_bind ?_
  split
  · rename_i name hn
    refine Makes.take_bind (.pure ?_)
    rw [hn]
    exact ⟨rfl, holds_headD hts hn nofun⟩
  · exact .refuse _

section Items

variable {Q : α → Prop} {p : Read α}

theorem makes_moreItems (hp : ∀ us, Alike 0 us p p) (h : ∀ us, us <:+ ts → Makes Q us p) :
    Makes (∀ a ∈ ·, Q a) ts (moreItems p) := by
  refine Makes.of_shorter_self fun us hus ih => ?_
  rw [moreItems_eq hp]
  refine Makes.peek_bind (Makes.ite (fun hc => ?_) fun _ => .pure (List.forall_mem_nil _))
  have hpos : 0 < us.length := length_pos_of_headD (by rw [hc]; decide)
  have htail : us.tail.length < us.length := by
    rw [List.length_tail]
    omega
  refine Makes.take_bind ((h us.tail ((List.tail_suffix us).trans hus)).bind fun a vs hvs ha => ?_)
  have hlt : vs.length < us.length := Nat.lt_of_le_of_lt hvs.length_le htail
  refine (ih vs (hvs.trans (List.tail_suffix us)) hlt).bind fun as _ _ has => .pure ?_
  exact List.forall_mem_cons.2 ⟨ha, has⟩

theorem makes_items (hp : ∀ us, Alike 0 us p p) (h : ∀ us, us <:+ ts → Makes Q us p)
    (close : Symbol) : Makes (∀ a ∈ ·, Q a) ts (items p close) := by
  refine Makes.peek_bind (Makes.ite (fun _ => Makes.take_bind (.pure (List.forall_mem_nil _)))
    fun _ => ?_)
  refine (h ts List.suffix_rfl).bind fun a us hus ha => ?_
  refine (makes_moreItems hp fun vs hvs => h vs (hvs.trans hus)).bind fun as _ _ has => ?_
  exact (Makes.expect _).bind fun _ _ _ _ => .pure (List.forall_mem_cons.2 ⟨ha, has⟩)

end Items

/-! ## Statements and blocks -/

theorem makes_pairEnd : Makes (fun _ => True) ts pairEnd :=
  Makes.peek_bind (Makes.ite (fun _ => .pure trivial)
    fun _ => (Makes.expect _).bind fun _ _ _ _ => .pure trivial)

theorem makes_pairs (h : ∀ us, us <:+ ts → Makes (Expr.Built T) us (expression .lowest)) :
    Makes (Expr.BuiltPairs T) ts (pairs (expression .lowest)) := by
  refine Makes.of_shorter_self fun us hus ih => ?_
  rw [pairs_expression]
  refine Makes.peek_bind (Makes.ite (fun _ => Makes.take_bind (.pure trivial)) fun _ => ?_)
  refine (h us hus).bind fun key vs hvs hkey => ?_
  refine Makes.expect_bind (by decide) fun ws hws hlt => ?_
  have hwu : ws <:+ us := hws.trans hvs
  refine (h ws (hwu.trans hus)).bind fun value xs hxs hvalue => ?_
  refine makes_pairEnd.bind fun _ ys hys _ => ?_
  have hyw : ys <:+ ws := hys.trans hxs
  have hlen : ys.length < us.length :=
    Nat.lt_of_le_of_lt hyw.length_le (Nat.lt_of_lt_of_le hlt hvs.length_le)
  exact (ih ys (hyw.trans hwu) hlen).bind fun _ _ _ hps => .pure ⟨⟨hkey, hvalue⟩, hps⟩

theorem makes_statement (hts : ∀ t ∈ ts, T t)
    (h : ∀ us, us <:+ ts → Makes (Expr.Built T) us (expression .lowest)) :
    Makes (Stmt.Built T) ts (statement (expression .lowest)) := by
  have htail : ∀ us, us <:+ ts.tail → Makes (Expr.Built T) us (expression .lowest) :=
    fun us hus => h us (hus.trans (List.tail_suffix ts))
  refine Makes.peek_bind ?_
  split
  · rename_i ht
    refine Makes.take_bind ?_
    refine (makes_ident fun t ht => hts t (List.mem_of_mem_tail ht)).bind fun x us hus hx => ?_
    refine (Makes.expect _).bind fun _ vs hvs _ => ?_
    refine (htail vs (hvs.trans hus)).bind fun e _ _ he => ?_
    exact (Makes.skip _).bind fun _ _ _ _ => .pure ⟨ht, hx, he⟩
  · rename_i ht
    refine Makes.take_bind (Makes.peek_bind ?_)
    have hnone : Makes (Stmt.Built T) ts.tail
        (do skip (.sym .semicolon); pure (.ret (ts.headD .eof) none)) :=
      (Makes.skip _).bind fun _ _ _ _ => .pure ht
    split
    · exact hnone
    · exact hnone
    · exact hnone
    · refine (htail ts.tail List.suffix_rfl).bind fun e _ _ he => ?_
      exact (Makes.skip _).bind fun _ _ _ _ => .pure ⟨ht, he⟩
  · refine (h ts List.suffix_rfl).bind fun e _ _ he => ?_
    exact (Makes.skip _).bind fun _ _ _ _ => .pure he

theorem makes_blockRest (hts : ∀ t ∈ ts, T t)
    (h : ∀ us, us <:+ ts → Makes (Expr.Built T) us (expression .lowest)) :
    Makes (Stmt.BuiltAll T) ts (blockRest (statement (expression .lowest))) := by
  refine Makes.of_shorter_self fun us hus ih => ?_
  have hstmt : Makes (Stmt.Built T) us (statement (expression .lowest)) :=
    makes_statement (fun t ht => hts t (hus.subset ht)) fun vs hvs => h vs (hvs.trans hus)
  rw [blockRest_statement]
  refine Makes.peek_bind ?_
  split
  · exact Makes.take_bind (.pure trivial)
  · exact .refuse _
  · rename_i hc
    have hpos := length_pos_of_headD hc
    refine hstmt.attempt.bind_alike (alike_statement_expression us).attempt
      fun s? vs hvs hl hs => ?_
    refine (ih vs hvs (by omega)).bind fun ss _ _ hss => .pure ?_
    rw [Stmt.builtAll_iff] at hss ⊢
    intro s hmem
    rcases List.mem_append.1 hmem with hmem | hmem
    · exact hs s (Option.mem_toList.1 hmem)
    · exact hss s hmem

theorem makes_block (hts : ∀ t ∈ ts, T t)
    (h : ∀ us, us <:+ ts → Makes (Expr.Built T) us (expression .lowest)) :
    Makes (Block.Built T) ts (block (expression .lowest)) := by
  refine (Makes.expect _).bind fun token us hus ht => ?_
  refine (makes_blockRest (fun t ht => hts t (hus.subset ht))
    fun vs hvs => h vs (hvs.trans hus)).bind fun ss _ _ hss => ?_
  exact .pure ⟨ht, hss⟩

theorem makes_alternative (hts : ∀ t ∈ ts, T t)
    (h : ∀ us, us <:+ ts → Makes (Expr.Built T) us (expression .lowest)) :
    Makes (∀ b ∈ ·, Block.Built T b) ts (alternative (expression .lowest)) := by
  refine Makes.peek_bind (Makes.ite (fun _ => Makes.take_bind ?_) fun _ => .pure nofun)
  refine (makes_block (fun t ht => hts t (List.mem_of_mem_tail ht))
    fun us hus => h us (hus.trans (List.tail_suffix ts))).bind fun b _ _ hb => .pure ?_
  rintro _ ⟨⟩
  exact hb

/-! ## Expressions -/

theorem makes_number {t : Token} {digits : String} (hd : t = .int digits) (ht : T t) :
    Makes (Expr.Built T) ts (number t digits) := by
  rw [number]
  cases hn : Integer.ofDigits? digits with
  | none => exact .refuse _
  | some n => exact .pure ⟨digits, hd, ht, Integer.ofDigits?_eq_some.1 hn⟩

theorem makes_operand {t : Token} (ht : T t) (hts : ∀ t ∈ ts, T t)
    (h : ∀ l us, us <:+ ts → Makes (Expr.Built T) us (expression l)) :
    Makes (Expr.Built T) (t :: ts) (operand expression) := by
  have hself := fun l => h l ts List.suffix_rfl
  refine Makes.take_bind ?_
  simp only [List.headD_cons, List.tail_cons]
  split
  · exact .pure ⟨rfl, ht⟩
  · exact makes_number rfl ht
  · exact .pure ⟨rfl, ht⟩
  · exact .pure rfl
  · exact .pure rfl
  · exact (hself _).bind fun e _ _ he => .pure ⟨rfl, he⟩
  · exact (hself _).bind fun e _ _ he => .pure ⟨rfl, he⟩
  · refine (hself _).bind fun e _ _ he => ?_
    exact (Makes.expect _).bind fun _ _ _ _ => .pure he
  · refine (Makes.expect _).bind fun _ us hus _ => ?_
    refine (h _ us hus).bind fun c vs hvs hc => ?_
    refine (Makes.expect _).bind fun _ ws hws _ => ?_
    have hwt : ws <:+ ts := hws.trans (hvs.trans hus)
    refine (makes_block (fun t ht => hts t (hwt.subset ht))
      fun xs hxs => h _ xs (hxs.trans hwt)).bind fun b ys hys hb => ?_
    have hyt : ys <:+ ts := hys.trans hwt
    refine (makes_alternative (fun t ht => hts t (hyt.subset ht))
      fun xs hxs => h _ xs (hxs.trans hyt)).bind fun a? _ _ ha => .pure ?_
    cases a? with
    | none => exact ⟨rfl, hc, hb⟩
    | some a => exact ⟨rfl, hc, hb, ha a rfl⟩
  · refine (Makes.expect _).bind fun _ us hus _ => ?_
    refine (makes_items (fun _ => alike_ident) (fun vs hvs => makes_ident fun t ht =>
      hts t (hus.subset (hvs.subset ht))) _).bind fun ps vs hvs hps => ?_
    have hvt : vs <:+ ts := hvs.trans hus
    refine (makes_block (fun t ht => hts t (hvt.subset ht))
      fun xs hxs => h _ xs (hxs.trans hvt)).bind fun b _ _ hb => .pure ?_
    exact ⟨rfl, hps, hb⟩
  · refine (makes_items (alike_expression_zero _) (h _) _).bind fun es _ _ hes => .pure ?_
    exact ⟨rfl, Expr.builtAll_iff.2 hes⟩
  · exact (makes_pairs (h _)).bind fun ps _ _ hps => .pure ⟨rfl, hps⟩
  · exact .refuse _

theorem makes_extend {left : Expr} {k : Follow} (hleft : left.Built T)
    (hk : ts.headD .eof = .sym k.symbol)
    (h : ∀ l us, us <:+ ts.tail → Makes (Expr.Built T) us (expression l)) :
    Makes (Expr.Built T) ts (extend expression left k) := by
  have hself := fun l => h l ts.tail List.suffix_rfl
  cases k with
  | binary op =>
    exact Makes.take_bind ((hself _).bind fun r _ _ hr => .pure ⟨hk, hleft, hr⟩)
  | call =>
    refine Makes.take_bind ?_
    refine (makes_items (alike_expression_zero _) (h _) _).bind fun es _ _ hes => ?_
    exact .pure ⟨hk, hleft, Expr.builtAll_iff.2 hes⟩
  | index =>
    refine Makes.take_bind ((hself _).bind fun i _ _ hi => ?_)
    exact (Makes.expect _).bind fun _ _ _ _ => .pure ⟨hk, hleft, hi⟩

theorem makes_extendAbove {left : Expr} (hleft : left.Built T) (m : Level)
    (h : ∀ l us, us <:+ ts → Makes (Expr.Built T) us (expression l)) :
    Makes (Expr.Built T) ts (extendAbove expression m left) := by
  refine Makes.of_shorter (fun left us hleft hus ih => ?_) left ts hleft List.suffix_rfl
  rw [extendAbove_expression]
  refine Makes.peek_bind ?_
  split
  · rename_i k hk
    obtain ⟨hsym, -⟩ := Follow.eq_symbol_of_above? hk
    have hpos : 0 < us.length := length_pos_of_headD (by rw [hsym]; exact nofun)
    have hext : Makes (Expr.Built T) us (extend expression left k) :=
      makes_extend hleft hsym fun l vs hvs => h l vs (hvs.trans ((List.tail_suffix us).trans hus))
    refine hext.bind_alike (alike_extend (fun l vs _ => alike_expression l vs) hpos left k)
      fun larger vs hvs hl hlarger => ?_
    exact ih larger vs hlarger hvs (by omega)
  · exact .pure hleft

/-- What is read as an expression is built from tokens of the text. -/
theorem makes_expression (l : Level) (hts : ∀ t ∈ ts, T t) :
    Makes (Expr.Built T) ts (expression l) := by
  refine Makes.of_shorter (I := fun _ => True) (fun m us _ hus ih => ?_) l ts trivial
    List.suffix_rfl
  rw [expression_eq]
  cases us with
  | nil => exact ⟨List.suffix_rfl, fun _ => nofun, nofun⟩
  | cons t us =>
    have hmem : ∀ u ∈ t :: us, T u := fun u hu => hts u (hus.subset hu)
    have hlt : ∀ l vs, vs <:+ us → Makes (Expr.Built T) vs (expression l) := fun l vs hvs =>
      ih l vs trivial (hvs.trans (List.suffix_cons t us)) (Nat.lt_succ_of_le hvs.length_le)
    have hop : Makes (Expr.Built T) (t :: us) (operand expression) :=
      makes_operand (hmem t List.mem_cons_self) (fun u hu => hmem u (List.mem_cons_of_mem t hu)) hlt
    refine hop.bind_alike (alike_operand fun l vs _ => alike_expression l vs)
      fun e vs hvs hl he => ?_
    refine makes_extendAbove he m fun l ws hws => ih l ws trivial (hws.trans hvs) ?_
    have := hws.length_le
    rw [List.length_cons] at hl ⊢
    omega

/-- What is read as the statements of a program is built from tokens of the text. -/
theorem makes_statements (hts : ∀ t ∈ ts, T t) : Makes (∀ s ∈ ·, Stmt.Built T s) ts statements := by
  refine Makes.of_shorter_self fun us hus ih => ?_
  have hmem : ∀ u ∈ us, T u := fun u hu => hts u (hus.subset hu)
  have hstmt : Makes (Stmt.Built T) us (statement (expression .lowest)) :=
    makes_statement hmem fun vs hvs => makes_expression _ fun u hu => hmem u (hvs.subset hu)
  rw [statements_eq]
  refine Makes.peek_bind (Makes.ite (fun _ => .pure (List.forall_mem_nil _)) fun hc => ?_)
  have hpos := length_pos_of_headD hc
  refine hstmt.attempt.bind_alike (alike_statement_expression us).attempt fun s? vs hvs hl hs => ?_
  refine (ih vs hvs (by omega)).bind fun ss _ _ hss => .pure fun s hmem => ?_
  rcases List.mem_append.1 hmem with hmem | hmem
  · exact hs s (Option.mem_toList.1 hmem)
  · exact hss s hmem

end Reading
end Monkey
