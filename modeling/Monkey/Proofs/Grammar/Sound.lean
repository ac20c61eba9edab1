import Monkey.Proofs.Grammar.Complete
import Monkey.Proofs.Reading.Contract

/-! # What is read is derived

A run of a reader that finds no fault is taken apart, and a derivation is put together from what the
parts have read. Readers of expressions call each other on fewer and fewer tokens, so this goes by
induction on how many there are: `SoundBelow n` is what is known of expressions that are read from
less than `n` tokens.

The loop that goes on behind an expression keeps two things up. What it has read so far is derived
on some level, and the next token does not bind tighter than that level. Hence whatever continues
the expression finds it to be of the level that it needs.
-/

namespace Monkey

open Reading Read

namespace Read

variable {α : Type} {p : Read α} {ts us rest : List Token} {a : α}

theorem Accepts.unique {a' : α} (h : Accepts p ts a rest) (h' : Accepts p ts a' us) :
    a = a' ∧ rest = us := by
  rw [Accepts, h, Outcome.mk.injEq, Option.some.injEq] at h'
  exact ⟨h'.1, h'.2.1⟩

/-- A reader that does not fail without a fault has succeeded if there was none. -/
theorem Makes.exists_of_accepts_attempt {Q : α → Prop} {a? : Option α} (hm : Makes Q ts p)
    (h : Accepts (Read.attempt p) ts a? rest) : ∃ a, a? = some a ∧ Accepts p ts a rest := by
  rw [Accepts, Read.attempt, Outcome.mk.injEq, Option.some.injEq] at h
  obtain ⟨hv, hr, hf⟩ := h
  cases a? with
  | none => exact absurd hf (hm.reports hv)
  | some a =>
    refine ⟨a, rfl, ?_⟩
    rw [Accepts, ← hr, ← hv, ← hf]

end Read

namespace Grammar

variable {n : Nat} {ts us rest : List Token}

/-- What is read as an expression from less than `n` tokens is derived, and nothing that follows
belongs to it. -/
def SoundBelow (n : Nat) : Prop :=
  ∀ m ts e rest, m ≠ .suffix → ts.length < n → Accepts (expression m) ts e rest →
    ∃ us l, ts = us ++ rest ∧ Admits m l ∧ Derives us (.expr l e) ∧
      Follow.above? m (rest.headD .eof) = none

theorem SoundBelow.lowest {e : Expr} (hn : SoundBelow n) (hl : ts.length < n)
    (h : Accepts (expression .lowest) ts e rest) :
    ∃ us, ts = us ++ rest ∧ Derives us (.expr .equality e) ∧ ¬Continues (rest.headD .eof) := by
  obtain ⟨us, l, hts, hm, hd, hstop⟩ := hn .lowest ts e rest nofun hl h
  refine ⟨us, hts, hd.loosen ?_, Follow.above?_lowest_eq_none_iff.1 hstop⟩
  rcases hm with hm | ⟨hm, -⟩
  · exact hm
  · cases hm

/-! ## Lists -/

section Items

variable {α : Type} {p : Read α} {D : List Token → α → Prop} {as : List α}

theorem exists_of_accepts_moreItems (hp : ∀ us, Alike 0 us p p)
    (h : ∀ us a rest, us.length ≤ ts.length → Accepts p us a rest → ∃ vs, us = vs ++ rest ∧ D vs a)
    (hacc : Accepts (moreItems p) ts as rest) :
    ∃ parts : List (List Token × α), as = parts.map Prod.snd ∧
      ts = (parts.map Prod.fst).flatMap (.sym .comma :: ·) ++ rest ∧ ∀ x ∈ parts, D x.1 x.2 := by
  induction hl : ts.length using Nat.strongRecOn generalizing ts as with
  | ind l ih =>
    subst hl
    rw [moreItems_eq hp, moreItemsStep, accepts_peek_bind] at hacc
    split at hacc
    · rename_i hc
      have hts := eq_sym_cons hc
      have hlt : ts.tail.length < ts.length := by
        rw [hts]
        exact Nat.lt_succ_self _
      obtain ⟨a, us, ha, hacc⟩ := accepts_bind.1 (accepts_take_bind.1 hacc)
      obtain ⟨vs, hvs, hD⟩ := h ts.tail a us (Nat.le_of_lt hlt) ha
      have hus : us.length ≤ ts.tail.length := by
        rw [hvs, List.length_append]
        exact Nat.le_add_left _ _
      obtain ⟨as', ws, hmore, hpure⟩ := accepts_bind.1 hacc
      obtain ⟨rfl, rfl⟩ := accepts_pure.1 hpure
      obtain ⟨parts, rfl, hparts, hDs⟩ := ih us.length (by omega)
        (fun us' a rest hl' => h us' a rest (by omega)) hmore rfl
      refine ⟨(vs, a) :: parts, rfl, ?_, List.forall_mem_cons.2 ⟨hD, hDs⟩⟩
      rw [hts, hvs, hparts]
      simp
    · obtain ⟨rfl, rfl⟩ := accepts_pure.1 hacc
      exact ⟨[], rfl, rfl, List.forall_mem_nil _⟩

theorem exists_of_accepts_items {close : Symbol} (hp : ∀ us, Alike 0 us p p)
    (h : ∀ us a rest, us.length ≤ ts.length → Accepts p us a rest → ∃ vs, us = vs ++ rest ∧ D vs a)
    (hacc : Accepts (items p close) ts as rest) :
    ∃ parts : List (List Token × α), as = parts.map Prod.snd ∧
      ts = commas (parts.map Prod.fst) ++ .sym close :: rest ∧ ∀ x ∈ parts, D x.1 x.2 := by
  rw [items, accepts_peek_bind] at hacc
  split at hacc
  · rename_i hc
    rw [accepts_take_bind] at hacc
    obtain ⟨rfl, rfl⟩ := accepts_pure.1 hacc
    exact ⟨[], rfl, eq_sym_cons hc, List.forall_mem_nil _⟩
  · obtain ⟨a, us, ha, hacc'⟩ := accepts_bind.1 hacc
    obtain ⟨vs, hvs, hD⟩ := h ts a us (Nat.le_refl _) ha
    have hus : us.length ≤ ts.length := by
      rw [hvs, List.length_append]
      exact Nat.le_add_left _ _
    obtain ⟨as', ws, hmore, hacc''⟩ := accepts_bind.1 hacc'
    obtain ⟨parts, rfl, hparts, hDs⟩ := exists_of_accepts_moreItems hp
      (fun us' a rest hl' => h us' a rest (Nat.le_trans hl' hus)) hmore
    obtain ⟨xs, rfl, hpure⟩ := accepts_expect_bind.1 hacc''
    obtain ⟨rfl, rfl⟩ := accepts_pure.1 hpure
    refine ⟨(vs, a) :: parts, rfl, ?_, List.forall_mem_cons.2 ⟨hD, hDs⟩⟩
    rw [hvs, hparts, List.map_cons, commas_cons, List.append_assoc]

theorem exists_of_accepts_ident {id : Ident} (h : Accepts ident ts id rest) :
    ∃ x, id = ⟨.ident x, x⟩ ∧ ts = .ident x :: rest := by
  rw [ident, accepts_peek_bind] at h
  split at h
  · rename_i x hx
    rw [accepts_take_bind, hx] at h
    obtain ⟨rfl, rfl⟩ := accepts_pure.1 h
    exact ⟨x, rfl, eq_cons_of_headD hx nofun⟩
  · exact absurd h not_accepts_refuse

theorem exists_of_accepts_params {ps : List Ident}
    (h : Accepts (items ident .closeParen) ts ps rest) :
    ∃ names : List String, ps = names.map (fun x => ⟨.ident x, x⟩) ∧
      ts = commas (names.map fun x => [.ident x]) ++ .sym .closeParen :: rest := by
  obtain ⟨parts, rfl, rfl, hparts⟩ := exists_of_accepts_items (D := fun us id =>
    us = [.ident id.name] ∧ id = ⟨.ident id.name, id.name⟩) (fun _ => alike_ident)
    (fun us id rest _ hid => by
      obtain ⟨x, rfl, rfl⟩ := exists_of_accepts_ident hid
      exact ⟨[.ident x], rfl, rfl, rfl⟩) h
  refine ⟨parts.map fun x => x.2.name, ?_, ?_⟩
  · rw [List.map_map]
    exact List.map_congr_left fun x hx => (hparts x hx).2
  · rw [List.map_map]
    exact congrArg (commas · ++ _) (List.map_congr_left fun x hx => (hparts x hx).1)

end Items

/-- Expressions in a list are derived one by one. -/
theorem SoundBelow.items {es : List Expr} {close : Symbol} (hn : SoundBelow n) (hl : ts.length < n)
    (h : Accepts (Reading.items (expression .lowest) close) ts es rest) :
    ∃ args : List Part, es = args.map Prod.snd ∧
      ts = commas (args.map Prod.fst) ++ .sym close :: rest ∧
      ∀ p ∈ args, Derives p.1 (.expr .equality p.2) := by
  refine exists_of_accepts_items (D := fun us e => Derives us (.expr .equality e))
    (alike_expression_zero .lowest) (fun us e rest hus he => ?_) h
  obtain ⟨vs, hvs, hd, -⟩ := hn.lowest (Nat.lt_of_le_of_lt hus hl) he
  exact ⟨vs, hvs, hd⟩

theorem exists_of_accepts_pairEnd {u : Unit} (h : Accepts pairEnd ts u rest) :
    (ts = rest ∧ ∃ us, ts = .sym .closeBrace :: us) ∨ ts = .sym .comma :: rest := by
  rw [pairEnd, accepts_peek_bind] at h
  split at h
  · rename_i hc
    obtain ⟨-, rfl⟩ := accepts_pure.1 h
    exact .inl ⟨rfl, _, eq_sym_cons hc⟩
  · obtain ⟨us, rfl, hpure⟩ := accepts_expect_bind.1 h
    obtain ⟨-, rfl⟩ := accepts_pure.1 hpure
    exact .inr rfl

theorem SoundBelow.pairs {ps : List (Expr × Expr)} (hn : SoundBelow n) (hl : ts.length < n)
    (h : Accepts (Reading.pairs (expression .lowest)) ts ps rest) :
    ∃ (pairs : List (Part × Part)) (last : List Token), ps = pairs.map (fun p => (p.1.2, p.2.2)) ∧
      ts = commas (pairs.map pairTokens) ++ (last ++ .sym .closeBrace :: rest) ∧
      (∀ p ∈ pairs, Derives p.1.1 (.expr .equality p.1.2)) ∧
      (∀ p ∈ pairs, Derives p.2.1 (.expr .equality p.2.2)) ∧ Trailing pairs last := by
  induction hlen : ts.length using Nat.strongRecOn generalizing ts ps with
  | ind k ih =>
    subst hlen
    rw [pairs_expression, pairsStep, accepts_peek_bind] at h
    split at h
    · rename_i hc
      rw [accepts_take_bind] at h
      obtain ⟨rfl, rfl⟩ := accepts_pure.1 h
      exact ⟨[], [], rfl, eq_sym_cons hc, List.forall_mem_nil _, List.forall_mem_nil _, .none⟩
    · obtain ⟨key, us, hkey, h₁⟩ := accepts_bind.1 h
      obtain ⟨vs, rfl, hkd, -⟩ := hn.lowest hl hkey
      obtain ⟨ws, rfl, h₂⟩ := accepts_expect_bind.1 h₁
      obtain ⟨value, xs, hvalue, h₃⟩ := accepts_bind.1 h₂
      have hws : ws.length < n := by
        simp only [List.length_append, List.length_cons] at hl
        omega
      obtain ⟨ys, rfl, hvd, -⟩ := hn.lowest hws hvalue
      obtain ⟨_, zs, hend, h₄⟩ := accepts_bind.1 h₃
      obtain ⟨qs, _, hself, hpure⟩ := accepts_bind.1 h₄
      obtain ⟨rfl, rfl⟩ := accepts_pure.1 hpure
      have hpair : ∀ p : Part × Part, p ∈ [((vs, key), (ys, value))] →
          Derives p.1.1 (.expr .equality p.1.2) ∧ Derives p.2.1 (.expr .equality p.2.2) :=
        List.forall_mem_singleton.2 ⟨hkd, hvd⟩
      rcases exists_of_accepts_pairEnd hend with ⟨rfl, zs', rfl⟩ | rfl
      · obtain ⟨rfl, rfl⟩ := hself.unique accepts_pairs_nil
        refine ⟨[((vs, key), (ys, value))], [], rfl, ?_, fun p hp => (hpair p hp).1,
          fun p hp => (hpair p hp).2, .none⟩
        simp [commas, pairTokens]
      · have hzs : zs.length < n := by
          simp only [List.length_append, List.length_cons] at hws
          omega
        obtain ⟨pairs, last, rfl, rfl, hks, hvs, hlast⟩ := ih zs.length
          (by simp only [List.length_append, List.length_cons]; omega) hzs hself rfl
        cases pairs with
        | nil =>
          cases hlast with
          | none =>
            refine ⟨[((vs, key), (ys, value))], [.sym .comma], rfl, ?_, fun p hp => (hpair p hp).1,
              fun p hp => (hpair p hp).2, .comma (List.cons_ne_nil _ _)⟩
            simp [commas, pairTokens]
          | comma hne => exact absurd rfl hne
        | cons p pairs =>
          refine ⟨((vs, key), (ys, value)) :: p :: pairs, last, rfl, ?_,
            List.forall_mem_cons.2 ⟨hkd, hks⟩, List.forall_mem_cons.2 ⟨hvd, hvs⟩,
            hlast.of_ne_nil (List.cons_ne_nil _ _)⟩
          simp [commas, pairTokens, List.intercalate_cons_cons]

/-! ## Statements -/

/-- The end of a statement is an expression that has ended, and a semicolon if there is one. -/
theorem SoundBelow.ending {s : Stmt} (hn : SoundBelow n) (hl : ts.length < n) (stmt : Expr → Stmt)
    (h : Accepts (do
        let value ← expression .lowest
        skip (.sym .semicolon)
        pure (stmt value)) ts s rest) :
    ∃ us vs e, s = stmt e ∧ ts = us ++ (vs ++ rest) ∧ Derives us (.expr .equality e) ∧
      Ending (rest.headD .eof) vs := by
  obtain ⟨e, xs, he, h₁⟩ := accepts_bind.1 h
  obtain ⟨us, rfl, hd, hstop⟩ := hn.lowest hl he
  obtain ⟨_, ys, hskip, hpure⟩ := accepts_bind.1 h₁
  obtain ⟨rfl, rfl⟩ := accepts_pure.1 hpure
  rcases eq_or_eq_cons_of_accepts_skip hskip with rfl | rfl
  · exact ⟨us, [], e, rfl, rfl, hd, .bare hstop⟩
  · exact ⟨us, [.sym .semicolon], e, rfl, rfl, hd, .semicolon⟩

/-- A `return` without a value takes the semicolon behind it. -/
theorem derives_retNone {s : Stmt}
    (hnext : ts.headD .eof = .sym .semicolon ∨ ts.headD .eof = .sym .closeBrace ∨
      ts.headD .eof = .eof)
    (h : Accepts (do
        skip (.sym .semicolon)
        pure (Stmt.ret (.word .returnWord) none)) ts s rest) :
    ∃ us, .word .returnWord :: ts = us ++ rest ∧ Derives us (.stmt (rest.headD .eof) s) := by
  obtain ⟨_, xs, hskip, hpure⟩ := accepts_bind.1 h
  obtain ⟨rfl, rfl⟩ := accepts_pure.1 hpure
  rcases eq_or_eq_cons_of_accepts_skip hskip with rfl | rfl
  · exact ⟨[.word .returnWord], rfl, .retBare hnext⟩
  · exact ⟨[.word .returnWord, .sym .semicolon], rfl, .retSemicolon⟩

theorem SoundBelow.statement {s : Stmt} (hn : SoundBelow n) (hl : ts.length < n)
    (h : Accepts (Reading.statement (expression .lowest)) ts s rest) :
    ∃ us, ts = us ++ rest ∧ Derives us (.stmt (rest.headD .eof) s) := by
  rw [Reading.statement, accepts_peek_bind] at h
  split at h
  · rename_i ht
    rw [accepts_take_bind, ht] at h
    have hts := eq_word_cons ht
    obtain ⟨id, us, hid, h₁⟩ := accepts_bind.1 h
    obtain ⟨x, rfl, hx⟩ := exists_of_accepts_ident hid
    obtain ⟨vs, rfl, h₂⟩ := accepts_expect_bind.1 h₁
    have hvs : vs.length < n := by
      rw [hts, hx] at hl
      simp only [List.length_cons] at hl
      omega
    obtain ⟨ws, xs, e, rfl, rfl, hd, hend⟩ := hn.ending hvs (.bind _ _) h₂
    refine ⟨_, ?_, .bind x hd hend⟩
    rw [hts, hx]
    simp
  · rename_i ht
    rw [accepts_take_bind, ht, accepts_peek_bind] at h
    have hts := eq_word_cons ht
    rw [hts]
    split at h
    · rename_i hnext
      exact derives_retNone (.inl hnext) h
    · rename_i hnext
      exact derives_retNone (.inr (.inl hnext)) h
    · rename_i hnext
      exact derives_retNone (.inr (.inr hnext)) h
    · have htail : ts.tail.length < n := by
        rw [List.length_tail]
        omega
      obtain ⟨us, vs, e, rfl, hus, hd, hend⟩ := hn.ending htail (.ret _ <| some ·) h
      refine ⟨_, ?_, .ret hd hend⟩
      rw [hus]
      simp
  · obtain ⟨us, vs, e, rfl, rfl, hd, hend⟩ := hn.ending hl .expr h
    exact ⟨us ++ vs, by rw [List.append_assoc], .expr hd hend⟩

/-- A statement among others has been read if there was no fault, and it is never empty. -/
theorem SoundBelow.attempt {s? : Option Stmt} (hn : SoundBelow n) (hl : ts.length < n)
    (h : Accepts (Read.attempt (Reading.statement (expression .lowest))) ts s? rest) :
    ∃ s us, s? = some s ∧ ts = us ++ rest ∧ rest.length < ts.length ∧
      Derives us (.stmt (rest.headD .eof) s) := by
  have hm : Makes (Stmt.Built fun _ => True) ts (Reading.statement (expression .lowest)) :=
    makes_statement (fun _ _ => trivial) fun _ _ => makes_expression _ fun _ _ => trivial
  obtain ⟨s, rfl, hs⟩ := hm.exists_of_accepts_attempt h
  obtain ⟨us, rfl, hd⟩ := hn.statement hl hs
  refine ⟨s, us, rfl, rfl, ?_, hd⟩
  obtain ⟨t, vs, rfl, -⟩ := hd.opens
  rw [List.length_append]
  exact Nat.lt_add_of_pos_left (Nat.succ_pos _)

theorem SoundBelow.blockRest {ss : List Stmt} (hn : SoundBelow n) (hl : ts.length < n)
    (h : Accepts (Reading.blockRest (Reading.statement (expression .lowest))) ts ss rest) :
    ∃ us, ts = us ++ .sym .closeBrace :: rest ∧ Derives us (.stmts (.sym .closeBrace) ss) := by
  induction hlen : ts.length using Nat.strongRecOn generalizing ts ss with
  | ind k ih =>
    subst hlen
    rw [blockRest_statement, blockStep, accepts_peek_bind] at h
    split at h
    · rename_i hc
      rw [accepts_take_bind] at h
      obtain ⟨rfl, rfl⟩ := accepts_pure.1 h
      exact ⟨[], eq_sym_cons hc, .nil⟩
    · exact absurd h not_accepts_refuse
    · obtain ⟨s?, us, hs, h₁⟩ := accepts_bind.1 h
      obtain ⟨ss', _, hss, hpure⟩ := accepts_bind.1 h₁
      obtain ⟨rfl, rfl⟩ := accepts_pure.1 hpure
      obtain ⟨s, vs, rfl, hts, hlt, hd⟩ := hn.attempt hl hs
      obtain ⟨ws, rfl, hds⟩ := ih us.length hlt (Nat.lt_trans hlt hl) hss rfl
      refine ⟨vs ++ ws, by rw [hts, List.append_assoc], .cons ?_ hds⟩
      have hhead : (ws ++ .sym .closeBrace :: rest).headD .eof = ws.headD (.sym .closeBrace) := by
        cases ws <;> rfl
      rwa [hhead] at hd

theorem SoundBelow.block {b : Block} (hn : SoundBelow n) (hl : ts.length < n)
    (h : Accepts (Reading.block (expression .lowest)) ts b rest) :
    ∃ us, ts = us ++ rest ∧ Derives us (.block b) := by
  obtain ⟨us, rfl, h₁⟩ := accepts_expect_bind.1 h
  obtain ⟨ss, vs, hss, hpure⟩ := accepts_bind.1 h₁
  obtain ⟨rfl, rfl⟩ := accepts_pure.1 hpure
  obtain ⟨ws, rfl, hd⟩ := hn.blockRest (Nat.lt_of_succ_lt hl) hss
  refine ⟨_, ?_, .block hd⟩
  simp

/-! ## Expressions -/

/-- A conditional with what comes behind its first block. -/
theorem SoundBelow.alternative {us vs : List Token} {c : Expr} {b : Block} {a? : Option Block}
    (hn : SoundBelow n) (hl : ts.length < n) (hc : Derives us (.expr .equality c))
    (hb : Derives vs (.block b))
    (h : Accepts (Reading.alternative (expression .lowest)) ts a? rest) :
    ∃ ws, .word .ifWord :: .sym .openParen :: us ++ .sym .closeParen :: vs ++ ts = ws ++ rest ∧
      Derives ws (.expr .suffix (.cond (.word .ifWord) c b a?)) := by
  rw [Reading.alternative, accepts_peek_bind] at h
  split at h
  · rename_i helse
    have hts := eq_word_cons helse
    obtain ⟨a, xs, ha, hpure⟩ := accepts_bind.1 (accepts_take_bind.1 h)
    obtain ⟨rfl, rfl⟩ := accepts_pure.1 hpure
    have htail : ts.tail.length < n := by
      rw [List.length_tail]
      omega
    obtain ⟨ys, hys, hd⟩ := hn.block htail ha
    refine ⟨_, ?_, .condElse hc hb hd⟩
    rw [hts, hys]
    simp
  · obtain ⟨rfl, rfl⟩ := accepts_pure.1 h
    exact ⟨_, rfl, .cond hc hb⟩

/-- `e` is derived on the level `l` from the tokens before `rest`, and nothing that follows binds
tighter than that. -/
def DerivedUpTo (ts rest : List Token) (l : Level) (e : Expr) : Prop :=
  ∃ us, ts = us ++ rest ∧ Derives us (.expr l e) ∧ Follow.above? l (rest.headD .eof) = none

theorem DerivedUpTo.suffix {e : Expr} (us : List Token) (hts : ts = us ++ rest)
    (h : Derives us (.expr .suffix e)) : DerivedUpTo ts rest .suffix e :=
  ⟨us, hts, h, Follow.above?_suffix _⟩

/-- An operator in front takes what the reader of its level takes. -/
theorem SoundBelow.unary {e : Expr} (op : UnaryOp) (hn : SoundBelow n) (hl : ts.length < n)
    (h : Accepts (do
        let e ← expression .unary
        pure (Expr.unary (.sym op.symbol) op e)) ts e rest) :
    DerivedUpTo (.sym op.symbol :: ts) rest .unary e := by
  obtain ⟨e, us, he, hpure⟩ := accepts_bind.1 h
  obtain ⟨rfl, rfl⟩ := accepts_pure.1 hpure
  obtain ⟨vs, l, rfl, hm, hd, hstop⟩ := hn .unary ts e rest nofun hl he
  refine ⟨.sym op.symbol :: vs, rfl, .unary op (hd.loosen ?_), hstop⟩
  rcases hm with hm | ⟨-, rfl⟩
  · exact Nat.le_of_lt hm
  · exact Nat.le_refl _

theorem derivedUpTo_number {digits : String} {e : Expr}
    (h : Accepts (number (.int digits) digits) ts e rest) :
    DerivedUpTo (.int digits :: ts) rest .suffix e := by
  rw [number] at h
  cases hd : Integer.ofDigits? digits with
  | none =>
    rw [hd] at h
    exact absurd h not_accepts_refuse
  | some v =>
    rw [hd] at h
    obtain ⟨rfl, rfl⟩ := accepts_pure.1 h
    exact .suffix [_] rfl (.int (Integer.ofDigits?_eq_some.1 hd))

/-- What comes behind `if`. -/
theorem SoundBelow.condition {e : Expr} (hn : SoundBelow n) (hl : ts.length < n)
    (h : Accepts (do
        let _ ← expect (.sym .openParen)
        let c ← expression .lowest
        let _ ← expect (.sym .closeParen)
        let b ← Reading.block (expression .lowest)
        let a? ← Reading.alternative (expression .lowest)
        pure (Expr.cond (.word .ifWord) c b a?)) ts e rest) :
    DerivedUpTo (.word .ifWord :: ts) rest .suffix e := by
  obtain ⟨us, rfl, h₁⟩ := accepts_expect_bind.1 h
  obtain ⟨c, vs, hc, h₂⟩ := accepts_bind.1 h₁
  have hus : us.length < n := Nat.lt_of_succ_lt hl
  obtain ⟨cs, rfl, hcd, -⟩ := hn.lowest hus hc
  obtain ⟨ws, rfl, h₃⟩ := accepts_expect_bind.1 h₂
  obtain ⟨b, xs, hb, h₄⟩ := accepts_bind.1 h₃
  have hws : ws.length < n := by
    simp only [List.length_append, List.length_cons] at hus
    omega
  obtain ⟨bs, rfl, hbd⟩ := hn.block hws hb
  obtain ⟨a?, ys, ha, hpure⟩ := accepts_bind.1 h₄
  obtain ⟨rfl, rfl⟩ := accepts_pure.1 hpure
  have hxs : xs.length < n := by
    rw [List.length_append] at hws
    omega
  obtain ⟨as, has, had⟩ := hn.alternative hxs hcd hbd ha
  refine .suffix _ ?_ had
  rw [← has]
  simp

/-- What comes behind `fn`. -/
theorem SoundBelow.function {e : Expr} (hn : SoundBelow n) (hl : ts.length < n)
    (h : Accepts (do
        let _ ← expect (.sym .openParen)
        let ps ← Reading.items ident .closeParen
        let b ← Reading.block (expression .lowest)
        pure (Expr.fn (.word .fnWord) ps b)) ts e rest) :
    DerivedUpTo (.word .fnWord :: ts) rest .suffix e := by
  obtain ⟨us, rfl, h₁⟩ := accepts_expect_bind.1 h
  obtain ⟨ps, vs, hps, h₂⟩ := accepts_bind.1 h₁
  obtain ⟨names, rfl, rfl⟩ := exists_of_accepts_params hps
  obtain ⟨b, xs, hb, hpure⟩ := accepts_bind.1 h₂
  obtain ⟨rfl, rfl⟩ := accepts_pure.1 hpure
  have hvs : vs.length < n := by
    simp only [List.length_append, List.length_cons] at hl
    omega
  obtain ⟨bs, rfl, hbd⟩ := hn.block hvs hb
  exact .suffix _ (by simp) (.fn names hbd)

/-- An operand is closed in itself, unless it has an operator in front. -/
theorem SoundBelow.operand {t : Token} {e : Expr} (hn : SoundBelow n) (hl : ts.length < n)
    (h : Accepts (Reading.operand expression) (t :: ts) e rest) :
    DerivedUpTo (t :: ts) rest .unary e ∨ DerivedUpTo (t :: ts) rest .suffix e := by
  rw [Reading.operand, accepts_take_bind] at h
  simp only [List.headD_cons, List.tail_cons] at h
  split at h
  · obtain ⟨rfl, rfl⟩ := accepts_pure.1 h
    exact .inr (.suffix [_] rfl (.ident _))
  · exact .inr (derivedUpTo_number h)
  · obtain ⟨rfl, rfl⟩ := accepts_pure.1 h
    exact .inr (.suffix [_] rfl (.str _))
  · obtain ⟨rfl, rfl⟩ := accepts_pure.1 h
    exact .inr (.suffix [_] rfl .true)
  · obtain ⟨rfl, rfl⟩ := accepts_pure.1 h
    exact .inr (.suffix [_] rfl .false)
  · exact .inl (hn.unary .minus hl h)
  · exact .inl (hn.unary .bang hl h)
  · obtain ⟨e', us, he, h₁⟩ := accepts_bind.1 h
    obtain ⟨vs, rfl, hd, -⟩ := hn.lowest hl he
    obtain ⟨ws, rfl, hpure⟩ := accepts_expect_bind.1 h₁
    obtain ⟨rfl, rfl⟩ := accepts_pure.1 hpure
    exact .inr (.suffix _ (by simp) hd.group)
  · exact .inr (hn.condition hl h)
  · exact .inr (hn.function hl h)
  · obtain ⟨es, us, hes, hpure⟩ := accepts_bind.1 h
    obtain ⟨rfl, rfl⟩ := accepts_pure.1 hpure
    obtain ⟨args, rfl, rfl, hargs⟩ := hn.items hl hes
    exact .inr (.suffix _ (by simp) (.array hargs))
  · obtain ⟨ps, us, hps, hpure⟩ := accepts_bind.1 h
    obtain ⟨rfl, rfl⟩ := accepts_pure.1 hpure
    obtain ⟨pairs, last, rfl, rfl, hkeys, hvalues, hlast⟩ := hn.pairs hl hps
    exact .inr (.suffix _ (by simp) (.hash hkeys hvalues hlast))
  · exact absurd h not_accepts_refuse

/-- What follows an expression of its level makes a larger one of that level. -/
theorem SoundBelow.extend {k : Follow} {left larger : Expr} {vs : List Token}
    (hn : SoundBelow n) (hl : ts.length < n) (hleft : Derives vs (.expr k.level left))
    (h : Accepts (Reading.extend expression left k) (.sym k.symbol :: ts) larger rest) :
    ∃ us, ts = us ++ rest ∧ Derives (vs ++ .sym k.symbol :: us) (.expr k.level larger) ∧
      Follow.above? k.level (rest.headD .eof) = none := by
  cases k with
  | binary op =>
    obtain ⟨r, us, hr, hpure⟩ := accepts_bind.1 (accepts_take_bind.1 h)
    obtain ⟨rfl, rfl⟩ := accepts_pure.1 hpure
    have hop : op.level ≠ .suffix := by cases op <;> exact nofun
    obtain ⟨ws, l, rfl, hm, hd, hstop⟩ := hn op.level _ r rest hop hl hr
    refine ⟨ws, rfl, .binary op hleft (hd.loosen ?_), hstop⟩
    rcases hm with hm | ⟨hm, -⟩
    · revert hm
      cases op <;> cases l <;> decide
    · cases op <;> cases hm
  | call =>
    obtain ⟨es, us, hes, hpure⟩ := accepts_bind.1 (accepts_take_bind.1 h)
    obtain ⟨rfl, rfl⟩ := accepts_pure.1 hpure
    obtain ⟨args, rfl, hts, hargs⟩ := hn.items hl hes
    refine ⟨commas (args.map Prod.fst) ++ [.sym .closeParen], ?_, ?_, Follow.above?_suffix _⟩
    · rw [List.append_assoc]
      exact hts
    · have hd := hleft.call hargs
      rw [List.append_assoc] at hd
      exact hd
  | index =>
    obtain ⟨i, us, hi, h₁⟩ := accepts_bind.1 (accepts_take_bind.1 h)
    obtain ⟨ws, hws, hd, -⟩ := hn.lowest hl hi
    obtain ⟨xs, rfl, hpure⟩ := accepts_expect_bind.1 h₁
    obtain ⟨rfl, rfl⟩ := accepts_pure.1 hpure
    refine ⟨ws ++ [.sym .closeBracket], ?_, ?_, Follow.above?_suffix _⟩
    · rw [List.append_assoc]
      exact hws
    · have hd' := hleft.index hd
      rw [List.append_assoc] at hd'
      exact hd'

/-- The loop keeps up that what it has read is derived on some level, and that the next token does
not bind tighter than that. -/
theorem SoundBelow.extendAbove {m c : Level} {left e : Expr} {vs : List Token} (hn : SoundBelow n)
    (hl : ts.length ≤ n) (hm : Admits m c) (hleft : Derives vs (.expr c left))
    (hstop : Follow.above? c (ts.headD .eof) = none)
    (h : Accepts (Reading.extendAbove expression m left) ts e rest) :
    ∃ us l, ts = us ++ rest ∧ Admits m l ∧ Derives (vs ++ us) (.expr l e) ∧
      Follow.above? m (rest.headD .eof) = none := by
  induction hlen : ts.length using Nat.strongRecOn generalizing ts c left vs with
  | ind len ih =>
    subst hlen
    rw [extendAbove_expression, extendStep, accepts_peek_bind] at h
    split at h
    · rename_i k hk
      obtain ⟨hsym, hlt⟩ := Follow.eq_symbol_of_above? hk
      obtain ⟨ts, rfl⟩ : ∃ us, ts = .sym k.symbol :: us := ⟨_, eq_sym_cons hsym⟩
      obtain ⟨larger, us, hlarger, hmore⟩ := accepts_bind.1 h
      have hle : k.level.rank ≤ c.rank := by
        rw [List.headD_cons, Follow.above?_symbol] at hstop
        split at hstop
        · cases hstop
        · rename_i hnot
          exact Nat.le_of_not_lt hnot
      obtain ⟨ws, rfl, hd, hstop'⟩ := hn.extend hl (hleft.loosen hle) hlarger
      have hus : us.length < (.sym k.symbol :: (ws ++ us)).length := by
        simp only [List.length_cons, List.length_append]
        omega
      obtain ⟨xs, l, rfl, hml, hxd, hend⟩ := ih us.length hus (Nat.le_trans (Nat.le_of_lt hus) hl)
        (.inl hlt) hd hstop' hmore rfl
      refine ⟨.sym k.symbol :: ws ++ xs, l, by simp, hml, ?_, hend⟩
      rw [← List.append_assoc]
      exact hxd
    · rename_i hk
      obtain ⟨rfl, rfl⟩ := accepts_pure.1 h
      refine ⟨[], c, rfl, hm, ?_, hk⟩
      rwa [List.append_nil]

theorem not_accepts_operand_nil {e : Expr} : ¬Accepts (Reading.operand expression) [] e rest :=
  nofun

theorem soundBelow (n : Nat) : SoundBelow n := by
  induction n with
  | zero =>
    intro m ts e rest _ hl
    exact absurd hl (Nat.not_lt_zero _)
  | succ n ih =>
    intro m ts e rest hm hl h
    rw [expression_eq, expressionStep] at h
    obtain ⟨left, us, hleft, hmore⟩ := accepts_bind.1 h
    cases ts with
    | nil => exact absurd hleft not_accepts_operand_nil
    | cons t ts =>
      have hts : ts.length < n := Nat.lt_of_succ_lt_succ hl
      obtain ⟨c, hc, vs, hvs, hd, hstop⟩ : ∃ c, Admits m c ∧ DerivedUpTo (t :: ts) us c left := by
        rcases ih.operand hts hleft with h | h
        · refine ⟨.unary, ?_, h⟩
          revert hm
          unfold Admits
          cases m <;> decide
        · refine ⟨.suffix, .inl ?_, h⟩
          revert hm
          cases m <;> decide
      have hus : us.length ≤ n := by
        have hlen := congrArg List.length hvs
        rw [List.length_cons, List.length_append] at hlen
        omega
      obtain ⟨ws, l, rfl, hml, hwd, hend⟩ := ih.extendAbove hus hc hd hstop hmore
      refine ⟨vs ++ ws, l, ?_, hml, hwd, hend⟩
      rw [hvs, List.append_assoc]

/-- Statements that are read up to the end of the text are derived from all of it. -/
theorem derives_of_accepts_statements {ss : List Stmt} (heof : .eof ∉ ts)
    (h : Accepts statements ts ss rest) : rest = [] ∧ Derives ts (.stmts .eof ss) := by
  induction hlen : ts.length using Nat.strongRecOn generalizing ts ss with
  | ind len ih =>
    subst hlen
    rw [statements_eq, statementsStep, accepts_peek_bind] at h
    split at h
    · rename_i hc
      obtain ⟨rfl, rfl⟩ := accepts_pure.1 h
      cases rest with
      | nil => exact ⟨rfl, .nil⟩
      | cons t ts => exact absurd (hc ▸ List.mem_cons_self) heof
    · obtain ⟨s?, us, hs, h₁⟩ := accepts_bind.1 h
      obtain ⟨ss', _, hss, hpure⟩ := accepts_bind.1 h₁
      obtain ⟨rfl, rfl⟩ := accepts_pure.1 hpure
      obtain ⟨s, vs, rfl, rfl, hlt, hd⟩ := (soundBelow _).attempt (Nat.lt_succ_self _) hs
      have hus : .eof ∉ us := fun hmem => heof (List.mem_append_right vs hmem)
      obtain ⟨rfl, hds⟩ := ih us.length hlt hus hss rfl
      exact ⟨rfl, .cons hd hds⟩

end Grammar
end Monkey
