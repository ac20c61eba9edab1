import Monkey.Proofs.Grammar.Basic
import Monkey.Proofs.Reading.Accepts

/-! # What the grammar derives is read

A derivation is followed step by step. A reader of expressions that meets the tokens of an
expression `e` does what it does behind `e`: that is `Reads` for expressions, and it is what lets
left-recursive productions be read by a loop. The other phrases are read whole.

The result for programs is `Program.DerivedFrom.accepts`.
-/

namespace Monkey

open Reading Read

namespace Follow

/-- A token continues no expression exactly if it does so on no level. -/
theorem above?_lowest_eq_none_iff {t : Token} :
    above? .lowest t = none ↔ ¬Grammar.Continues t := by
  constructor
  · rintro h ⟨k, rfl⟩
    have hlt : Level.lowest < k.level := by
      cases k with
      | binary op => cases op <;> decide
      | _ => decide
    rw [above?_symbol_of_lt hlt] at h
    cases h
  · intro h
    cases hk : above? .lowest t with
    | none => rfl
    | some k => exact absurd ⟨k, (eq_symbol_of_above? hk).1⟩ h

end Follow

namespace Grammar

variable {ts us rest : List Token}

/-! ## Going on behind an expression -/

/-- An expression of level `l` has ended before the token. -/
def StopsAt (l : Level) (t : Token) : Prop :=
  t ≠ .word .elseWord ∧ Follow.above? l t = none

theorem StopsAt.of_le {k l : Level} {t : Token} (h : StopsAt k t) (hkl : k.rank ≤ l.rank) :
    StopsAt l t :=
  ⟨h.1, Follow.above?_eq_none_of_le hkl h.2⟩

theorem stopsAt_symbol {l : Level} {k : Follow} (h : ¬l < k.level) : StopsAt l (.sym k.symbol) :=
  ⟨nofun, by rw [Follow.above?_symbol, if_neg h]⟩

theorem accepts_extendAbove {m : Level} {e : Expr} (h : Follow.above? m (ts.headD .eof) = none) :
    Accepts (extendAbove expression m e) ts e ts := by
  rw [extendAbove_expression, extendStep, accepts_peek_bind, h]
  rfl

/-- The loop goes around once where a continuation binds tightly enough. -/
theorem extendAbove_of_accepts {m : Level} {k : Follow} {left larger : Expr} (hk : m < k.level)
    (h : Accepts (extend expression left k) (.sym k.symbol :: ts) larger rest) :
    extendAbove expression m left (.sym k.symbol :: ts) = extendAbove expression m larger rest := by
  rw [extendAbove_expression, extendStep, peek_bind, List.headD_cons,
    Follow.above?_symbol_of_lt hk]
  exact bind_of_accepts h

theorem expression_of_accepts {m : Level} {e : Expr}
    (h : Accepts (operand expression) ts e rest) :
    expression m ts = extendAbove expression m e rest := by
  rw [expression_eq, expressionStep, bind_of_accepts h]

/-- A reader that goes on above `m` reads expressions of the level `l`. -/
def Admits (m l : Level) : Prop := m < l ∨ m = .unary ∧ l = .unary

theorem Admits.next {m l : Level} (h : Admits m l) : Admits m l.next := by
  rcases h with h | ⟨rfl, rfl⟩
  · refine .inl ?_
    revert h
    cases m <;> cases l <;> decide
  · exact .inl (by decide)

/-- Nothing that can follow an expression is on the level of the operators in front of one. -/
theorem Admits.lt_level {m : Level} {k : Follow} (h : Admits m k.level) : m < k.level := by
  rcases h with h | ⟨-, h⟩
  · exact h
  · cases k with
    | binary op => cases op <;> cases h
    | _ => cases h

/-- How a phrase is read from the tokens `ts` with something behind them. -/
def Reads (ts : List Token) : Phrase → Prop
  | .expr l e => ∀ m rest, Admits m l → StopsAt l (rest.headD .eof) →
      expression m (ts ++ rest) = extendAbove expression m e rest
  | .block b => ∀ rest, Accepts (block (expression .lowest)) (ts ++ rest) b rest
  | .stmt next s => ∀ rest, rest.headD .eof = next → next ≠ .sym .semicolon →
      next ≠ .word .elseWord → Accepts (statement (expression .lowest)) (ts ++ rest) s rest
  | .stmts next ss => ∀ rest, rest.headD .eof = next →
      (next = .sym .closeBrace →
        Accepts (blockRest (statement (expression .lowest))) (ts ++ rest) ss rest.tail) ∧
      (next = .eof → Accepts statements (ts ++ rest) ss rest)

/-- An expression that is followed by nothing that belongs to it is read whole. -/
theorem Reads.accepts {l m : Level} {e : Expr} (h : Reads ts (.expr l e)) (hm : Admits m l)
    (hr : StopsAt m (rest.headD .eof)) (hl : StopsAt l (rest.headD .eof)) :
    Accepts (expression m) (ts ++ rest) e rest := by
  rw [Accepts, h m rest hm hl]
  exact accepts_extendAbove hr.2

theorem Reads.accepts_lowest {e : Expr} (h : Reads ts (.expr .equality e))
    (hr : StopsAt .lowest (rest.headD .eof)) : Accepts (expression .lowest) (ts ++ rest) e rest :=
  h.accepts (.inl (by decide)) hr (hr.of_le (by decide))

/-! ## Lists -/

theorem commas_cons (part : List Token) (parts : List (List Token)) :
    commas (part :: parts) = part ++ parts.flatMap (.sym .comma :: ·) := by
  induction parts generalizing part with
  | nil => simp [commas]
  | cons part' parts ih =>
    have h : commas (part :: part' :: parts) = part ++ .sym .comma :: commas (part' :: parts) := by
      simp [commas, List.intercalate_cons_cons]
    rw [h, ih, List.flatMap_cons, List.cons_append]

section Items

variable {α : Type} {p : Read α} {close : Symbol}

theorem accepts_moreItems (hp : ∀ us, Alike 0 us p p) (hclose : close ≠ .comma)
    {parts : List (List Token × α)}
    (h : ∀ x ∈ parts, ∀ s us, s = .comma ∨ s = close →
      Accepts p (x.1 ++ .sym s :: us) x.2 (.sym s :: us)) :
    Accepts (moreItems p) ((parts.map Prod.fst).flatMap (.sym .comma :: ·) ++ .sym close :: rest)
      (parts.map Prod.snd) (.sym close :: rest) := by
  induction parts with
  | nil =>
    rw [moreItems_eq hp, moreItemsStep, accepts_peek_bind]
    simp [hclose, accepts_pure]
  | cons x parts ih =>
    obtain ⟨hx, hparts⟩ := List.forall_mem_cons.1 h
    rw [moreItems_eq hp, moreItemsStep, accepts_peek_bind]
    simp only [List.map_cons, List.flatMap_cons, List.cons_append, List.append_assoc,
      List.headD_cons, if_true, accepts_take_bind, List.tail_cons]
    refine accepts_bind.2 ⟨x.2, _, ?_, accepts_bind.2 ⟨_, _, ih hparts, accepts_pure.2 ⟨rfl, rfl⟩⟩⟩
    cases parts with
    | nil => exact hx close rest (.inr rfl)
    | cons y parts => exact hx .comma _ (.inl rfl)

/-- A list whose items are read, and do not look like its end, is read. -/
theorem accepts_items (hp : ∀ us, Alike 0 us p p) (hclose : close ≠ .comma)
    {parts : List (List Token × α)} (hopen : ∀ x ∈ parts, ∃ t us, x.1 = t :: us ∧ t ≠ .sym close)
    (h : ∀ x ∈ parts, ∀ s us, s = .comma ∨ s = close →
      Accepts p (x.1 ++ .sym s :: us) x.2 (.sym s :: us)) :
    Accepts (items p close) (commas (parts.map Prod.fst) ++ .sym close :: rest)
      (parts.map Prod.snd) rest := by
  cases parts with
  | nil =>
    change Accepts (items p close) (.sym close :: rest) [] rest
    rw [items, accepts_peek_bind, List.headD_cons, if_pos rfl]
    rfl
  | cons x parts =>
    obtain ⟨⟨t, us, hx, ht⟩, -⟩ := List.forall_mem_cons.1 hopen
    obtain ⟨hxa, hparts⟩ := List.forall_mem_cons.1 h
    rw [items, accepts_peek_bind, List.map_cons, commas_cons, List.append_assoc]
    have hh : (x.1 ++ ((parts.map Prod.fst).flatMap (.sym .comma :: ·) ++
        .sym close :: rest)).headD .eof ≠ .sym close := by
      rw [hx]
      exact ht
    rw [if_neg hh]
    refine accepts_bind.2 ⟨x.2, _, ?_, accepts_bind.2 ⟨_, _, accepts_moreItems hp hclose hparts,
      accepts_bind.2 ⟨_, _, accepts_expect_cons _ _, accepts_pure.2 ⟨rfl, rfl⟩⟩⟩⟩
    cases parts with
    | nil => exact hxa close rest (.inr rfl)
    | cons y parts => exact hxa .comma _ (.inl rfl)

/-- Names with commas between them are read as parameters. -/
theorem accepts_params (names : List String) :
    Accepts (items ident .closeParen)
      (commas (names.map fun x => [.ident x]) ++ .sym .closeParen :: rest)
      (names.map fun x => ⟨.ident x, x⟩) rest := by
  let part : String → List Token × Ident := fun x => ([.ident x], ⟨.ident x, x⟩)
  have hopen : ∀ x ∈ names.map part, ∃ t us, x.1 = t :: us ∧ t ≠ .sym .closeParen := by
    rw [List.forall_mem_map]
    exact fun x _ => ⟨.ident x, [], rfl, nofun⟩
  have h : ∀ x ∈ names.map part, ∀ s us, s = .comma ∨ s = .closeParen →
      Accepts ident (x.1 ++ .sym s :: us) x.2 (.sym s :: us) := by
    rw [List.forall_mem_map]
    exact fun _ _ _ _ _ => rfl
  have hitems : Accepts (items ident .closeParen)
      (commas ((names.map part).map Prod.fst) ++ .sym .closeParen :: rest)
      ((names.map part).map Prod.snd) rest :=
    accepts_items (fun _ => alike_ident) (by decide) hopen h
  rw [List.map_map, List.map_map] at hitems
  exact hitems

end Items

theorem stopsAt_lowest_sym {s : Symbol} (h : Follow.ofSymbol? s = none) :
    StopsAt .lowest (.sym s) :=
  ⟨nofun, by rw [Follow.above?, h]; rfl⟩

theorem accepts_pairs_nil :
    Accepts (Reading.pairs (expression .lowest)) (.sym .closeBrace :: rest) [] rest := by
  rw [pairs_expression, pairsStep, accepts_peek_bind, List.headD_cons, if_pos rfl]
  rfl

theorem accepts_pairEnd_brace :
    Accepts pairEnd (.sym .closeBrace :: rest) () (.sym .closeBrace :: rest) := by
  rw [pairEnd, accepts_peek_bind, List.headD_cons, if_pos rfl]
  rfl

theorem accepts_pairEnd_comma : Accepts pairEnd (.sym .comma :: rest) () rest := by
  rw [pairEnd, accepts_peek_bind, List.headD_cons, if_neg nofun]
  exact accepts_bind.2 ⟨_, _, accepts_expect_cons _ _, accepts_pure.2 ⟨rfl, rfl⟩⟩

/-- Pairs are read up to the closing brace, with a comma behind the last of them or without. -/
theorem accepts_pairs {pairs : List (Part × Part)} {last : List Token}
    (hkeys : ∀ p ∈ pairs, Reads p.1.1 (.expr .equality p.1.2))
    (hvalues : ∀ p ∈ pairs, Reads p.2.1 (.expr .equality p.2.2))
    (hopen : ∀ p ∈ pairs, ∃ t us, p.1.1 = t :: us ∧ opensExpr t = true)
    (hlast : Trailing pairs last) :
    Accepts (Reading.pairs (expression .lowest))
      (commas (pairs.map pairTokens) ++ (last ++ .sym .closeBrace :: rest))
      (pairs.map fun p => (p.1.2, p.2.2)) rest := by
  induction pairs with
  | nil =>
    cases hlast with
    | none => exact accepts_pairs_nil
    | comma h => exact absurd rfl h
  | cons p pairs ih =>
    obtain ⟨hk, hkeys⟩ := List.forall_mem_cons.1 hkeys
    obtain ⟨hv, hvalues⟩ := List.forall_mem_cons.1 hvalues
    obtain ⟨⟨t, us, hp, ht⟩, hopen⟩ := List.forall_mem_cons.1 hopen
    -- Behind the first pair there is the brace, or a comma and what the loop reads next.
    obtain ⟨tail, next, hsplit, htail, hnext, hstop⟩ : ∃ tail next,
        commas ((p :: pairs).map pairTokens) ++ (last ++ .sym .closeBrace :: rest) =
          p.1.1 ++ .sym .colon :: (p.2.1 ++ tail) ∧
        Accepts pairEnd tail () next ∧
        Accepts (Reading.pairs (expression .lowest)) next (pairs.map fun p => (p.1.2, p.2.2)) rest ∧
        StopsAt .lowest (tail.headD .eof) := by
      cases pairs with
      | nil =>
        cases hlast with
        | none =>
          refine ⟨_, _, ?_, accepts_pairEnd_brace, accepts_pairs_nil, stopsAt_lowest_sym rfl⟩
          simp [commas, pairTokens]
        | comma _ =>
          refine ⟨_, _, ?_, accepts_pairEnd_comma, accepts_pairs_nil, stopsAt_lowest_sym rfl⟩
          simp [commas, pairTokens]
      | cons q pairs =>
        have hlast' : Trailing (q :: pairs) last := hlast.of_ne_nil nofun
        refine ⟨_, _, ?_, accepts_pairEnd_comma, ih hkeys hvalues hopen hlast',
          stopsAt_lowest_sym rfl⟩
        simp [commas, pairTokens, List.intercalate_cons_cons]
    have hne : (p.1.1 ++ .sym .colon :: (p.2.1 ++ tail)).headD .eof ≠ .sym .closeBrace := by
      rw [hp]
      rintro (rfl : t = _)
      cases ht
    rw [hsplit, pairs_expression, pairsStep, accepts_peek_bind, if_neg hne]
    exact accepts_bind.2 ⟨_, _, hk.accepts_lowest (stopsAt_lowest_sym rfl),
      accepts_bind.2 ⟨_, _, accepts_expect_cons _ _,
      accepts_bind.2 ⟨_, _, hv.accepts_lowest hstop,
      accepts_bind.2 ⟨_, _, htail, accepts_bind.2 ⟨_, _, hnext, accepts_pure.2 ⟨rfl, rfl⟩⟩⟩⟩⟩⟩

/-! ## Expressions -/

namespace Reads

theorem tighter {l : Level} {e : Expr} (h : Reads ts (.expr l.next e)) : Reads ts (.expr l e) := by
  intro m rest hm hr
  have hl : l.rank ≤ l.next.rank := by cases l <;> decide
  exact h m rest hm.next (hr.of_le hl)

/-- Behind an expression of its level, a continuation makes a larger expression. -/
theorem extend {m : Level} {k : Follow} {left larger : Expr} (h : Reads ts (.expr k.level left))
    (hm : Admits m k.level)
    (hx : Accepts (Reading.extend expression left k) (.sym k.symbol :: us) larger rest) :
    expression m (ts ++ .sym k.symbol :: us) = extendAbove expression m larger rest := by
  have hstop : StopsAt k.level (.sym k.symbol) := stopsAt_symbol (Nat.lt_irrefl _)
  calc
    _ = extendAbove expression m left (.sym k.symbol :: us) := h m _ hm hstop
    _ = _ := extendAbove_of_accepts hm.lt_level hx

theorem binary {op : BinaryOp} {l r : Expr} (hl : Reads ts (.expr op.level l))
    (hr : Reads us (.expr op.level.next r)) :
    Reads (ts ++ .sym op.symbol :: us)
      (.expr op.level (.binary (.sym op.symbol) op l r)) := by
  intro m rest hm hstop
  have hnext : op.level < op.level.next := by cases op <;> decide
  have hright : Accepts (expression op.level) (us ++ rest) r rest :=
    hr.accepts (.inl hnext) hstop (hstop.of_le (Nat.le_of_lt hnext))
  rw [List.append_assoc, List.cons_append]
  exact extend (k := .binary op) hl hm
    (accepts_take_bind.2 (accepts_bind.2 ⟨r, rest, hright, accepts_pure.2 ⟨rfl, rfl⟩⟩))

/-- The items of a list of expressions are read up to the comma or the end of the list. -/
theorem items {args : List Part} {close : Symbol}
    (hclose : close = .closeParen ∨ close = .closeBracket)
    (hopen : ∀ p ∈ args, ∃ t us, p.1 = t :: us ∧ opensExpr t = true)
    (h : ∀ p ∈ args, Reads p.1 (.expr .equality p.2)) :
    Accepts (Reading.items (expression .lowest) close)
      (commas (args.map Prod.fst) ++ .sym close :: rest) (args.map Prod.snd) rest := by
  refine accepts_items (alike_expression_zero .lowest) ?_ ?_ ?_
  · rcases hclose with rfl | rfl <;> decide
  · intro p hp
    obtain ⟨t, us, hts, ht⟩ := hopen p hp
    refine ⟨t, us, hts, ?_⟩
    rintro rfl
    rcases hclose with rfl | rfl <;> cases ht
  · intro p hp s us hs
    refine (h p hp).accepts_lowest (stopsAt_lowest_sym ?_)
    rcases hs with rfl | rfl
    · rfl
    · rcases hclose with rfl | rfl <;> rfl

theorem call {f : Expr} {args : List Part} (hf : Reads ts (.expr .suffix f))
    (hopen : ∀ p ∈ args, ∃ t us, p.1 = t :: us ∧ opensExpr t = true)
    (hargs : ∀ p ∈ args, Reads p.1 (.expr .equality p.2)) :
    Reads (ts ++ .sym .openParen :: commas (args.map Prod.fst) ++ [.sym .closeParen])
      (.expr .suffix (.call (.sym .openParen) f (args.map Prod.snd))) := by
  intro m rest hm hstop
  have hitems : Accepts (Reading.items (expression .lowest) .closeParen)
      (commas (args.map Prod.fst) ++ .sym .closeParen :: rest) (args.map Prod.snd) rest :=
    items (.inl rfl) hopen hargs
  simp only [List.append_assoc, List.cons_append, List.nil_append]
  exact extend (k := .call) hf hm
    (accepts_take_bind.2 (accepts_bind.2 ⟨_, rest, hitems, accepts_pure.2 ⟨rfl, rfl⟩⟩))

theorem index {l i : Expr} (hl : Reads ts (.expr .suffix l)) (hi : Reads us (.expr .equality i)) :
    Reads (ts ++ .sym .openBracket :: us ++ [.sym .closeBracket])
      (.expr .suffix (.index (.sym .openBracket) l i)) := by
  intro m rest hm hstop
  have hindex : Accepts (expression .lowest) (us ++ .sym .closeBracket :: rest) i
      (.sym .closeBracket :: rest) :=
    hi.accepts_lowest (stopsAt_lowest_sym rfl)
  simp only [List.append_assoc, List.cons_append, List.nil_append]
  exact extend (k := .index) hl hm (accepts_take_bind.2 (accepts_bind.2 ⟨_, _, hindex,
    accepts_bind.2 ⟨_, _, accepts_expect_cons _ _, accepts_pure.2 ⟨rfl, rfl⟩⟩⟩))

/-! ## Operands -/

/-- What is read as an operand, whatever comes behind it, is an expression of the tightest level. -/
theorem of_operand {e : Expr}
    (h : ∀ rest, rest.headD .eof ≠ .word .elseWord →
      Accepts (operand expression) (ts ++ rest) e rest) : Reads ts (.expr .suffix e) :=
  fun _ rest _ hstop => expression_of_accepts (h rest hstop.1)

theorem unary {op : UnaryOp} {e : Expr} (h : Reads ts (.expr .unary e)) :
    Reads (.sym op.symbol :: ts) (.expr .unary (.unary (.sym op.symbol) op e)) := by
  intro m rest hm hstop
  have he : Accepts (expression .unary) (ts ++ rest) e rest :=
    h.accepts (.inr ⟨rfl, rfl⟩) hstop hstop
  refine expression_of_accepts (accepts_take_bind.2 ?_)
  cases op <;> exact accepts_bind.2 ⟨_, _, he, accepts_pure.2 ⟨rfl, rfl⟩⟩

theorem int {digits : String} {n : Integer} (h : n.val = decimal digits) :
    Reads [.int digits] (.expr .suffix (.int (.int digits) n)) := by
  refine of_operand fun rest _ => accepts_take_bind.2 ?_
  change Accepts (number (.int digits) digits) rest _ rest
  rw [number, Integer.ofDigits?_eq_some.2 h]
  rfl

theorem group {e : Expr} (h : Reads ts (.expr .equality e)) :
    Reads (.sym .openParen :: ts ++ [.sym .closeParen]) (.expr .suffix e) := by
  refine of_operand fun rest _ => ?_
  simp only [List.append_assoc, List.cons_append, List.nil_append]
  exact accepts_take_bind.2 (accepts_bind.2 ⟨_, _, h.accepts_lowest (stopsAt_lowest_sym rfl),
    accepts_bind.2 ⟨_, _, accepts_expect_cons _ _, accepts_pure.2 ⟨rfl, rfl⟩⟩⟩)

theorem cond {c : Expr} {b : Block} (hc : Reads ts (.expr .equality c)) (hb : Reads us (.block b)) :
    Reads (.word .ifWord :: .sym .openParen :: ts ++ .sym .closeParen :: us)
      (.expr .suffix (.cond (.word .ifWord) c b none)) := by
  refine of_operand fun rest hrest => ?_
  have hnone : Accepts (alternative (expression .lowest)) rest none rest := by
    rw [alternative, accepts_peek_bind, if_neg hrest]
    rfl
  simp only [List.append_assoc, List.cons_append]
  exact accepts_take_bind.2 (accepts_bind.2 ⟨_, _, accepts_expect_cons _ _,
    accepts_bind.2 ⟨_, _, hc.accepts_lowest (stopsAt_lowest_sym rfl),
    accepts_bind.2 ⟨_, _, accepts_expect_cons _ _, accepts_bind.2 ⟨_, _, hb rest,
    accepts_bind.2 ⟨_, _, hnone, accepts_pure.2 ⟨rfl, rfl⟩⟩⟩⟩⟩⟩)

theorem condElse {vs : List Token} {c : Expr} {b a : Block} (hc : Reads ts (.expr .equality c))
    (hb : Reads us (.block b)) (ha : Reads vs (.block a)) :
    Reads (.word .ifWord :: .sym .openParen :: ts ++ .sym .closeParen :: us ++
        .word .elseWord :: vs)
      (.expr .suffix (.cond (.word .ifWord) c b (some a))) := by
  refine of_operand fun rest _ => ?_
  have hsome : Accepts (alternative (expression .lowest)) (.word .elseWord :: (vs ++ rest))
      (some a) rest := by
    rw [alternative, accepts_peek_bind, List.headD_cons, if_pos rfl, accepts_take_bind]
    exact accepts_bind.2 ⟨_, _, ha rest, accepts_pure.2 ⟨rfl, rfl⟩⟩
  simp only [List.append_assoc, List.cons_append]
  exact accepts_take_bind.2 (accepts_bind.2 ⟨_, _, accepts_expect_cons _ _,
    accepts_bind.2 ⟨_, _, hc.accepts_lowest (stopsAt_lowest_sym rfl),
    accepts_bind.2 ⟨_, _, accepts_expect_cons _ _, accepts_bind.2 ⟨_, _, hb _,
    accepts_bind.2 ⟨_, _, hsome, accepts_pure.2 ⟨rfl, rfl⟩⟩⟩⟩⟩⟩)

theorem fn {b : Block} (names : List String) (hb : Reads us (.block b)) :
    Reads (.word .fnWord :: .sym .openParen :: commas (names.map fun x => [.ident x]) ++
        .sym .closeParen :: us)
      (.expr .suffix (.fn (.word .fnWord) (names.map fun x => ⟨.ident x, x⟩) b)) := by
  refine of_operand fun rest _ => ?_
  simp only [List.append_assoc, List.cons_append]
  exact accepts_take_bind.2 (accepts_bind.2 ⟨_, _, accepts_expect_cons _ _,
    accepts_bind.2 ⟨_, _, accepts_params names,
    accepts_bind.2 ⟨_, _, hb rest, accepts_pure.2 ⟨rfl, rfl⟩⟩⟩⟩)

theorem array {args : List Part} (hopen : ∀ p ∈ args, ∃ t us, p.1 = t :: us ∧ opensExpr t = true)
    (hargs : ∀ p ∈ args, Reads p.1 (.expr .equality p.2)) :
    Reads (.sym .openBracket :: commas (args.map Prod.fst) ++ [.sym .closeBracket])
      (.expr .suffix (.array (.sym .openBracket) (args.map Prod.snd))) := by
  refine of_operand fun rest _ => ?_
  simp only [List.append_assoc, List.cons_append, List.nil_append]
  exact accepts_take_bind.2 (accepts_bind.2 ⟨_, _, items (.inr rfl) hopen hargs,
    accepts_pure.2 ⟨rfl, rfl⟩⟩)

theorem hash {pairs : List (Part × Part)} {last : List Token}
    (hopen : ∀ p ∈ pairs, ∃ t us, p.1.1 = t :: us ∧ opensExpr t = true)
    (hkeys : ∀ p ∈ pairs, Reads p.1.1 (.expr .equality p.1.2))
    (hvalues : ∀ p ∈ pairs, Reads p.2.1 (.expr .equality p.2.2)) (hlast : Trailing pairs last) :
    Reads (.sym .openBrace :: commas (pairs.map pairTokens) ++ last ++ [.sym .closeBrace])
      (.expr .suffix (.hash (.sym .openBrace) (pairs.map fun p => (p.1.2, p.2.2)))) := by
  refine of_operand fun rest _ => ?_
  simp only [List.append_assoc, List.cons_append, List.nil_append]
  exact accepts_take_bind.2 (accepts_bind.2 ⟨_, _, accepts_pairs hkeys hvalues hopen hlast,
    accepts_pure.2 ⟨rfl, rfl⟩⟩)

/-! ## Statements -/

theorem block {ss : List Stmt} (h : Reads ts (.stmts (.sym .closeBrace) ss)) :
    Reads (.sym .openBrace :: ts ++ [.sym .closeBrace]) (.block (.mk (.sym .openBrace) ss)) := by
  intro rest
  have hss := (h (.sym .closeBrace :: rest) rfl).1 rfl
  simp only [List.append_assoc, List.cons_append, List.nil_append]
  exact accepts_bind.2 ⟨_, _, accepts_expect_cons _ _,
    accepts_bind.2 ⟨_, _, hss, accepts_pure.2 ⟨rfl, rfl⟩⟩⟩

/-- At the end of a statement, an expression stops and its semicolon is taken. -/
theorem accepts_ending {e : Expr} {next : Token} (stmt : Expr → Stmt)
    (h : Reads ts (.expr .equality e)) (hend : Ending next us) (hrest : rest.headD .eof = next)
    (hsemi : next ≠ .sym .semicolon) (helse : next ≠ .word .elseWord) :
    Accepts (do
        let value ← expression .lowest
        skip (.sym .semicolon)
        pure (stmt value))
      (ts ++ (us ++ rest)) (stmt e) rest := by
  cases hend with
  | semicolon =>
    exact accepts_bind.2 ⟨_, _, h.accepts_lowest (stopsAt_lowest_sym rfl),
      accepts_bind.2 ⟨_, _, accepts_skip_of_head rfl, accepts_pure.2 ⟨rfl, rfl⟩⟩⟩
  | bare hc =>
    have hstop : StopsAt .lowest (rest.headD .eof) := by
      rw [hrest]
      exact ⟨helse, Follow.above?_lowest_eq_none_iff.2 hc⟩
    have hskip : Accepts (skip (.sym .semicolon)) rest () rest :=
      accepts_skip_of_ne (by rw [hrest]; exact hsemi)
    exact accepts_bind.2 ⟨_, _, h.accepts_lowest hstop,
      accepts_bind.2 ⟨_, _, hskip, accepts_pure.2 ⟨rfl, rfl⟩⟩⟩

theorem bind {e : Expr} {next : Token} (x : String) (h : Reads ts (.expr .equality e))
    (hend : Ending next us) :
    Reads (.word .letWord :: .ident x :: .sym .assign :: ts ++ us)
      (.stmt next (.bind (.word .letWord) ⟨.ident x, x⟩ e)) := by
  intro rest hrest hsemi helse
  have hvalue := accepts_ending (.bind (.word .letWord) ⟨.ident x, x⟩) h hend hrest hsemi helse
  simp only [List.append_assoc, List.cons_append]
  exact accepts_peek_bind.2 (accepts_take_bind.2 (accepts_bind.2 ⟨⟨.ident x, x⟩, _, rfl,
    accepts_bind.2 ⟨_, _, accepts_expect_cons _ _, hvalue⟩⟩))

theorem ret {e : Expr} {next : Token} (hopen : ∃ t vs, ts = t :: vs ∧ opensExpr t = true)
    (h : Reads ts (.expr .equality e)) (hend : Ending next us) :
    Reads (.word .returnWord :: ts ++ us)
      (.stmt next (.ret (.word .returnWord) (some e))) := by
  intro rest hrest hsemi helse
  have hvalue := accepts_ending (.ret (.word .returnWord) <| some ·) h hend hrest hsemi helse
  obtain ⟨t, vs, rfl, ht⟩ := hopen
  simp only [List.append_assoc, List.cons_append] at hvalue ⊢
  refine accepts_peek_bind.2 (accepts_take_bind.2 (accepts_peek_bind.2 ?_))
  simp only [List.headD_cons, List.tail_cons]
  split
  · cases ht
  · cases ht
  · cases ht
  · exact hvalue

theorem retSemicolon {next : Token} :
    Reads [.word .returnWord, .sym .semicolon] (.stmt next (.ret (.word .returnWord) none)) :=
  fun _ _ _ _ => rfl

theorem retBare {next : Token}
    (h : next = .sym .semicolon ∨ next = .sym .closeBrace ∨ next = .eof) :
    Reads [.word .returnWord] (.stmt next (.ret (.word .returnWord) none)) := by
  intro rest hrest hsemi _
  have hskip : Accepts (skip (.sym .semicolon)) rest () rest :=
    accepts_skip_of_ne (by rw [hrest]; exact hsemi)
  have hret : Accepts (do skip (.sym .semicolon); pure (Stmt.ret (.word .returnWord) none)) rest
      (.ret (.word .returnWord) none) rest :=
    accepts_bind.2 ⟨_, _, hskip, accepts_pure.2 ⟨rfl, rfl⟩⟩
  refine accepts_peek_bind.2 (accepts_take_bind.2 (accepts_peek_bind.2 ?_))
  simp only [List.cons_append, List.nil_append, List.headD_cons, List.tail_cons]
  rcases h with rfl | rfl | rfl
  · exact absurd rfl hsemi
  · rw [hrest]
    exact hret
  · rw [hrest]
    exact hret

theorem expr {e : Expr} {next : Token} (hopen : ∃ t vs, ts = t :: vs ∧ opensExpr t = true)
    (h : Reads ts (.expr .equality e)) (hend : Ending next us) :
    Reads (ts ++ us) (.stmt next (.expr e)) := by
  intro rest hrest hsemi helse
  have hvalue := accepts_ending .expr h hend hrest hsemi helse
  obtain ⟨t, vs, rfl, ht⟩ := hopen
  simp only [List.append_assoc, List.cons_append] at hvalue ⊢
  refine accepts_peek_bind.2 ?_
  simp only [List.headD_cons]
  split
  · cases ht
  · cases ht
  · exact hvalue

theorem nil {next : Token} : Reads [] (.stmts next []) := by
  intro rest hrest
  constructor
  · rintro rfl
    rw [blockRest_statement, blockStep, List.nil_append, accepts_peek_bind, hrest]
    rfl
  · rintro rfl
    rw [statements_eq, statementsStep, List.nil_append, accepts_peek_bind, if_pos hrest]
    rfl

theorem cons {s : Stmt} {ss : List Stmt} {next : Token} (hs : Opens ts (.stmt (us.headD next) s))
    (hss : Opens us (.stmts next ss)) (h : Reads ts (.stmt (us.headD next) s))
    (ih : Reads us (.stmts next ss)) : Reads (ts ++ us) (.stmts next (s :: ss)) := by
  intro rest hrest
  -- The token behind the statement starts another one, or it is the one behind all of them.
  have hstmt : next = .sym .closeBrace ∨ next = .eof →
      Accepts (statement (expression .lowest)) (ts ++ (us ++ rest)) s (us ++ rest) := by
    intro hnext
    have hhead : (us ++ rest).headD .eof = us.headD next := by
      cases us with
      | nil => exact hrest
      | cons t us => rfl
    have hne : us.headD next ≠ .sym .semicolon ∧ us.headD next ≠ .word .elseWord := by
      rcases hss with rfl | ⟨t, vs, rfl, ht⟩
      · rcases hnext with rfl | rfl <;> exact ⟨nofun, nofun⟩
      · constructor <;> (rintro (rfl : t = _); cases ht)
    exact h (us ++ rest) hhead hne.1 hne.2
  obtain ⟨t, vs, rfl, ht⟩ := hs
  constructor
  · intro hnext
    rw [blockRest_statement, blockStep, List.append_assoc, accepts_peek_bind]
    simp only [List.cons_append, List.headD_cons]
    split
    · cases ht
    · cases ht
    · exact accepts_bind.2 ⟨_, _, accepts_attempt (hstmt (.inl hnext)),
        accepts_bind.2 ⟨_, _, (ih rest hrest).1 hnext, accepts_pure.2 ⟨rfl, rfl⟩⟩⟩
  · intro hnext
    have hne : ((t :: vs) ++ (us ++ rest)).headD .eof ≠ .eof := by
      rintro (rfl : t = _)
      cases ht
    rw [statements_eq, statementsStep, List.append_assoc, accepts_peek_bind, if_neg hne]
    exact accepts_bind.2 ⟨_, _, accepts_attempt (hstmt (.inr hnext)),
      accepts_bind.2 ⟨_, _, (ih rest hrest).2 hnext, accepts_pure.2 ⟨rfl, rfl⟩⟩⟩

end Reads

/-- Every phrase is read from the tokens that derive it. -/
theorem Derives.reads {p : Phrase} (h : Derives ts p) : Reads ts p := by
  induction h with
  | binary op _ _ hl hr => exact hl.binary hr
  | tighter _ ih => exact ih.tighter
  | unary op _ ih => exact ih.unary
  | call _ hargs ihf ihargs => exact ihf.call (fun p hp => (hargs p hp).opens) ihargs
  | index _ _ hl hi => exact hl.index hi
  | ident | str | true | false => exact .of_operand fun _ _ => rfl
  | int h => exact .int h
  | group _ ih => exact ih.group
  | cond _ _ hc hb => exact hc.cond hb
  | condElse _ _ _ hc hb ha => exact hc.condElse hb ha
  | fn names _ hb => exact .fn names hb
  | array hargs ih => exact .array (fun p hp => (hargs p hp).opens) ih
  | hash hkeys hvalues hlast ihk ihv =>
    exact .hash (fun p hp => (hkeys p hp).opens) ihk ihv hlast
  | block _ ih => exact ih.block
  | bind x _ hend ih => exact ih.bind x hend
  | ret h hend ih => exact .ret h.opens ih hend
  | retSemicolon => exact .retSemicolon
  | retBare h => exact .retBare h
  | expr h hend ih => exact .expr h.opens ih hend
  | nil => exact .nil
  | cons h hs ih ihs => exact .cons h.opens hs.opens ih ihs

end Grammar

/-- A program is read from the tokens that derive it. -/
theorem Program.DerivedFrom.accepts {p : Program} {ts : List Token} (h : p.DerivedFrom ts) :
    Accepts Reading.statements ts p.statements [] := by
  have hr := (Grammar.Derives.reads h [] rfl).2 rfl
  rwa [List.append_nil] at hr

end Monkey
