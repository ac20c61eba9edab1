import Monkey.Program.Equality
import Monkey.Proofs.Reading.Termination
import Monkey.Proofs.Token.Grammar

/-! # Starting afresh behind a semicolon

A semicolon stands at the end of a statement or in a block, and nowhere else. So a reader that is
not in a block goes past a semicolon in two cases only: it has come to the end of a statement, or it
looks for an expression, takes the semicolon for the start of one, and fails. Nothing of what is
behind the semicolon has been looked at by then. `Read.HaltsAt` says this of a reader, whatever
tokens it finds before the semicolon. Only the reader of statements goes past it without failing.

Thus a text that can have no blocks, and ends in a semicolon, is read in the same way before any
other text, and that other text in the same way behind it, however many faults there are:
`Reader.readAll_append_semicolon`.
-/

namespace Monkey

open Reading

/-! ## Readers and semicolons -/

namespace Read

variable {α β : Type} {us : List Token} {t : Token}

/-- On the tokens `us` with a semicolon behind them, `p` does the same whatever comes next. It
leaves the semicolon alone, unless it fails over it, or `past` says that it may go past it. -/
inductive HaltsAt (past : Prop) (us : List Token) (p : Read α) : Prop where
  | before (value? : Option α) (vs : List Token) (faults : List Fault) (hvs : vs <:+ us)
      (h : ∀ rest, p (us ++ .sym .semicolon :: rest) =
        ⟨value?, vs ++ .sym .semicolon :: rest, faults⟩)
  | behind (value? : Option α) (faults : List Fault) (hpast : value?.isSome → past)
      (h : ∀ rest, p (us ++ .sym .semicolon :: rest) = ⟨value?, rest, faults⟩)

theorem headD_append_semicolon (us rest : List Token) :
    (us ++ .sym .semicolon :: rest).headD .eof = us.headD (.sym .semicolon) := by
  cases us <;> rfl

/-- Where something other than the semicolon is seen, it comes before the semicolon. -/
theorem eq_cons_of_headD_semicolon (h : us.headD (.sym .semicolon) = t)
    (ht : t ≠ .sym .semicolon) : us = t :: us.tail := by
  cases us with
  | nil => exact absurd h.symm ht
  | cons _ _ => exact congrArg (· :: _) h

namespace HaltsAt

variable {past : Prop} {p q : Read α}

theorem pure (a : α) : HaltsAt past us (pure a) :=
  .before (some a) us [] List.suffix_rfl fun _ => rfl

theorem refuse (f : Fault) : HaltsAt past us (refuse f : Read α) :=
  .before none us [f] List.suffix_rfl fun _ => rfl

theorem bind_of_run {f : α → Read β} (h : HaltsAt False us p)
    (hf : ∀ a vs fs, vs <:+ us → (∀ rest, p (us ++ .sym .semicolon :: rest) =
      ⟨some a, vs ++ .sym .semicolon :: rest, fs⟩) → HaltsAt past vs (f a)) :
    HaltsAt past us (p >>= f) := by
  rcases h with ⟨_ | a, vs, fs, hvs, h⟩ | ⟨_ | a, fs, hpast, h⟩
  · exact .before none vs fs hvs fun rest => bind_of_none (h rest)
  · rcases hf a vs fs hvs h with ⟨b?, ws, gs, hws, h'⟩ | ⟨b?, gs, hpast, h'⟩
    · refine .before b? ws (fs ++ gs) (hws.trans hvs) fun rest => ?_
      rw [bind_of_some (h rest), h' rest]
    · refine .behind b? (fs ++ gs) hpast fun rest => ?_
      rw [bind_of_some (h rest), h' rest]
  · exact .behind none fs nofun fun rest => bind_of_none (h rest)
  · exact (hpast rfl).elim

theorem bind {f : α → Read β} (h : HaltsAt False us p)
    (hf : ∀ a vs, vs <:+ us → HaltsAt past vs (f a)) : HaltsAt past us (p >>= f) :=
  h.bind_of_run fun a vs _ hvs _ => hf a vs hvs

/-- If the reader is known to use up `k` tokens, there are that many less for what follows it. -/
theorem bind_alike {k : Nat} {f : α → Read β} (h : HaltsAt False us p)
    (hk : Alike k (us ++ [.sym .semicolon]) p p)
    (hf : ∀ a vs, vs <:+ us → vs.length + k ≤ us.length → HaltsAt past vs (f a)) :
    HaltsAt past us (p >>= f) := by
  refine h.bind_of_run fun a vs fs hvs hp => hf a vs hvs ?_
  have hl := hk.2
  rw [hp []] at hl
  simp only [List.length_append, List.length_singleton] at hl
  omega

theorem peek_bind {f : Token → Read β} (h : HaltsAt past us (f (us.headD (.sym .semicolon)))) :
    HaltsAt past us (peek >>= f) := by
  have hpeek (rest : List Token) : (peek >>= f) (us ++ .sym .semicolon :: rest) =
      f (us.headD (.sym .semicolon)) (us ++ .sym .semicolon :: rest) := by
    rw [Read.peek_bind, headD_append_semicolon]
  rcases h with ⟨b?, vs, fs, hvs, h⟩ | ⟨b?, fs, hpast, h⟩
  · exact .before b? vs fs hvs fun rest => (hpeek rest).trans (h rest)
  · exact .behind b? fs hpast fun rest => (hpeek rest).trans (h rest)

theorem take_bind {f : Token → Read β} (h : HaltsAt past us (f t)) :
    HaltsAt past (t :: us) (take >>= f) := by
  rcases h with ⟨b?, vs, fs, hvs, h⟩ | ⟨b?, fs, hpast, h⟩
  · exact .before b? vs fs (hvs.trans (List.suffix_cons t us)) h
  · exact .behind b? fs hpast h

/-- What is seen, and is not the semicolon, is taken. -/
theorem take_bind_of_headD {f : Token → Read β} (h : us.headD (.sym .semicolon) = t)
    (ht : t ≠ .sym .semicolon) (hf : HaltsAt past us.tail (f t)) :
    HaltsAt past us (take >>= f) := by
  rw [eq_cons_of_headD_semicolon h ht]
  exact take_bind hf

theorem ite {c : Prop} [Decidable c] (h : c → HaltsAt past us p) (h' : ¬c → HaltsAt past us q) :
    HaltsAt past us (if c then p else q) := by
  by_cases hc : c
  · rw [if_pos hc]
    exact h hc
  · rw [if_neg hc]
    exact h' hc

theorem expect (ht : t ≠ .sym .semicolon) : HaltsAt False us (expect t) := by
  refine peek_bind (ite (fun hc => ?_) fun _ => refuse _)
  rw [← bind_pure_self take]
  exact take_bind_of_headD hc ht (pure t)

/-- A token that is not there is expected in vain. -/
theorem expect_bind_of_notMem {f : Token → Read β} (ht : t ≠ .sym .semicolon) (h : t ∉ us) :
    HaltsAt False us (Read.expect t >>= f) := by
  have hne : us.headD (.sym .semicolon) ≠ t := by
    intro hc
    rw [eq_cons_of_headD_semicolon hc ht] at h
    exact h List.mem_cons_self
  have hfault (rest : List Token) : Read.expect t (us ++ .sym .semicolon :: rest) =
      ⟨none, us ++ .sym .semicolon :: rest,
        [.unexpected t.kind (us.headD (.sym .semicolon)).kind]⟩ := by
    rw [← headD_append_semicolon us rest] at hne ⊢
    exact expect_of_ne hne
  exact .before none us _ List.suffix_rfl fun rest => bind_of_none (hfault rest)

end HaltsAt
end Read

namespace Reading

open Read

variable {α : Type} {us : List Token}

/-! ## Lists of items -/

theorem haltsAt_ident : HaltsAt False us ident := by
  refine .peek_bind ?_
  split
  · rename_i name hn
    exact .take_bind_of_headD hn nofun (.pure _)
  · exact .refuse _

section Items

variable {item : Read α}

theorem haltsAt_moreItems (hitem : ∀ ts, Alike 0 ts item item)
    (h : ∀ vs, vs <:+ us → HaltsAt False vs item) : HaltsAt False us (moreItems item) := by
  induction hl : us.length using Nat.strongRecOn generalizing us with
  | ind n ih =>
    subst hl
    rw [moreItems_eq hitem]
    refine .peek_bind (.ite (fun hc => ?_) fun _ => .pure _)
    have hcons := eq_cons_of_headD_semicolon hc nofun
    rw [hcons] at h ih ⊢
    have htail : us.tail <:+ .sym .comma :: us.tail := List.suffix_cons _ _
    refine .take_bind ((h us.tail htail).bind fun _ vs hvs => ?_)
    refine (ih vs.length (Nat.lt_succ_of_le hvs.length_le) ?_ rfl).bind fun _ _ _ => .pure _
    exact fun ws hws => h ws (hws.trans (hvs.trans htail))

theorem haltsAt_items (hitem : ∀ ts, Alike 0 ts item item)
    (h : ∀ vs, vs <:+ us → HaltsAt False vs item) {close : Symbol} (hclose : close ≠ .semicolon) :
    HaltsAt False us (items item close) := by
  have hne : Token.sym close ≠ .sym .semicolon := fun he => hclose (Token.sym.inj he)
  refine .peek_bind (.ite (fun hc => .take_bind_of_headD hc hne (.pure _)) fun _ => ?_)
  refine (h us List.suffix_rfl).bind fun _ vs hvs => ?_
  refine (haltsAt_moreItems hitem fun ws hws => h ws (hws.trans hvs)).bind fun _ ws _ => ?_
  exact (HaltsAt.expect hne).bind fun _ _ _ => .pure _

end Items

theorem haltsAt_pairEnd : HaltsAt False us pairEnd :=
  .peek_bind (.ite (fun _ => .pure _)
    fun _ => (HaltsAt.expect (by decide)).bind fun _ _ _ => .pure _)

theorem haltsAt_pairs (h : ∀ vs, vs <:+ us → HaltsAt False vs (expression .lowest)) :
    HaltsAt False us (pairs (expression .lowest)) := by
  induction hl : us.length using Nat.strongRecOn generalizing us with
  | ind n ih =>
    subst hl
    rw [pairs_expression]
    refine .peek_bind (.ite (fun hc => .take_bind_of_headD hc nofun (.pure _)) fun _ => ?_)
    refine (h us List.suffix_rfl).bind_alike (alike_expression .lowest _) fun _ vs hvs hlt => ?_
    refine (HaltsAt.expect (by decide)).bind fun _ ws hws => ?_
    refine (h ws (hws.trans hvs)).bind fun _ xs hxs => ?_
    refine haltsAt_pairEnd.bind fun _ ys hys => ?_
    have hyv : ys <:+ vs := hys.trans (hxs.trans hws)
    have hlen : ys.length < us.length := by
      have := hyv.length_le
      omega
    refine (ih ys.length hlen (fun zs hzs => ?_) rfl).bind fun _ _ _ => .pure _
    exact h zs (hzs.trans (hyv.trans hvs))

/-! ## Expressions -/

/-- There is no block in the tokens, nor do any of them start one: a block needs a brace and one of
two words. -/
def Blockless (ts : List Token) : Prop :=
  .sym .openBrace ∉ ts ∨ .word .ifWord ∉ ts ∧ .word .fnWord ∉ ts

theorem Blockless.suffix {vs : List Token} (h : Blockless us) (hvs : vs <:+ us) : Blockless vs :=
  h.imp (mt fun hm => hvs.subset hm)
    (And.imp (mt fun hm => hvs.subset hm) (mt fun hm => hvs.subset hm))

/-- Behind an `if` or a `fn` there is no brace, so the block that should be there is not. -/
theorem Blockless.brace_notMem {t : Token} (h : Blockless (t :: us))
    (ht : t = .word .ifWord ∨ t = .word .fnWord) : .sym .openBrace ∉ us := by
  rcases h with hbrace | ⟨hif, hfn⟩
  · exact fun hm => hbrace (List.mem_cons_of_mem _ hm)
  · rcases ht with rfl | rfl
    · exact absurd List.mem_cons_self hif
    · exact absurd List.mem_cons_self hfn

theorem haltsAt_number (token : Token) (digits : String) :
    HaltsAt False us (number token digits) := by
  unfold number
  split
  · exact .pure _
  · exact .refuse _

/-- Without a brace there is no block, and what should follow it is not read. -/
theorem haltsAt_block_bind {f : Block → Read α} (h : .sym .openBrace ∉ us) :
    HaltsAt False us (block (expression .lowest) >>= f) := by
  rw [block, bind_assoc]
  exact .expect_bind_of_notMem nofun h

theorem haltsAt_operand_cons {t : Token} (hblocks : Blockless (t :: us))
    (h : ∀ l vs, vs <:+ us → HaltsAt False vs (expression l)) :
    HaltsAt False (t :: us) (operand expression) := by
  have hself := fun l => h l us List.suffix_rfl
  refine .take_bind ?_
  split
  · exact .pure _
  · exact haltsAt_number _ _
  · exact .pure _
  · exact .pure _
  · exact .pure _
  · exact (hself _).bind fun _ _ _ => .pure _
  · exact (hself _).bind fun _ _ _ => .pure _
  · refine (hself _).bind fun _ _ _ => ?_
    exact (HaltsAt.expect (by decide)).bind fun _ _ _ => .pure _
  · have hbrace := hblocks.brace_notMem (.inl rfl)
    refine (HaltsAt.expect (by decide)).bind fun _ vs hvs => ?_
    refine (h _ vs hvs).bind fun _ ws hws => ?_
    refine (HaltsAt.expect (by decide)).bind fun _ xs hxs => ?_
    have hxu : xs <:+ us := hxs.trans (hws.trans hvs)
    exact haltsAt_block_bind (mt (fun hm => hxu.subset hm) hbrace)
  · have hbrace := hblocks.brace_notMem (.inr rfl)
    refine (HaltsAt.expect (by decide)).bind fun _ vs hvs => ?_
    refine (haltsAt_items (fun _ => alike_ident) (fun _ _ => haltsAt_ident) (by decide)).bind
      fun _ ws hws => ?_
    have hwu : ws <:+ us := hws.trans hvs
    exact haltsAt_block_bind (mt (fun hm => hwu.subset hm) hbrace)
  · exact (haltsAt_items (alike_expression_zero _) (h _) (by decide)).bind fun _ _ _ => .pure _
  · exact (haltsAt_pairs (h _)).bind fun _ _ _ => .pure _
  · exact .refuse _

theorem haltsAt_operand (hblocks : Blockless us)
    (h : ∀ l vs, vs <:+ us → vs.length < us.length → HaltsAt False vs (expression l)) :
    HaltsAt False us (operand expression) := by
  cases us with
  | nil => exact .behind none [.noOperand (.sym .semicolon)] nofun fun _ => rfl
  | cons t us =>
    refine haltsAt_operand_cons hblocks fun l vs hvs => ?_
    exact h l vs (hvs.trans (List.suffix_cons t us)) (Nat.lt_succ_of_le hvs.length_le)

theorem haltsAt_extend {left : Expr} {k : Follow}
    (hk : us.headD (.sym .semicolon) = .sym k.symbol)
    (h : ∀ l vs, vs <:+ us.tail → HaltsAt False vs (expression l)) :
    HaltsAt False us (extend expression left k) := by
  have hself := fun l => h l us.tail List.suffix_rfl
  cases k with
  | binary op =>
    refine .take_bind_of_headD hk (by cases op <;> decide) ?_
    exact (hself _).bind fun _ _ _ => .pure _
  | call =>
    refine .take_bind_of_headD hk (by decide) ?_
    exact (haltsAt_items (alike_expression_zero _) (h _) (by decide)).bind fun _ _ _ => .pure _
  | index =>
    refine .take_bind_of_headD hk (by decide) ((hself _).bind fun _ _ _ => ?_)
    exact (HaltsAt.expect (by decide)).bind fun _ _ _ => .pure _

theorem haltsAt_extendAbove {left : Expr} (m : Level)
    (h : ∀ l vs, vs <:+ us → HaltsAt False vs (expression l)) :
    HaltsAt False us (extendAbove expression m left) := by
  induction hl : us.length using Nat.strongRecOn generalizing us left with
  | ind n ih =>
    subst hl
    rw [extendAbove_expression]
    refine .peek_bind ?_
    split
    · rename_i k hk
      obtain ⟨hsym, -⟩ := Follow.eq_symbol_of_above? hk
      have hextend : HaltsAt False us (extend expression left k) :=
        haltsAt_extend hsym fun l vs hvs => h l vs (hvs.trans (List.tail_suffix us))
      have hpos : 0 < (us ++ [Token.sym .semicolon]).length := by simp
      refine hextend.bind_alike (alike_extend (fun l vs _ => alike_expression l vs) hpos left k)
        fun larger vs hvs hlt => ?_
      exact ih vs.length (by omega) (fun l ws hws => h l ws (hws.trans hvs)) rfl
    · exact .pure _

/-- Expressions are not read past a semicolon. -/
theorem haltsAt_expression (hblocks : Blockless us) (l : Level) :
    HaltsAt False us (expression l) := by
  induction hl : us.length using Nat.strongRecOn generalizing us l with
  | ind n ih =>
    subst hl
    have hself : ∀ m vs, vs <:+ us → vs.length < us.length → HaltsAt False vs (expression m) :=
      fun m vs hvs hlt => ih vs.length hlt (hblocks.suffix hvs) m rfl
    rw [expression_eq]
    refine (haltsAt_operand hblocks hself).bind_alike
      (alike_operand fun m vs _ => alike_expression m vs) fun e vs hvs hlt => ?_
    refine haltsAt_extendAbove l fun m ws hws => hself m ws (hws.trans hvs) ?_
    have := hws.length_le
    omega

/-! ## Statements -/

/-- Where a statement may end with a semicolon, it goes no further than that. -/
theorem haltsAt_skip_bind {s : Stmt} :
    HaltsAt True us (do skip (.sym .semicolon); pure s) := by
  cases us with
  | nil => exact .behind (some s) [] (fun _ => trivial) fun _ => rfl
  | cons t us =>
    by_cases ht : t = .sym .semicolon
    · subst ht
      refine .before (some s) us [] (List.suffix_cons _ us) fun rest => ?_
      exact bind_of_accepts (accepts_skip_of_head rfl)
    · refine .before (some s) (t :: us) [] List.suffix_rfl fun rest => ?_
      exact bind_of_accepts (accepts_skip_of_ne ht)

theorem haltsAt_statement (hblocks : Blockless us) :
    HaltsAt True us (statement (expression .lowest)) := by
  have hexpression : ∀ vs, vs <:+ us → HaltsAt False vs (expression .lowest) :=
    fun vs hvs => haltsAt_expression (hblocks.suffix hvs) .lowest
  refine .peek_bind ?_
  split
  · rename_i hc
    refine .take_bind_of_headD hc nofun (haltsAt_ident.bind fun _ vs hvs => ?_)
    refine (HaltsAt.expect (by decide)).bind fun _ ws hws => ?_
    have hwu : ws <:+ us := hws.trans (hvs.trans (List.tail_suffix us))
    exact (hexpression ws hwu).bind fun _ _ _ => haltsAt_skip_bind
  · rename_i hc
    refine .take_bind_of_headD hc nofun (.peek_bind ?_)
    split
    · exact haltsAt_skip_bind
    · exact haltsAt_skip_bind
    · exact haltsAt_skip_bind
    · exact (hexpression us.tail (List.tail_suffix us)).bind fun _ _ _ => haltsAt_skip_bind
  · exact (hexpression us List.suffix_rfl).bind fun _ _ _ => haltsAt_skip_bind

/-- What is read before a semicolon, and what is read behind it, have nothing to do with each
other. -/
theorem exists_statements_semicolon (hblocks : Blockless us) (heof : .eof ∉ us) :
    ∃ ss faults, ∀ rest qs more, statements rest = ⟨some qs, [], more⟩ →
      statements (us ++ .sym .semicolon :: rest) = ⟨some (ss ++ qs), [], faults ++ more⟩ := by
  induction hl : us.length using Nat.strongRecOn generalizing us with
  | ind n ih =>
    subst hl
    have hhead (rest : List Token) : (us ++ .sym .semicolon :: rest).headD .eof ≠ .eof := by
      rw [headD_append_semicolon]
      intro hc
      rw [eq_cons_of_headD_semicolon hc nofun] at heof
      exact heof List.mem_cons_self
    rcases haltsAt_statement hblocks with ⟨s?, vs, fs, hvs, h⟩ | ⟨s?, fs, -, h⟩
    · have hlt : vs.length < us.length := by
        have hused := (alike_statement_expression (us ++ [.sym .semicolon])).2
        rw [h []] at hused
        simp only [List.length_append, List.length_singleton] at hused
        omega
      obtain ⟨ss, faults, hss⟩ := ih vs.length hlt (hblocks.suffix hvs)
        (fun hm => heof (hvs.subset hm)) rfl
      refine ⟨s?.toList ++ ss, fs ++ faults, fun rest qs more hrest => ?_⟩
      rw [List.append_assoc, List.append_assoc]
      exact statements_of_statement (hhead rest) (h rest) (hss rest qs more hrest)
    · exact ⟨s?.toList, fs, fun rest _ _ => statements_of_statement (hhead rest) (h rest)⟩

end Reading

/-! ## Texts -/

namespace Token

variable {cs rest : List Char} {t : Token} {ts : List Token}

/-- A text in which all quotes are closed is not changed by a semicolon behind it. -/
theorem Splits.scanChars_append_semicolon (h : Splits cs ts) (hts : .illegal '"' ∉ ts)
    (rest : List Char) :
    scanChars (cs ++ ';' :: rest) = ts ++ .sym .semicolon :: scanChars rest := by
  induction h with
  | blanks hw =>
    rw [scanChars_blanks hw]
    exact scanChars_cons (by decide) rest
  | @token w x cs t ts hw hx ht h ih =>
    obtain ⟨hne, hts⟩ := not_or.1 (mt List.mem_cons.2 hts)
    have hends : t.EndsBefore (cs ++ ';' :: rest) :=
      ht.append (Ne.symm hne) (endsBefore_cons (Ne.symm hne) (by decide) (by decide) rest)
    rw [List.append_assoc, List.append_assoc, scanChars_blanks hw,
      scanChars_of_spelledBy hx hends, ih hts]
    rfl

theorem scan_append_semicolon {b : String} (h : .illegal '"' ∉ scan b) (q : String) :
    scan (b ++ ";" ++ q) = scan b ++ .sym .semicolon :: scan q := by
  rw [scan, String.toList_append, String.toList_append, List.append_assoc]
  exact (splits_scanChars b.toList).scanChars_append_semicolon h q.toList

end Token

namespace Reader

/-- A text in which all quotes are closed, and in which there can be no block, is read up to a
semicolon behind it as if nothing came next; and what comes next is read as if nothing had been
there. -/
theorem readAll_append_semicolon {b : String} (hquotes : .illegal '"' ∉ Token.scan b)
    (hblocks : .sym .openBrace ∉ Token.scan b ∨
      .word .ifWord ∉ Token.scan b ∧ .word .fnWord ∉ Token.scan b) (q : String) :
    (ofSource (b ++ ";" ++ q)).readAll.1.statements =
        (ofSource (b ++ ";")).readAll.1.statements ++ (ofSource q).readAll.1.statements ∧
      (ofSource (b ++ ";" ++ q)).readAll.2.faults =
        (ofSource (b ++ ";")).readAll.2.faults ++ (ofSource q).readAll.2.faults := by
  obtain ⟨ss, faults, hss⟩ := exists_statements_semicolon hblocks (Token.eof_notMem_scan b)
  obtain ⟨qs, more, hqs⟩ := exists_statements_eq (Token.eof_notMem_scan q)
  have hwhole : statements (Token.scan (b ++ ";" ++ q)) =
      ⟨some (ss ++ qs), [], faults ++ more⟩ := by
    rw [Token.scan_append_semicolon hquotes]
    exact hss _ qs more hqs
  have hfirst : statements (Token.scan (b ++ ";")) = ⟨some ss, [], faults⟩ := by
    have hscan := Token.scan_append_semicolon hquotes ""
    have hnone : Token.scan "" = [] := Token.scanChars_nil
    rw [String.append_empty, hnone] at hscan
    rw [hscan]
    simpa using hss [] [] [] statements_nil
  simp only [readAll, ofSource, hwhole, hfirst, hqs]
  exact ⟨rfl, rfl⟩

/-- A statement that breaks off in a hash, in an array, in a call costs one fault, and the next one
is read as if nothing had been wrong. -/
theorem readAll_append_semicolon_brokenOff :
    .illegal '"' ∉ Token.scan "let x = f(1, [\x7b" ∧
    (.word .ifWord ∉ Token.scan "let x = f(1, [\x7b" ∧
      .word .fnWord ∉ Token.scan "let x = f(1, [\x7b") ∧
    (ofSource ("let x = f(1, [\x7b" ++ ";" ++ "y")).readAll.1.statements =
      [.expr (.ident ⟨.ident "y", "y"⟩)] ∧
    (ofSource ("let x = f(1, [\x7b" ++ ";" ++ "y")).readAll.2.faults =
      [.noOperand (.sym .semicolon)] := by
  have hquotes : .illegal '"' ∉ Token.scan "let x = f(1, [\x7b" := by decide +kernel
  have hblocks : .word .ifWord ∉ Token.scan "let x = f(1, [\x7b" ∧
      .word .fnWord ∉ Token.scan "let x = f(1, [\x7b" := by decide +kernel
  obtain ⟨hstatements, hfaults⟩ := readAll_append_semicolon hquotes (.inr hblocks) "y"
  refine ⟨hquotes, hblocks, ?_, ?_⟩
  · rw [hstatements]
    decide +kernel
  · rw [hfaults]
    decide +kernel

end Reader
end Monkey
