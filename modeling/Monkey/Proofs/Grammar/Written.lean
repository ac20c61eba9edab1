import Monkey.Proofs.Grammar.Basic
import Monkey.Proofs.Token.Spelling

/-! # What is written is derived

The text that an expression is written as is split into tokens, and these derive the expression
again: that is `Expr.Written`, and there is a lemma for each kind of node. A canonical node is
written (`Syntax.hereditary_written`), whatever it is a part of: every operator has parentheses
around it, and what has none is closed in itself, so all of them are on the tightest level of the
grammar.

The result for programs is `Program.Built.derivedFrom_render`.
-/

namespace Monkey

open Token Grammar

def Expr.Written (e : Expr) : Prop :=
  ∃ ts, Spells e.render.toList ts ∧ Derives ts (.expr .suffix e)

/-- A statement ends in a semicolon, so it does not matter what comes next. -/
def Stmt.Written (s : Stmt) : Prop :=
  ∃ ts, Closed s.render.toList ts ∧ ∀ next, Derives ts (.stmt next s)

def Block.Written (b : Block) : Prop :=
  ∃ ts, Closed b.render.toList ts ∧ Derives ts (.block b)

/-! ## Lists -/

/-- What is known to come from something, item by item, comes from a list. -/
theorem exists_map_eq {α β : Type} {f : β → α} {W : β → Prop} {as : List α}
    (h : ∀ a ∈ as, ∃ b, f b = a ∧ W b) : ∃ bs : List β, bs.map f = as ∧ ∀ b ∈ bs, W b := by
  induction as with
  | nil => exact ⟨[], rfl, nofun⟩
  | cons a as ih =>
    obtain ⟨⟨b, rfl, hb⟩, has⟩ := List.forall_mem_cons.1 h
    obtain ⟨bs, rfl, hbs⟩ := ih has
    exact ⟨b :: bs, rfl, List.forall_mem_cons.2 ⟨hb, hbs⟩⟩

theorem spells_commas {α : Type} {text : α → String} {tokens : α → List Token} {xs : List α}
    (h : ∀ x ∈ xs, Spells (text x).toList (tokens x)) :
    Spells (String.intercalate ", " (xs.map text)).toList (commas (xs.map tokens)) := by
  induction xs with
  | nil => exact fun _ _ => rfl
  | cons x xs ih =>
    obtain ⟨hx, hxs⟩ := List.forall_mem_cons.1 h
    cases xs with
    | nil => simpa [commas] using hx
    | cons y xs =>
      have hcomma : Separates ", ".toList [.sym .comma] := separates_symbol_blank .comma
      have hall := (hx.append_separates hcomma).append_spells (ih hxs)
      simpa [commas, String.intercalate_cons_cons, List.intercalate_cons_cons] using hall

theorem Expr.written_all {es : List Expr} (h : ∀ e ∈ es, e.Written) :
    ∃ args : List Part, args.map Prod.snd = es ∧
      Spells (String.intercalate ", " (Expr.renderAll es)).toList (commas (args.map Prod.fst)) ∧
      ∀ p ∈ args, Derives p.1 (.expr .equality p.2) := by
  obtain ⟨args, rfl, hargs⟩ : ∃ args : List Part, args.map Prod.snd = es ∧
      ∀ p ∈ args, Spells p.2.render.toList p.1 ∧ Derives p.1 (.expr .equality p.2) := by
    refine exists_map_eq fun e he => ?_
    obtain ⟨ts, hs, hd⟩ := h e he
    exact ⟨(ts, e), rfl, hs, hd.anywhere⟩
  refine ⟨args, rfl, ?_, fun p hp => (hargs p hp).2⟩
  rw [Expr.renderAll_eq_map, List.map_map]
  exact spells_commas fun p hp => (hargs p hp).1

theorem Expr.written_pairs {ps : List (Expr × Expr)} (h : ∀ p ∈ ps, p.1.Written ∧ p.2.Written) :
    ∃ pairs : List (Part × Part), pairs.map (fun p => (p.1.2, p.2.2)) = ps ∧
      Spells (String.intercalate ", " (Expr.renderPairs ps)).toList
        (commas (pairs.map pairTokens)) ∧
      (∀ p ∈ pairs, Derives p.1.1 (.expr .equality p.1.2)) ∧
      ∀ p ∈ pairs, Derives p.2.1 (.expr .equality p.2.2) := by
  have hcolon : Separates ": ".toList [.sym .colon] := separates_symbol_blank .colon
  obtain ⟨pairs, rfl, hpairs⟩ : ∃ pairs : List (Part × Part),
      pairs.map (fun p => (p.1.2, p.2.2)) = ps ∧ ∀ p ∈ pairs,
        Spells (p.1.2.render ++ ": " ++ p.2.2.render).toList (pairTokens p) ∧
        Derives p.1.1 (.expr .equality p.1.2) ∧ Derives p.2.1 (.expr .equality p.2.2) := by
    refine exists_map_eq fun p hp => ?_
    obtain ⟨⟨ts, hks, hkd⟩, us, hvs, hvd⟩ := h p hp
    refine ⟨((ts, p.1), (us, p.2)), rfl, ?_, hkd.anywhere, hvd.anywhere⟩
    have hall := (hks.append_separates hcolon).append_spells hvs
    simpa [pairTokens] using hall
  refine ⟨pairs, rfl, ?_, fun p hp => (hpairs p hp).2.1, fun p hp => (hpairs p hp).2.2⟩
  rw [Expr.renderPairs_eq_map, List.map_map]
  exact spells_commas fun p hp => (hpairs p hp).1

/-- Statements are written one behind the other, with any blanks in between. -/
theorem Stmt.written_all {ss : List Stmt} (sep : String) (hsep : Closed sep.toList [])
    (h : ∀ s ∈ ss, s.Written) :
    ∃ ts, Closed (String.intercalate sep (ss.map Stmt.render)).toList ts ∧
      ∀ next, Derives ts (.stmts next ss) := by
  induction ss with
  | nil => exact ⟨[], fun _ => rfl, fun _ => .nil⟩
  | cons s ss ih =>
    obtain ⟨⟨ts, hs, hd⟩, hss⟩ := List.forall_mem_cons.1 h
    obtain ⟨us, hus, hds⟩ := ih hss
    refine ⟨ts ++ us, ?_, fun next => .cons (hd _) (hds next)⟩
    cases ss with
    | nil => simpa using hs.append hus
    | cons s' ss =>
      have hall := (hs.append hsep).append hus
      simpa [String.intercalate_cons_cons] using hall

/-! ## Expressions -/

theorem closed_if : Closed "if (".toList [.word .ifWord, .sym .openParen] :=
  (closed_keyword_blank .ifWord).append (separates_symbol (s := .openParen) (by decide)).closed

theorem separates_closeParen : Separates ") ".toList [.sym .closeParen] :=
  separates_symbol_blank .closeParen

/-- A canonical name is that of its token, and it is spelled as it is. -/
theorem Ident.Built.exists_name {id : Ident} (h : id.Built Token.Canonical) :
    ∃ x, id = ⟨.ident x, x⟩ ∧ IsName x := by
  obtain ⟨token, name⟩ := id
  obtain ⟨(rfl : token = .ident name), hname⟩ := h
  exact ⟨name, rfl, hname⟩

namespace Expr.Written

theorem ident {id : Ident} (h : id.Built Token.Canonical) : (Expr.ident id).Written := by
  obtain ⟨x, rfl, hx⟩ := h.exists_name
  exact ⟨_, spells_ident hx, .ident x⟩

theorem int {t : Token} {n : Integer} (h : (Expr.int t n).Built Token.Canonical) :
    (Expr.int t n).Written := by
  obtain ⟨digits, rfl, hdigits, hn⟩ := h
  refine ⟨[.int digits], ?_, .int hn⟩
  have htext : n.text = digits := (Integer.text_of_val hn).trans hdigits.symm
  rw [Expr.render, htext]
  refine spells_numeral ?_
  rw [hdigits]
  exact isNumeral_repr _

theorem str {s : String} (h : '"' ∉ s.toList) : (Expr.str (.str s) s).Written := by
  refine ⟨_, ?_, .str s⟩
  simpa [Expr.render] using (closed_quoted h).spells

theorem bool (b : Bool) :
    (Expr.bool (.word (if b then .trueWord else .falseWord)) b).Written := by
  cases b with
  | true => exact ⟨_, spells_keyword .trueWord, .true⟩
  | false => exact ⟨_, spells_keyword .falseWord, .false⟩

/-- What stands in parentheses is closed in itself. -/
theorem group {e : Expr} {cs : List Char} {ts : List Token} {l : Level}
    (h : Spells cs ts) (hd : Derives ts (.expr l e)) (hl : Level.equality.rank ≤ l.rank)
    (hr : e.render.toList = "(".toList ++ (cs ++ ")".toList)) : e.Written := by
  refine ⟨_, ?_, (hd.loosen hl).group⟩
  rw [hr]
  exact h.parens.closed.spells

theorem unary {op : UnaryOp} {e : Expr} (h : e.Written) :
    (Expr.unary (.sym op.symbol) op e).Written := by
  obtain ⟨ts, hs, hd⟩ := h
  have hop : Spells (op.text.toList ++ e.render.toList) (.sym op.symbol :: ts) := by
    cases op with
    | minus => exact (separates_symbol (s := .minus) (by decide)).closed.append_spells hs
    | bang =>
      obtain ⟨t, us, rfl, ht⟩ := hd.opens
      exact spells_bang hs (by rintro rfl; cases ht) (by rintro rfl; cases ht)
  refine group hop (.unary op (hd.loosen (by decide))) (by decide) ?_
  simp [Expr.render]

theorem binary {op : BinaryOp} {l r : Expr} (hl : l.Written) (hr : r.Written) :
    (Expr.binary (.sym op.symbol) op l r).Written := by
  obtain ⟨ts, hls, hld⟩ := hl
  obtain ⟨us, hrs, hrd⟩ := hr
  have hop : Separates (' ' :: (op.text.toList ++ [' '])) [.sym op.symbol] :=
    separates_blank.append (separates_symbol_blank op.symbol).closed
  have hall := (hls.append_separates hop).append_spells hrs
  have hd : Derives (ts ++ .sym op.symbol :: us)
      (.expr op.level (.binary (.sym op.symbol) op l r)) := by
    refine .binary op (hld.loosen ?_) (hrd.loosen ?_)
    · cases op <;> decide
    · cases op <;> decide
  refine group (by simpa using hall) hd (by cases op <;> decide) ?_
  simp [Expr.render]

theorem cond {c : Expr} {b : Block} (hc : c.Written) (hb : b.Written) :
    (Expr.cond (.word .ifWord) c b none).Written := by
  obtain ⟨ts, hcs, hcd⟩ := hc
  obtain ⟨us, hbs, hbd⟩ := hb
  refine ⟨_, ?_, .cond hcd.anywhere hbd⟩
  have hall := ((closed_if.append_spells hcs).append_separates separates_closeParen).append hbs
  simpa [Expr.render] using hall.spells

theorem condElse {c : Expr} {b a : Block} (hc : c.Written) (hb : b.Written) (ha : a.Written) :
    (Expr.cond (.word .ifWord) c b (some a)).Written := by
  obtain ⟨ts, hcs, hcd⟩ := hc
  obtain ⟨us, hbs, hbd⟩ := hb
  obtain ⟨vs, has, had⟩ := ha
  refine ⟨_, ?_, .condElse hcd.anywhere hbd had⟩
  have helse : Closed " else ".toList [.word .elseWord] :=
    separates_blank.closed.append (closed_keyword_blank .elseWord)
  have hall := ((closed_if.append_spells hcs).append_separates separates_closeParen).append hbs
  simpa [Expr.render] using ((hall.append helse).append has).spells

/-- A function is written in front of whatever text its body is spelled by. -/
theorem closed_fn {ps : List Ident} {b : Block} {cs : List Char} {ts : List Token}
    (hps : ∀ p ∈ ps, p.Built Token.Canonical) (hb : Closed cs ts) (hd : Derives ts (.block b)) :
    ∃ us, Closed (("fn(" ++ String.intercalate ", " (ps.map Ident.name) ++ ") ").toList ++ cs) us ∧
      Derives us (.expr .suffix (.fn (.word .fnWord) ps b)) := by
  obtain ⟨names, rfl, hnames⟩ : ∃ names : List String,
      names.map (fun x => (⟨.ident x, x⟩ : Ident)) = ps ∧ ∀ x ∈ names, IsName x := by
    refine exists_map_eq fun p hp => ?_
    obtain ⟨x, rfl, hx⟩ := (hps p hp).exists_name
    exact ⟨x, rfl, hx⟩
  refine ⟨_, ?_, .fn names hd⟩
  have hfn : Closed "fn(".toList [.word .fnWord, .sym .openParen] :=
    (spells_keyword .fnWord).append_separates (separates_symbol (s := .openParen) (by decide))
  have hnames' : Spells (String.intercalate ", " (names.map id)).toList
      (commas (names.map fun x => [.ident x])) :=
    spells_commas fun x hx => spells_ident (hnames x hx)
  have hall := ((hfn.append_spells hnames').append_separates separates_closeParen).append hb
  simpa [Function.comp_def] using hall

theorem fn {ps : List Ident} {b : Block} (hps : ∀ p ∈ ps, p.Built Token.Canonical)
    (hb : b.Written) : (Expr.fn (.word .fnWord) ps b).Written := by
  obtain ⟨ts, hbs, hbd⟩ := hb
  obtain ⟨us, hus, hd⟩ := closed_fn hps hbs hbd
  refine ⟨us, ?_, hd⟩
  simpa [Expr.render] using hus.spells

theorem call {f : Expr} {es : List Expr} (hf : f.Written) (hes : ∀ e ∈ es, e.Written) :
    (Expr.call (.sym .openParen) f es).Written := by
  obtain ⟨ts, hfs, hfd⟩ := hf
  obtain ⟨args, rfl, has, had⟩ := Expr.written_all hes
  refine ⟨_, ?_, .call hfd had⟩
  have hall := hfs.append_separates has.parens
  simpa [Expr.render] using hall.spells

theorem array {es : List Expr} (hes : ∀ e ∈ es, e.Written) :
    (Expr.array (.sym .openBracket) es).Written := by
  obtain ⟨args, rfl, has, had⟩ := Expr.written_all hes
  refine ⟨_, ?_, .array had⟩
  simpa [Expr.render] using has.brackets.closed.spells

theorem index {l i : Expr} (hl : l.Written) (hi : i.Written) :
    (Expr.index (.sym .openBracket) l i).Written := by
  obtain ⟨ts, hls, hld⟩ := hl
  obtain ⟨us, his, hid⟩ := hi
  have hall := hls.append_separates his.brackets
  have hd := hld.index hid.anywhere
  refine group (by simpa using hall.spells) hd (by decide) ?_
  simp [Expr.render]

theorem hash {ps : List (Expr × Expr)} (hps : ∀ p ∈ ps, p.1.Written ∧ p.2.Written) :
    (Expr.hash (.sym .openBrace) ps).Written := by
  obtain ⟨pairs, rfl, hps, hks, hvs⟩ := Expr.written_pairs hps
  refine ⟨_, ?_, .hash hks hvs .none⟩
  simpa [Expr.render] using hps.braces.closed.spells

end Expr.Written

/-! ## Statements and blocks -/

theorem separates_semicolon : Separates ";".toList [.sym .semicolon] :=
  separates_symbol (s := .semicolon) (by decide)

namespace Stmt.Written

theorem bind {x : Ident} {e : Expr} (hx : x.Built Token.Canonical) (he : e.Written) :
    (Stmt.bind (.word .letWord) x e).Written := by
  obtain ⟨x, rfl, hname⟩ := hx.exists_name
  obtain ⟨ts, hes, hed⟩ := he
  refine ⟨_, ?_, fun _ => .bind x hed.anywhere .semicolon⟩
  have hassign : Separates " = ".toList [.sym .assign] :=
    separates_blank.append (separates_symbol_blank .assign).closed
  have hleft := (closed_keyword_blank .letWord).append_spells (spells_ident hname)
  have hall := ((hleft.append_separates hassign).append_spells hes).append_separates
    separates_semicolon
  simpa [Stmt.render, Keyword.text] using hall

theorem ret {e : Expr} (he : e.Written) : (Stmt.ret (.word .returnWord) (some e)).Written := by
  obtain ⟨ts, hes, hed⟩ := he
  refine ⟨_, ?_, fun _ => .ret hed.anywhere .semicolon⟩
  have hall := ((closed_keyword_blank .returnWord).append_spells hes).append_separates
    separates_semicolon
  simpa [Stmt.render, Keyword.text] using hall

theorem retNone : (Stmt.ret (.word .returnWord) none).Written :=
  ⟨_, (spells_keyword .returnWord).append_separates separates_semicolon, fun _ => .retSemicolon⟩

theorem expr {e : Expr} (he : e.Written) : (Stmt.expr e).Written := by
  obtain ⟨ts, hes, hed⟩ := he
  refine ⟨_, ?_, fun _ => .expr hed.anywhere .semicolon⟩
  simpa [Stmt.render] using hes.append_separates separates_semicolon

end Stmt.Written

theorem Block.Written.mk {ss : List Stmt} (h : ∀ s ∈ ss, s.Written) :
    (Block.mk (.sym .openBrace) ss).Written := by
  obtain ⟨ts, hs, hd⟩ := Stmt.written_all " " separates_blank.closed h
  have hopen : Separates "\x7b ".toList [.sym .openBrace] := separates_symbol_blank .openBrace
  have hclose : Separates "\x7d".toList [.sym .closeBrace] :=
    separates_symbol (s := .closeBrace) (by decide)
  -- The blank before the closing brace is there only if there are statements.
  obtain ⟨cs, hcs, htext⟩ : ∃ cs, Closed cs ts ∧
      (Block.surround (ss.map Stmt.render)).toList = "\x7b ".toList ++ cs ++ "\x7d".toList := by
    cases ss with
    | nil => exact ⟨[], hs, rfl⟩
    | cons s ss =>
      have hblank := hs.append separates_blank.closed
      rw [List.append_nil] at hblank
      refine ⟨_, hblank, ?_⟩
      simp [Block.surround]
  refine ⟨_, ?_, .block (hd _)⟩
  rw [Block.render, Stmt.renderAll_eq_map, htext]
  exact (hopen.closed.append hcs).append hclose.closed

/-! ## Programs -/

theorem Syntax.hereditary_written :
    Syntax.Hereditary (fun e => e.Built Token.Canonical → e.Written)
      (fun s => s.Built Token.Canonical → s.Written)
      (fun b => b.Built Token.Canonical → b.Written) where
  ident _ h := .ident h
  int _ _ h := .int h
  str t s := by
    rintro ⟨rfl, hs⟩
    exact .str hs
  bool t b := by
    rintro rfl
    exact .bool b
  unary t op e he := by
    rintro ⟨rfl, hbe⟩
    exact (he hbe).unary
  binary t op l r hl hr := by
    rintro ⟨rfl, hbl, hbr⟩
    exact (hl hbl).binary (hr hbr)
  cond t c b hc hb := by
    rintro ⟨rfl, hbc, hbb⟩
    exact (hc hbc).cond (hb hbb)
  condElse t c b a hc hb ha := by
    rintro ⟨rfl, hbc, hbb, hba⟩
    exact (hc hbc).condElse (hb hbb) (ha hba)
  fn t ps b hb := by
    rintro ⟨rfl, hps, hbb⟩
    exact .fn hps (hb hbb)
  call t f es hf hes := by
    rintro ⟨rfl, hbf, hbes⟩
    exact (hf hbf).call fun e he => hes e he (Expr.builtAll_iff.1 hbes e he)
  array t es hes := by
    rintro ⟨rfl, hbes⟩
    exact .array fun e he => hes e he (Expr.builtAll_iff.1 hbes e he)
  index t l i hl hi := by
    rintro ⟨rfl, hbl, hbi⟩
    exact (hl hbl).index (hi hbi)
  hash t ps hps := by
    rintro ⟨rfl, hbps⟩
    rw [Expr.builtPairs_iff] at hbps
    exact .hash fun p hp => ⟨(hps p hp).1 (hbps p hp).1, (hps p hp).2 (hbps p hp).2⟩
  bind t x e he := by
    rintro ⟨rfl, hx, hbe⟩
    exact .bind hx (he hbe)
  ret t e he := by
    rintro ⟨rfl, hbe⟩
    exact .ret (he hbe)
  retNone t := by
    rintro rfl
    exact .retNone
  exprStmt e he h := .expr (he h)
  blockStmt _ _ := nofun
  body t ss hss := by
    rintro ⟨rfl, hbss⟩
    exact .mk fun s hs => hss s hs (Stmt.builtAll_iff.1 hbss s hs)

/-- The tokens that a canonical program is written with derive the program. -/
theorem Program.Built.derivedFrom_render {p : Program} (h : p.Canonical) :
    p.DerivedFrom (Token.scan p.render) := by
  obtain ⟨ts, hs, hd⟩ := Stmt.written_all " " separates_blank.closed
    fun s hs => Syntax.hereditary_written.stmt s (h s hs)
  rw [Token.scan, Program.render, hs.scanChars_eq]
  exact hd .eof

end Monkey
