import Monkey.Proofs.Syntax.WellFormed
import Monkey.Reading.Level

/-! # The grammar

`Derives ts p` says that the tokens `ts`, taken together, can stand for the phrase `p`. There is one
constructor for each production. Expressions come in levels, and those of a level are built from
those of the same level on the left and of the next tighter one on the right:

* `E₁`, the level `equality`, with `==` and `!=`, is what stands wherever any expression may stand;
* `E₂` to `E₄` are `order` with `<` and `>`, `sum` with `+` and `-`, `product` with `*` and `/`;
* `E₅`, the level `unary`, has `-` and `!` in front;
* `E₆`, the level `suffix`, has calls and index brackets behind, and everything that is closed in
  itself.

A statement that ends in an expression may do without its semicolon where the next token cannot be
taken for a part of the expression. So a statement is derived together with the token behind it.
-/

namespace Monkey

/-- The next tighter level. -/
def Level.next : Level → Level
  | .lowest => .equality
  | .equality => .order
  | .order => .sum
  | .sum => .product
  | .product => .unary
  | .unary | .suffix => .suffix

namespace Grammar

/-- Runs of tokens, with a comma between each two of them. -/
def commas (parts : List (List Token)) : List Token := [Token.sym .comma].intercalate parts

/-- What a run of tokens can stand for. -/
inductive Phrase where
  | expr (level : Level) (e : Expr)
  | block (b : Block)
  /-- A statement that has the token `next` behind it. -/
  | stmt (next : Token) (s : Stmt)
  /-- Statements that have the token `next` behind the last of them. -/
  | stmts (next : Token) (ss : List Stmt)

/-- The token makes a larger expression of an expression that it follows. -/
def Continues (t : Token) : Prop := ∃ k : Follow, t = .sym k.symbol

/-- How a statement ends behind an expression, if `next` is the token after it. -/
inductive Ending (next : Token) : List Token → Prop where
  | semicolon : Ending next [.sym .semicolon]
  | bare (h : ¬Continues next) : Ending next []

/-- The comma behind the last of some pairs, which may be there if there are any. -/
inductive Trailing {α : Type} (pairs : List α) : List Token → Prop where
  | none : Trailing pairs []
  | comma (h : pairs ≠ []) : Trailing pairs [.sym .comma]

/-- Whether a comma may stand behind some pairs depends on whether there are any. -/
theorem Trailing.of_ne_nil {α : Type} {as bs : List α} {last : List Token} (h : Trailing as last)
    (hbs : bs ≠ []) : Trailing bs last := by
  cases h with
  | none => exact .none
  | comma _ => exact .comma hbs

/-- An expression beside the tokens that it is derived from. -/
abbrev Part : Type := List Token × Expr

/-- A key and a value with a colon between them. -/
def pairTokens (p : Part × Part) : List Token := p.1.1 ++ .sym .colon :: p.2.1

inductive Derives : List Token → Phrase → Prop where
  /-- `Eₙ ::= Eₙ op Eₙ₊₁`, for the operators of each level. -/
  | binary {ts us l r} (op : BinaryOp) (hl : Derives ts (.expr op.level l))
      (hr : Derives us (.expr op.level.next r)) :
      Derives (ts ++ .sym op.symbol :: us) (.expr op.level (.binary (.sym op.symbol) op l r))
  /-- `Eₙ ::= Eₙ₊₁`. -/
  | tighter {ts l e} (h : Derives ts (.expr l.next e)) : Derives ts (.expr l e)
  /-- `E₅ ::= (- | !) E₅`. -/
  | unary {ts e} (op : UnaryOp) (h : Derives ts (.expr .unary e)) :
      Derives (.sym op.symbol :: ts) (.expr .unary (.unary (.sym op.symbol) op e))
  /-- `E₆ ::= E₆ ( args )`. -/
  | call {ts f} {args : List Part} (hf : Derives ts (.expr .suffix f))
      (hargs : ∀ p ∈ args, Derives p.1 (.expr .equality p.2)) :
      Derives (ts ++ .sym .openParen :: commas (args.map Prod.fst) ++ [.sym .closeParen])
        (.expr .suffix (.call (.sym .openParen) f (args.map Prod.snd)))
  /-- `E₆ ::= E₆ [ E₁ ]`. -/
  | index {ts us l i} (hl : Derives ts (.expr .suffix l)) (hi : Derives us (.expr .equality i)) :
      Derives (ts ++ .sym .openBracket :: us ++ [.sym .closeBracket])
        (.expr .suffix (.index (.sym .openBracket) l i))
  | ident (name : String) :
      Derives [.ident name] (.expr .suffix (.ident ⟨.ident name, name⟩))
  /-- An integer is never too large, so digits that are derive nothing. -/
  | int {digits : String} {n : Integer} (h : n.val = decimal digits) :
      Derives [.int digits] (.expr .suffix (.int (.int digits) n))
  | str (text : String) : Derives [.str text] (.expr .suffix (.str (.str text) text))
  | true : Derives [.word .trueWord] (.expr .suffix (.bool (.word .trueWord) true))
  | false : Derives [.word .falseWord] (.expr .suffix (.bool (.word .falseWord) false))
  /-- `( E₁ )`. The parentheses leave no trace. -/
  | group {ts e} (h : Derives ts (.expr .equality e)) :
      Derives (.sym .openParen :: ts ++ [.sym .closeParen]) (.expr .suffix e)
  /-- `if ( E₁ ) block`. -/
  | cond {ts us c b} (hc : Derives ts (.expr .equality c)) (hb : Derives us (.block b)) :
      Derives (.word .ifWord :: .sym .openParen :: ts ++ .sym .closeParen :: us)
        (.expr .suffix (.cond (.word .ifWord) c b none))
  /-- `if ( E₁ ) block else block`. -/
  | condElse {ts us vs c b a} (hc : Derives ts (.expr .equality c)) (hb : Derives us (.block b))
      (ha : Derives vs (.block a)) :
      Derives (.word .ifWord :: .sym .openParen :: ts ++ .sym .closeParen :: us ++
          .word .elseWord :: vs)
        (.expr .suffix (.cond (.word .ifWord) c b (some a)))
  /-- `fn ( params ) block`. -/
  | fn {us b} (names : List String) (hb : Derives us (.block b)) :
      Derives (.word .fnWord :: .sym .openParen :: commas (names.map fun x => [.ident x]) ++
          .sym .closeParen :: us)
        (.expr .suffix (.fn (.word .fnWord) (names.map fun x => ⟨.ident x, x⟩) b))
  /-- `[ args ]`. -/
  | array {args : List Part} (hargs : ∀ p ∈ args, Derives p.1 (.expr .equality p.2)) :
      Derives (.sym .openBracket :: commas (args.map Prod.fst) ++ [.sym .closeBracket])
        (.expr .suffix (.array (.sym .openBracket) (args.map Prod.snd)))
  /-- `{ pairs }`, where the last pair may have a comma behind it. -/
  | hash {pairs : List (Part × Part)} {last : List Token}
      (hkeys : ∀ p ∈ pairs, Derives p.1.1 (.expr .equality p.1.2))
      (hvalues : ∀ p ∈ pairs, Derives p.2.1 (.expr .equality p.2.2))
      (hend : Trailing pairs last) :
      Derives (.sym .openBrace :: commas (pairs.map pairTokens) ++ last ++ [.sym .closeBrace])
        (.expr .suffix (.hash (.sym .openBrace) (pairs.map fun p => (p.1.2, p.2.2))))
  /-- `{ statement* }`. -/
  | block {ts ss} (h : Derives ts (.stmts (.sym .closeBrace) ss)) :
      Derives (.sym .openBrace :: ts ++ [.sym .closeBrace]) (.block (.mk (.sym .openBrace) ss))
  /-- `let IDENT = E₁`. -/
  | bind {ts us e next} (x : String) (h : Derives ts (.expr .equality e))
      (hend : Ending next us) :
      Derives (.word .letWord :: .ident x :: .sym .assign :: ts ++ us)
        (.stmt next (.bind (.word .letWord) ⟨.ident x, x⟩ e))
  /-- `return E₁`. -/
  | ret {ts us e next} (h : Derives ts (.expr .equality e)) (hend : Ending next us) :
      Derives (.word .returnWord :: ts ++ us) (.stmt next (.ret (.word .returnWord) (some e)))
  /-- `return` before a semicolon, which belongs to it. -/
  | retSemicolon {next} :
      Derives [.word .returnWord, .sym .semicolon] (.stmt next (.ret (.word .returnWord) none))
  /-- `return` alone. -/
  | retBare {next}
      (h : next = .sym .semicolon ∨ next = .sym .closeBrace ∨ next = .eof) :
      Derives [.word .returnWord] (.stmt next (.ret (.word .returnWord) none))
  /-- `E₁` as a statement. -/
  | expr {ts us e next} (h : Derives ts (.expr .equality e)) (hend : Ending next us) :
      Derives (ts ++ us) (.stmt next (.expr e))
  | nil {next} : Derives [] (.stmts next [])
  /-- The token behind a statement is the first one of the rest. -/
  | cons {ts us s ss next} (h : Derives ts (.stmt (us.headD next) s))
      (hs : Derives us (.stmts next ss)) : Derives (ts ++ us) (.stmts next (s :: ss))

/-! ## Levels -/

/-- What is derived on a level is derived on every looser one. -/
theorem Derives.loosen {ts : List Token} {e : Expr} {k l : Level} (h : Derives ts (.expr l e))
    (hkl : k.rank ≤ l.rank) : Derives ts (.expr k e) := by
  induction hd : l.rank - k.rank generalizing k with
  | zero =>
    have hr : k.rank = l.rank := by omega
    have hk : k = l := by revert hr; cases k <;> cases l <;> decide
    exact hk ▸ h
  | succ d ih =>
    have hn : k.next.rank = k.rank + 1 := by
      cases k with
      | suffix => cases l <;> cases hd
      | _ => rfl
    exact .tighter (ih (by omega) (by omega))

/-- What is closed in itself can stand wherever an expression can. -/
theorem Derives.anywhere {ts : List Token} {e : Expr} (h : Derives ts (.expr .suffix e)) :
    Derives ts (.expr .equality e) :=
  h.loosen (by decide)

/-! ## First tokens -/

/-- Expressions start with these tokens. -/
def opensExpr : Token → Bool
  | .ident _ | .int _ | .str _ => true
  | .word .trueWord | .word .falseWord | .word .ifWord | .word .fnWord => true
  | .sym .minus | .sym .bang | .sym .openParen | .sym .openBracket | .sym .openBrace => true
  | _ => false

/-- Statements start with these tokens. -/
def opensStmt (t : Token) : Bool :=
  opensExpr t || t = .word .letWord || t = .word .returnWord

theorem opensStmt_of_opensExpr {t : Token} (h : opensExpr t = true) : opensStmt t = true := by
  rw [opensStmt, h, Bool.true_or, Bool.true_or]

/-- Where the phrase starts with a token, it is one that such a phrase can start with. -/
def Opens (ts : List Token) : Phrase → Prop
  | .expr _ _ => ∃ t us, ts = t :: us ∧ opensExpr t = true
  | .block _ => ∃ us, ts = .sym .openBrace :: us
  | .stmt _ _ => ∃ t us, ts = t :: us ∧ opensStmt t = true
  | .stmts _ _ => ts = [] ∨ ∃ t us, ts = t :: us ∧ opensStmt t = true

theorem Derives.opens {ts : List Token} {p : Phrase} (h : Derives ts p) : Opens ts p := by
  induction h with
  | binary _ _ _ ih | call _ _ ih | index _ _ ih =>
    obtain ⟨t, us, rfl, ht⟩ := ih
    exact ⟨t, _, rfl, ht⟩
  | tighter _ ih => exact ih
  | unary op _ _ => cases op <;> exact ⟨_, _, rfl, rfl⟩
  | ident | int | str | true | false | group | cond | condElse | fn | array | hash =>
    exact ⟨_, _, rfl, rfl⟩
  | block => exact ⟨_, rfl⟩
  | bind | ret | retSemicolon | retBare => exact ⟨_, _, rfl, rfl⟩
  | expr _ _ ih =>
    obtain ⟨t, us, rfl, ht⟩ := ih
    exact ⟨t, _, rfl, opensStmt_of_opensExpr ht⟩
  | nil => exact .inl rfl
  | cons _ _ ih _ =>
    obtain ⟨t, us, rfl, ht⟩ := ih
    exact .inr ⟨t, _, rfl, ht⟩

/-! ## Last tokens -/

section Last

variable {ts us : List Token} {t : Token}

theorem getLast?_ne_of_tail (ts : List Token) (ht : t ≠ .sym .semicolon)
    (h : us.getLast? ≠ some (.sym .semicolon)) :
    (ts ++ t :: us).getLast? ≠ some (.sym .semicolon) := by
  rw [List.getLast?_append, List.getLast?_cons, Option.some_or]
  rcases hu : us.getLast? with _ | u
  · simpa using ht
  · rw [hu] at h
    exact h

theorem getLast?_ne_of_closed (ts : List Token) {s : Symbol} (hs : s ≠ .semicolon) :
    (ts ++ [Token.sym s]).getLast? ≠ some (.sym .semicolon) := by
  simpa using hs

/-- Without a token there is no statement. -/
theorem Derives.eq_nil {ss : List Stmt} {next : Token} (h : Derives ts (.stmts next ss))
    (hts : ts = []) : ss = [] := by
  cases h with
  | nil => rfl
  | cons h _ =>
    obtain ⟨t, vs, rfl, -⟩ := h.opens
    cases hts

/-- No expression and no block ends in a semicolon. Behind statements that do, any token may stand:
they have no need of it to know their end. -/
def Ends (ts : List Token) : Phrase → Prop
  | .expr _ _ | .block _ => ts.getLast? ≠ some (.sym .semicolon)
  | .stmt _ s => ts.getLast? = some (.sym .semicolon) → ∀ next, Derives ts (.stmt next s)
  | .stmts _ ss => ts.getLast? = some (.sym .semicolon) → ∀ next, Derives ts (.stmts next ss)

theorem Derives.ends {p : Phrase} (h : Derives ts p) : Ends ts p := by
  induction h with
  | binary op _ _ _ ih => exact getLast?_ne_of_tail _ (by cases op <;> decide) ih
  | tighter _ ih => exact ih
  | unary op _ ih => exact getLast?_ne_of_tail [] (by cases op <;> decide) ih
  | call | index | group | array | hash | block => exact getLast?_ne_of_closed _ (by decide)
  | ident | int | str | true | false => exact nofun
  | cond _ _ _ ih | condElse _ _ _ _ _ ih | fn _ _ ih => exact getLast?_ne_of_tail _ (by decide) ih
  | bind x h hend ih =>
    intro hlast next
    cases hend with
    | semicolon => exact .bind x h .semicolon
    | bare =>
      rw [List.append_nil] at hlast
      exact absurd hlast (getLast?_ne_of_tail [_, _] (by decide) ih)
  | ret h hend ih =>
    intro hlast next
    cases hend with
    | semicolon => exact .ret h .semicolon
    | bare =>
      rw [List.append_nil] at hlast
      exact absurd hlast (getLast?_ne_of_tail [] (by decide) ih)
  | retSemicolon => exact fun _ _ => .retSemicolon
  | retBare => exact nofun
  | expr h hend ih =>
    intro hlast next
    cases hend with
    | semicolon => exact .expr h .semicolon
    | bare =>
      rw [List.append_nil] at hlast
      exact absurd hlast ih
  | nil => exact nofun
  | @cons ts us s ss next h hs ih ihs =>
    intro hlast next'
    -- Only the last statement sees the token behind all of them.
    cases us with
    | nil =>
      obtain rfl := hs.eq_nil rfl
      rw [List.append_nil] at hlast
      exact .cons (ih hlast next') .nil
    | cons u us =>
      rw [List.getLast?_append, List.getLast?_cons, Option.some_or, ← List.getLast?_cons] at hlast
      exact .cons h (ihs hlast next')

/-- Statements follow each other. -/
theorem Derives.append {ss rs : List Stmt} {next : Token}
    (h : Derives ts (.stmts (us.headD next) ss)) (h' : Derives us (.stmts next rs)) :
    Derives (ts ++ us) (.stmts next (ss ++ rs)) := by
  induction ss generalizing ts with
  | nil =>
    cases h with
    | nil => exact h'
  | cons s ss ih =>
    cases h with
    | @cons ts vs _ _ _ hs hss =>
      rw [List.append_assoc]
      have hhead : (vs ++ us).headD next = vs.headD (us.headD next) := by cases vs <;> rfl
      refine .cons ?_ (ih hss)
      rw [hhead]
      exact hs

end Last

end Grammar

/-- The tokens, up to the end of the text, derive the program. -/
def Program.DerivedFrom (p : Program) (ts : List Token) : Prop :=
  Grammar.Derives ts (.stmts .eof p.statements)

end Monkey
