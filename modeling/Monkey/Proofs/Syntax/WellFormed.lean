import Monkey.Program.Render
import Monkey.Proofs.Syntax.Induction
import Monkey.Token.Scan

/-! # Programs that could have been read

Every node of a program keeps the token that it was read from. `Expr.Built T` and its companions say
that each node holds a token that fits it, and that the tokens with a text of their own (names,
numbers and quoted texts) satisfy `T`. Two choices of `T` matter: `Token.Lexed` holds of what a text
is split into, and `Token.Canonical` of what comes out when a program is written.

The two differ in the digits of numbers only. `Program.normalize` puts the canonical digits in place
of those that were read. This keeps the program as it is written (`Program.render_normalize`), and
makes a program built from lexed tokens canonical (`Program.Built.normalize`).
-/

namespace Monkey

/-! ## Texts of tokens -/

/-- A letter or an underscore, then letters, digits and underscores; and no keyword. -/
def IsName (s : String) : Prop :=
  (∃ c cs, s.toList = c :: cs ∧ Token.isLetter c = true ∧ ∀ d ∈ cs, Token.isWordChar d = true) ∧
    ∀ k : Keyword, k.text ≠ s

/-- One decimal digit or more. -/
def IsNumeral (s : String) : Prop := s.toList ≠ [] ∧ ∀ c ∈ s.toList, c.isDigit = true

/-- The number that decimal digits denote. -/
def decimal (digits : String) : Nat := Nat.ofDigitChars 10 digits.toList 0

@[simp] theorem decimal_repr (n : Nat) : decimal n.repr = n := by
  rw [decimal, Nat.toList_repr, Nat.ofDigitChars_ten_toDigits]

theorem isNumeral_repr (n : Nat) : IsNumeral n.repr := by
  rw [IsNumeral, Nat.toList_repr]
  exact ⟨Nat.toDigits_ne_nil, fun _ hc => Nat.isDigit_of_mem_toDigits (by decide) (by decide) hc⟩

theorem Integer.ofDigits?_eq_some {digits : String} {n : Integer} :
    Integer.ofDigits? digits = some n ↔ n.val = decimal digits :=
  Integer.ofInt?_eq_some

theorem Integer.text_of_val {n : Integer} {m : Nat} (h : n.val = m) : n.text = m.repr := by
  rw [Integer.text, h]

namespace Token

/-- A token as it comes out of a text. The end of the text is not among them. -/
def Lexed : Token → Prop
  | .illegal _ | .sym _ | .word _ => True
  | .eof => False
  | .ident name => IsName name
  | .int digits => IsNumeral digits
  | .str text => '"' ∉ text.toList

/-- A lexed token in which a number has no leading zeros. -/
def Canonical : Token → Prop
  | .int digits => digits = (decimal digits).repr
  | t => t.Lexed

theorem canonical_repr (n : Nat) : (Token.int n.repr).Canonical := by
  rw [Canonical, decimal_repr]

end Token

/-! ## Nodes and their tokens -/

/-- The name is that of its token. -/
def Ident.Built (T : Token → Prop) (id : Ident) : Prop := id.token = .ident id.name ∧ T id.token

mutual

/-- A number is what its digits denote, so it is not negative. That it is in range is part of its
type. -/
def Expr.Built (T : Token → Prop) : Expr → Prop
  | .ident id => id.Built T
  | .int t n => ∃ digits, t = .int digits ∧ T t ∧ n.val = decimal digits
  | .str t s => t = .str s ∧ T t
  | .bool t b => t = .word (if b then .trueWord else .falseWord)
  | .unary t op e => t = .sym op.symbol ∧ e.Built T
  | .binary t op l r => t = .sym op.symbol ∧ l.Built T ∧ r.Built T
  | .cond t c b none => t = .word .ifWord ∧ c.Built T ∧ b.Built T
  | .cond t c b (some a) => t = .word .ifWord ∧ c.Built T ∧ b.Built T ∧ a.Built T
  | .fn t ps b => t = .word .fnWord ∧ (∀ p ∈ ps, p.Built T) ∧ b.Built T
  | .call t f es => t = .sym .openParen ∧ f.Built T ∧ Expr.BuiltAll T es
  | .array t es => t = .sym .openBracket ∧ Expr.BuiltAll T es
  | .index t l i => t = .sym .openBracket ∧ l.Built T ∧ i.Built T
  | .hash t ps => t = .sym .openBrace ∧ Expr.BuiltPairs T ps

def Expr.BuiltAll (T : Token → Prop) : List Expr → Prop
  | [] => True
  | e :: es => e.Built T ∧ Expr.BuiltAll T es

def Expr.BuiltPairs (T : Token → Prop) : List (Expr × Expr) → Prop
  | [] => True
  | (k, v) :: ps => (k.Built T ∧ v.Built T) ∧ Expr.BuiltPairs T ps

/-- A block does not stand as a statement of its own. -/
def Stmt.Built (T : Token → Prop) : Stmt → Prop
  | .bind t x e => t = .word .letWord ∧ x.Built T ∧ e.Built T
  | .ret t none => t = .word .returnWord
  | .ret t (some e) => t = .word .returnWord ∧ e.Built T
  | .expr e => e.Built T
  | .block _ => False

def Stmt.BuiltAll (T : Token → Prop) : List Stmt → Prop
  | [] => True
  | s :: ss => s.Built T ∧ Stmt.BuiltAll T ss

def Block.Built (T : Token → Prop) : Block → Prop
  | .mk t ss => t = .sym .openBrace ∧ Stmt.BuiltAll T ss

end

def Program.Built (T : Token → Prop) (p : Program) : Prop := ∀ s ∈ p.statements, s.Built T

/-- Every node holds the token that its own rendering would be read from. -/
abbrev Program.Canonical (p : Program) : Prop := p.Built Token.Canonical

section Built

variable {T : Token → Prop}

theorem Expr.builtAll_iff {es : List Expr} : Expr.BuiltAll T es ↔ ∀ e ∈ es, e.Built T := by
  induction es with
  | nil => simp [Expr.BuiltAll]
  | cons e es ih => rw [Expr.BuiltAll, ih, List.forall_mem_cons]

theorem Expr.builtPairs_iff {ps : List (Expr × Expr)} :
    Expr.BuiltPairs T ps ↔ ∀ p ∈ ps, p.1.Built T ∧ p.2.Built T := by
  induction ps with
  | nil => simp [Expr.BuiltPairs]
  | cons p ps ih => rw [Expr.BuiltPairs, ih, List.forall_mem_cons]

theorem Stmt.builtAll_iff {ss : List Stmt} : Stmt.BuiltAll T ss ↔ ∀ s ∈ ss, s.Built T := by
  induction ss with
  | nil => simp [Stmt.BuiltAll]
  | cons s ss ih => rw [Stmt.BuiltAll, ih, List.forall_mem_cons]

/-- The token of a canonical number is what the number is written as, and the number is not
negative. -/
theorem Expr.built_int_canonical {t : Token} {n : Integer} :
    (Expr.int t n).Built Token.Canonical ↔ t = .int n.text ∧ 0 ≤ n.val := by
  constructor
  · rintro ⟨digits, rfl, ht, hn⟩
    rw [Integer.text_of_val hn, hn]
    exact ⟨congrArg Token.int ht, Int.natCast_nonneg _⟩
  · rintro ⟨rfl, hn⟩
    obtain ⟨m, hm⟩ := Int.eq_ofNat_of_zero_le hn
    rw [Integer.text_of_val hm]
    exact ⟨_, rfl, Token.canonical_repr m, by rw [decimal_repr, hm]⟩

end Built

/-! ## Canonical digits -/

mutual

/-- The same expression, with the digits in each token that the number is written with. -/
def Expr.normalize : Expr → Expr
  | .ident id => .ident id
  | .int _ n => .int (.int n.text) n
  | .str t s => .str t s
  | .bool t b => .bool t b
  | .unary t op e => .unary t op e.normalize
  | .binary t op l r => .binary t op l.normalize r.normalize
  | .cond t c b none => .cond t c.normalize b.normalize none
  | .cond t c b (some a) => .cond t c.normalize b.normalize (some a.normalize)
  | .fn t ps b => .fn t ps b.normalize
  | .call t f es => .call t f.normalize (Expr.normalizeAll es)
  | .array t es => .array t (Expr.normalizeAll es)
  | .index t l i => .index t l.normalize i.normalize
  | .hash t ps => .hash t (Expr.normalizePairs ps)

def Expr.normalizeAll : List Expr → List Expr
  | [] => []
  | e :: es => e.normalize :: Expr.normalizeAll es

def Expr.normalizePairs : List (Expr × Expr) → List (Expr × Expr)
  | [] => []
  | (k, v) :: ps => (k.normalize, v.normalize) :: Expr.normalizePairs ps

def Stmt.normalize : Stmt → Stmt
  | .bind t x e => .bind t x e.normalize
  | .ret t none => .ret t none
  | .ret t (some e) => .ret t (some e.normalize)
  | .expr e => .expr e.normalize
  | .block b => .block b.normalize

def Stmt.normalizeAll : List Stmt → List Stmt
  | [] => []
  | s :: ss => s.normalize :: Stmt.normalizeAll ss

def Block.normalize : Block → Block
  | .mk t ss => .mk t (Stmt.normalizeAll ss)

end

theorem Expr.normalizeAll_eq_map (es : List Expr) :
    Expr.normalizeAll es = es.map Expr.normalize := by
  induction es with
  | nil => rfl
  | cons e es ih => simp [Expr.normalizeAll, ih]

theorem Expr.normalizePairs_eq_map (ps : List (Expr × Expr)) :
    Expr.normalizePairs ps = ps.map fun p => (p.1.normalize, p.2.normalize) := by
  induction ps with
  | nil => rfl
  | cons p ps ih => simp [Expr.normalizePairs, ih]

theorem Stmt.normalizeAll_eq_map (ss : List Stmt) :
    Stmt.normalizeAll ss = ss.map Stmt.normalize := by
  induction ss with
  | nil => rfl
  | cons s ss ih => simp [Stmt.normalizeAll, ih]

def Program.normalize (p : Program) : Program := ⟨p.statements.map Stmt.normalize⟩

theorem Expr.renderAll_normalizeAll {es : List Expr}
    (h : ∀ e ∈ es, e.normalize.render = e.render) :
    Expr.renderAll (Expr.normalizeAll es) = Expr.renderAll es := by
  rw [Expr.renderAll_eq_map, Expr.renderAll_eq_map, Expr.normalizeAll_eq_map, List.map_map]
  exact List.map_congr_left h

theorem Expr.renderPairs_normalizePairs {ps : List (Expr × Expr)}
    (h : ∀ p ∈ ps, p.1.normalize.render = p.1.render ∧ p.2.normalize.render = p.2.render) :
    Expr.renderPairs (Expr.normalizePairs ps) = Expr.renderPairs ps := by
  rw [Expr.renderPairs_eq_map, Expr.renderPairs_eq_map, Expr.normalizePairs_eq_map, List.map_map]
  refine List.map_congr_left fun p hmem => ?_
  obtain ⟨hk, hv⟩ := h p hmem
  rw [Function.comp_apply, hk, hv]

theorem Stmt.map_render_normalize {ss : List Stmt} (h : ∀ s ∈ ss, s.normalize.render = s.render) :
    (ss.map Stmt.normalize).map Stmt.render = ss.map Stmt.render := by
  rw [List.map_map]
  exact List.map_congr_left h

/-- Writing does not look at the digits in the tokens. -/
theorem Syntax.hereditary_render_normalize :
    Syntax.Hereditary (fun e => e.normalize.render = e.render)
      (fun s => s.normalize.render = s.render) (fun b => b.normalize.render = b.render) where
  ident _ := rfl
  int _ _ := rfl
  str _ _ := rfl
  bool _ _ := rfl
  unary _ _ _ he := by simp only [Expr.normalize, Expr.render, he]
  binary _ _ _ _ hl hr := by simp only [Expr.normalize, Expr.render, hl, hr]
  cond _ _ _ hc hb := by simp only [Expr.normalize, Expr.render, hc, hb]
  condElse _ _ _ _ hc hb ha := by simp only [Expr.normalize, Expr.render, hc, hb, ha]
  fn _ _ _ hb := by simp only [Expr.normalize, Expr.render, hb]
  call _ _ _ hf hes := by
    simp only [Expr.normalize, Expr.render, hf, Expr.renderAll_normalizeAll hes]
  array _ _ hes := by simp only [Expr.normalize, Expr.render, Expr.renderAll_normalizeAll hes]
  index _ _ _ hl hi := by simp only [Expr.normalize, Expr.render, hl, hi]
  hash _ _ hps := by simp only [Expr.normalize, Expr.render, Expr.renderPairs_normalizePairs hps]
  bind _ _ _ he := by simp only [Stmt.normalize, Stmt.render, he]
  ret _ _ he := by simp only [Stmt.normalize, Stmt.render, he]
  retNone _ := rfl
  exprStmt _ he := by simp only [Stmt.normalize, Stmt.render, he]
  blockStmt _ hb := by simp only [Stmt.normalize, Stmt.render, hb]
  body _ _ hss := by
    simp only [Block.normalize, Block.render, Stmt.renderAll_eq_map, Stmt.normalizeAll_eq_map,
      Stmt.map_render_normalize hss]

theorem Program.render_normalize (p : Program) : p.normalize.render = p.render := by
  rw [Program.render, Program.render, Program.normalize, Stmt.map_render_normalize]
  exact fun s _ => Syntax.hereditary_render_normalize.stmt s

theorem Token.Lexed.canonical {t : Token} (h : t.Lexed) (hi : ∀ d, t ≠ .int d) : t.Canonical := by
  cases t with
  | int d => exact absurd rfl (hi d)
  | _ => exact h

theorem Ident.Built.canonical {id : Ident} (h : id.Built Token.Lexed) :
    id.Built Token.Canonical := by
  obtain ⟨ht, hl⟩ := h
  refine ⟨ht, hl.canonical ?_⟩
  rw [ht]
  exact nofun

theorem Expr.builtAll_normalizeAll {es : List Expr}
    (h : ∀ e ∈ es, e.Built Token.Lexed → e.normalize.Built Token.Canonical)
    (hes : Expr.BuiltAll Token.Lexed es) :
    Expr.BuiltAll Token.Canonical (Expr.normalizeAll es) := by
  rw [Expr.builtAll_iff] at hes
  rw [Expr.normalizeAll_eq_map, Expr.builtAll_iff, List.forall_mem_map]
  exact fun e hmem => h e hmem (hes e hmem)

/-- With canonical digits, what is built from lexed tokens is built from canonical ones. -/
theorem Syntax.hereditary_built_normalize :
    Syntax.Hereditary (fun e => e.Built Token.Lexed → e.normalize.Built Token.Canonical)
      (fun s => s.Built Token.Lexed → s.normalize.Built Token.Canonical)
      (fun b => b.Built Token.Lexed → b.normalize.Built Token.Canonical) where
  ident _ h := Ident.Built.canonical h
  int t n := by
    rintro ⟨digits, rfl, -, hn⟩
    exact Expr.built_int_canonical.2 ⟨rfl, by rw [hn]; exact Int.natCast_nonneg _⟩
  str t s := by
    rintro ⟨rfl, ht⟩
    exact ⟨rfl, ht.canonical nofun⟩
  bool _ _ h := h
  unary _ _ _ he h := ⟨h.1, he h.2⟩
  binary _ _ _ _ hl hr h := ⟨h.1, hl h.2.1, hr h.2.2⟩
  cond _ _ _ hc hb h := ⟨h.1, hc h.2.1, hb h.2.2⟩
  condElse _ _ _ _ hc hb ha h := ⟨h.1, hc h.2.1, hb h.2.2.1, ha h.2.2.2⟩
  fn _ _ _ hb h := ⟨h.1, fun p hp => (h.2.1 p hp).canonical, hb h.2.2⟩
  call _ _ _ hf hes h := ⟨h.1, hf h.2.1, Expr.builtAll_normalizeAll hes h.2.2⟩
  array _ _ hes h := ⟨h.1, Expr.builtAll_normalizeAll hes h.2⟩
  index _ _ _ hl hi h := ⟨h.1, hl h.2.1, hi h.2.2⟩
  hash _ ps hp := by
    rintro ⟨ht, hb⟩
    rw [Expr.builtPairs_iff] at hb
    refine ⟨ht, ?_⟩
    rw [Expr.normalizePairs_eq_map, Expr.builtPairs_iff, List.forall_mem_map]
    exact fun p hmem => ⟨(hp p hmem).1 (hb p hmem).1, (hp p hmem).2 (hb p hmem).2⟩
  bind _ _ _ he h := ⟨h.1, h.2.1.canonical, he h.2.2⟩
  ret _ _ he h := ⟨h.1, he h.2⟩
  retNone _ h := h
  exprStmt _ he h := he h
  blockStmt _ _ h := h
  body _ ss hs := by
    rintro ⟨ht, hb⟩
    rw [Stmt.builtAll_iff] at hb
    refine ⟨ht, ?_⟩
    rw [Stmt.normalizeAll_eq_map, Stmt.builtAll_iff, List.forall_mem_map]
    exact fun s hmem => hs s hmem (hb s hmem)

theorem Program.Built.normalize {p : Program} (h : p.Built Token.Lexed) :
    p.normalize.Canonical := by
  intro s hs
  obtain ⟨s', hs', rfl⟩ := List.mem_map.1 hs
  exact Syntax.hereditary_built_normalize.stmt s' (h s' hs')

end Monkey
