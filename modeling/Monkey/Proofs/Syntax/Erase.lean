import Monkey.Proofs.Eval.Simulation
import Monkey.Proofs.Syntax.WellFormed

/-! # Programs without their tokens

`Expr.erase` and its companions put the same token in the place of every token of a program. What is
left are the nodes with their names, values and operators. Two programs that are equal after erasing
have matching nodes all the way down (`Expr.matches_of_erase_eq`), and are written in the same way
(`Stmt.render_eq_of_erase_eq`). Programs that differ in the digits of their numbers only, such as one
and its normal form, are equal after erasing (`Program.erase_normalize`).
-/

namespace Monkey

def Ident.erase (x : Ident) : Ident := ⟨.eof, x.name⟩

mutual

/-- The same expression, with nothing left in it of the tokens that it was read from. -/
def Expr.erase : Expr → Expr
  | .ident x => .ident x.erase
  | .int _ n => .int .eof n
  | .str _ s => .str .eof s
  | .bool _ b => .bool .eof b
  | .unary _ op e => .unary .eof op e.erase
  | .binary _ op l r => .binary .eof op l.erase r.erase
  | .cond _ c b a? => .cond .eof c.erase b.erase (Block.eraseOption a?)
  | .fn _ xs b => .fn .eof (xs.map Ident.erase) b.erase
  | .call _ f es => .call .eof f.erase (Expr.eraseAll es)
  | .array _ es => .array .eof (Expr.eraseAll es)
  | .index _ l i => .index .eof l.erase i.erase
  | .hash _ ps => .hash .eof (Expr.erasePairs ps)

def Expr.eraseOption : Option Expr → Option Expr
  | none => none
  | some e => some e.erase

def Expr.eraseAll : List Expr → List Expr
  | [] => []
  | e :: es => e.erase :: Expr.eraseAll es

def Expr.erasePairs : List (Expr × Expr) → List (Expr × Expr)
  | [] => []
  | (k, v) :: ps => (k.erase, v.erase) :: Expr.erasePairs ps

def Stmt.erase : Stmt → Stmt
  | .bind _ x e => .bind .eof x.erase e.erase
  | .ret _ e? => .ret .eof (Expr.eraseOption e?)
  | .expr e => .expr e.erase
  | .block b => .block b.erase

def Stmt.eraseAll : List Stmt → List Stmt
  | [] => []
  | s :: ss => s.erase :: Stmt.eraseAll ss

def Block.erase : Block → Block
  | .mk _ ss => .mk .eof (Stmt.eraseAll ss)

def Block.eraseOption : Option Block → Option Block
  | none => none
  | some b => some b.erase

end

def Program.erase (p : Program) : Program := ⟨p.statements.map Stmt.erase⟩

theorem Expr.eraseAll_eq_map (es : List Expr) : Expr.eraseAll es = es.map Expr.erase := by
  induction es with
  | nil => rfl
  | cons e es ih => rw [Expr.eraseAll, ih, List.map_cons]

theorem Expr.erasePairs_eq_map (ps : List (Expr × Expr)) :
    Expr.erasePairs ps = ps.map fun p => (p.1.erase, p.2.erase) := by
  induction ps with
  | nil => rfl
  | cons p ps ih => rw [Expr.erasePairs, ih, List.map_cons]

theorem Stmt.eraseAll_eq_map (ss : List Stmt) : Stmt.eraseAll ss = ss.map Stmt.erase := by
  induction ss with
  | nil => rfl
  | cons s ss ih => rw [Stmt.eraseAll, ih, List.map_cons]

theorem Block.erase_eq_iff {b c : Block} :
    b.erase = c.erase ↔ List.Forall₂ (fun c d => c.erase = d.erase) b.statements c.statements := by
  obtain ⟨t, ss⟩ := b
  obtain ⟨u, ts⟩ := c
  rw [Block.erase, Block.erase, Stmt.eraseAll_eq_map, Stmt.eraseAll_eq_map, Block.mk.injEq,
    map_eq_map_iff]
  exact and_iff_right rfl

/-! ## Matching nodes -/

theorem Expr.forall₂_of_eraseAll_eq {ds es : List Expr} (h : Expr.eraseAll ds = Expr.eraseAll es) :
    List.Forall₂ (fun d e => d.erase = e.erase) ds es := by
  rw [Expr.eraseAll_eq_map, Expr.eraseAll_eq_map] at h
  exact map_eq_map_iff.1 h

/-- Expressions that are equal after erasing are of the same kind, and so are their parts. -/
theorem Expr.matches_of_erase_eq {d e : Expr} (h : d.erase = e.erase) :
    d.Matches (fun d e => d.erase = e.erase) (fun c d => c.erase = d.erase) e := by
  cases d with
  | ident x =>
    cases e with
    | ident y =>
      simp only [Expr.erase, Expr.ident.injEq, Ident.erase, Ident.mk.injEq] at h
      exact .ident h.2
    | _ => cases h
  | int t m =>
    cases e with
    | int u n =>
      simp only [Expr.erase, Expr.int.injEq] at h
      obtain ⟨-, rfl⟩ := h
      exact .int m
    | _ => cases h
  | str t m =>
    cases e with
    | str u n =>
      simp only [Expr.erase, Expr.str.injEq] at h
      obtain ⟨-, rfl⟩ := h
      exact .str m
    | _ => cases h
  | bool t m =>
    cases e with
    | bool u n =>
      simp only [Expr.erase, Expr.bool.injEq] at h
      obtain ⟨-, rfl⟩ := h
      exact .bool m
    | _ => cases h
  | unary t op d =>
    cases e with
    | unary u op' e =>
      simp only [Expr.erase, Expr.unary.injEq] at h
      obtain ⟨-, rfl, hde⟩ := h
      exact .unary op hde
    | _ => cases h
  | binary t op d d' =>
    cases e with
    | binary u op' e e' =>
      simp only [Expr.erase, Expr.binary.injEq] at h
      obtain ⟨-, rfl, hl, hr⟩ := h
      exact .binary op hl hr
    | _ => cases h
  | cond t d b b'? =>
    cases e with
    | cond u e c c'? =>
      simp only [Expr.erase, Expr.cond.injEq] at h
      obtain ⟨-, hde, hbc, halt⟩ := h
      rcases b'? with _ | b' <;> rcases c'? with _ | c'
      · exact .cond hde (Block.erase_eq_iff.1 hbc)
      · cases halt
      · cases halt
      · exact .condElse hde (Block.erase_eq_iff.1 hbc) (Block.erase_eq_iff.1 (Option.some.inj halt))
    | _ => cases h
  | fn t xs b =>
    cases e with
    | fn u ys c => exact .fn
    | _ => cases h
  | call t d ds =>
    cases e with
    | call u e es =>
      simp only [Expr.erase, Expr.call.injEq] at h
      obtain ⟨-, hde, hall⟩ := h
      exact .call hde (Expr.forall₂_of_eraseAll_eq hall)
    | _ => cases h
  | array t ds =>
    cases e with
    | array u es =>
      simp only [Expr.erase, Expr.array.injEq] at h
      exact .array (Expr.forall₂_of_eraseAll_eq h.2)
    | _ => cases h
  | index t d d' =>
    cases e with
    | index u e e' =>
      simp only [Expr.erase, Expr.index.injEq] at h
      exact .index h.2.1 h.2.2
    | _ => cases h
  | hash t ps =>
    cases e with
    | hash u qs =>
      simp only [Expr.erase, Expr.hash.injEq, Expr.erasePairs_eq_map, map_eq_map_iff] at h
      exact .hash (h.2.imp fun _ _ hpq => Prod.mk.inj hpq)
    | _ => cases h

theorem Stmt.matches_of_erase_eq {r s : Stmt} (h : r.erase = s.erase) :
    r.Matches (fun d e => d.erase = e.erase) (fun c d => c.erase = d.erase) s := by
  cases r with
  | bind t x d =>
    cases s with
    | bind u y e =>
      simp only [Stmt.erase, Stmt.bind.injEq, Ident.erase, Ident.mk.injEq] at h
      exact .bind h.2.1.2 h.2.2
    | _ => cases h
  | ret t d? =>
    cases s with
    | ret u e? =>
      simp only [Stmt.erase, Stmt.ret.injEq] at h
      obtain ⟨-, hde⟩ := h
      rcases d? with _ | d <;> rcases e? with _ | e
      · exact .retNone
      · cases hde
      · cases hde
      · exact .ret (Option.some.inj hde)
    | _ => cases h
  | expr d =>
    cases s with
    | expr e =>
      simp only [Stmt.erase, Stmt.expr.injEq] at h
      exact .expr h
    | _ => cases h
  | block b =>
    cases s with
    | block c =>
      simp only [Stmt.erase, Stmt.block.injEq] at h
      exact .block (Block.erase_eq_iff.1 h)
    | _ => cases h

/-! ## Writing -/

theorem Ident.map_name_erase (xs : List Ident) :
    (xs.map Ident.erase).map Ident.name = xs.map Ident.name := by
  rw [List.map_map]
  rfl

/-- Functions that are equal after erasing have parameters of the same names. -/
theorem Expr.fn_of_erase_eq {t u : Token} {xs ys : List Ident} {b c : Block}
    (h : (Expr.fn t xs b).erase = (Expr.fn u ys c).erase) :
    xs.map Ident.name = ys.map Ident.name ∧ b.erase = c.erase := by
  simp only [Expr.erase, Expr.fn.injEq] at h
  obtain ⟨-, hxy, hbc⟩ := h
  rw [← Ident.map_name_erase xs, hxy, Ident.map_name_erase]
  exact ⟨rfl, hbc⟩

theorem Expr.renderAll_eraseAll {es : List Expr} (h : ∀ e ∈ es, e.erase.render = e.render) :
    Expr.renderAll (Expr.eraseAll es) = Expr.renderAll es := by
  rw [Expr.renderAll_eq_map, Expr.renderAll_eq_map, Expr.eraseAll_eq_map, List.map_map]
  exact List.map_congr_left h

theorem Expr.renderPairs_erasePairs {ps : List (Expr × Expr)}
    (h : ∀ p ∈ ps, p.1.erase.render = p.1.render ∧ p.2.erase.render = p.2.render) :
    Expr.renderPairs (Expr.erasePairs ps) = Expr.renderPairs ps := by
  rw [Expr.renderPairs_eq_map, Expr.renderPairs_eq_map, Expr.erasePairs_eq_map, List.map_map]
  refine List.map_congr_left fun p hmem => ?_
  obtain ⟨hk, hv⟩ := h p hmem
  rw [Function.comp_apply, hk, hv]

theorem Stmt.renderAll_eraseAll {ss : List Stmt} (h : ∀ s ∈ ss, s.erase.render = s.render) :
    Stmt.renderAll (Stmt.eraseAll ss) = Stmt.renderAll ss := by
  rw [Stmt.renderAll_eq_map, Stmt.renderAll_eq_map, Stmt.eraseAll_eq_map, List.map_map]
  exact List.map_congr_left h

/-- Writing does not look at tokens. -/
theorem Syntax.hereditary_render_erase :
    Syntax.Hereditary (fun e => e.erase.render = e.render) (fun s => s.erase.render = s.render)
      (fun b => b.erase.render = b.render) where
  ident _ := rfl
  int _ _ := rfl
  str _ _ := rfl
  bool _ _ := rfl
  unary _ _ _ he := by simp only [Expr.erase, Expr.render, he]
  binary _ _ _ _ hl hr := by simp only [Expr.erase, Expr.render, hl, hr]
  cond _ _ _ hc hb := by simp only [Expr.erase, Block.eraseOption, Expr.render, hc, hb]
  condElse _ _ _ _ hc hb ha := by
    simp only [Expr.erase, Block.eraseOption, Expr.render, hc, hb, ha]
  fn _ _ _ hb := by simp only [Expr.erase, Expr.render, Ident.map_name_erase, hb]
  call _ _ _ hf hes := by simp only [Expr.erase, Expr.render, hf, Expr.renderAll_eraseAll hes]
  array _ _ hes := by simp only [Expr.erase, Expr.render, Expr.renderAll_eraseAll hes]
  index _ _ _ hl hi := by simp only [Expr.erase, Expr.render, hl, hi]
  hash _ _ hps := by simp only [Expr.erase, Expr.render, Expr.renderPairs_erasePairs hps]
  bind _ _ _ he := by simp only [Stmt.erase, Stmt.render, Ident.erase, he]
  ret _ _ he := by simp only [Stmt.erase, Expr.eraseOption, Stmt.render, he]
  retNone _ := rfl
  exprStmt _ he := by simp only [Stmt.erase, Stmt.render, he]
  blockStmt _ hb := by simp only [Stmt.erase, Stmt.render, hb]
  body _ _ hss := by simp only [Block.erase, Block.render, Stmt.renderAll_eraseAll hss]

theorem Stmt.render_eq_of_erase_eq {c d : Stmt} (h : c.erase = d.erase) : c.render = d.render := by
  rw [← Syntax.hereditary_render_erase.stmt c, h, Syntax.hereditary_render_erase.stmt d]

/-! ## Normal forms -/

theorem Expr.eraseAll_normalizeAll {es : List Expr} (h : ∀ e ∈ es, e.normalize.erase = e.erase) :
    Expr.eraseAll (Expr.normalizeAll es) = Expr.eraseAll es := by
  rw [Expr.eraseAll_eq_map, Expr.eraseAll_eq_map, Expr.normalizeAll_eq_map, List.map_map]
  exact List.map_congr_left h

/-- Canonical digits are put into tokens only. -/
theorem Syntax.hereditary_erase_normalize :
    Syntax.Hereditary (fun e => e.normalize.erase = e.erase) (fun s => s.normalize.erase = s.erase)
      (fun b => b.normalize.erase = b.erase) where
  ident _ := rfl
  int _ _ := rfl
  str _ _ := rfl
  bool _ _ := rfl
  unary _ _ _ he := by simp only [Expr.normalize, Expr.erase, he]
  binary _ _ _ _ hl hr := by simp only [Expr.normalize, Expr.erase, hl, hr]
  cond _ _ _ hc hb := by simp only [Expr.normalize, Expr.erase, Block.eraseOption, hc, hb]
  condElse _ _ _ _ hc hb ha := by
    simp only [Expr.normalize, Expr.erase, Block.eraseOption, hc, hb, ha]
  fn _ _ _ hb := by simp only [Expr.normalize, Expr.erase, hb]
  call _ _ _ hf hes := by
    simp only [Expr.normalize, Expr.erase, hf, Expr.eraseAll_normalizeAll hes]
  array _ _ hes := by simp only [Expr.normalize, Expr.erase, Expr.eraseAll_normalizeAll hes]
  index _ _ _ hl hi := by simp only [Expr.normalize, Expr.erase, hl, hi]
  hash _ _ hps := by
    simp only [Expr.normalize, Expr.erase, Expr.normalizePairs_eq_map, Expr.erasePairs_eq_map,
      List.map_map, Expr.hash.injEq, true_and]
    refine List.map_congr_left fun p hmem => ?_
    exact Prod.ext (hps p hmem).1 (hps p hmem).2
  bind _ _ _ he := by simp only [Stmt.normalize, Stmt.erase, he]
  ret _ _ he := by simp only [Stmt.normalize, Stmt.erase, Expr.eraseOption, he]
  retNone _ := rfl
  exprStmt _ he := by simp only [Stmt.normalize, Stmt.erase, he]
  blockStmt _ hb := by simp only [Stmt.normalize, Stmt.erase, hb]
  body _ _ hss := by
    simp only [Block.normalize, Block.erase, Stmt.normalizeAll_eq_map, Stmt.eraseAll_eq_map,
      List.map_map, Block.mk.injEq, true_and]
    exact List.map_congr_left hss

theorem Program.erase_normalize (p : Program) : p.normalize.erase = p.erase := by
  rw [Program.erase, Program.erase, Program.normalize, List.map_map]
  exact congrArg Program.mk
    (List.map_congr_left fun s _ => Syntax.hereditary_erase_normalize.stmt s)

end Monkey
