import Monkey.Program.Equality
import Monkey.Proofs.Eval.Invariant
import Monkey.Proofs.RoundTrip
import Monkey.Session

/-! # Functions are shown as their source

A function is not shown in the way it is written in a program: each statement of its body stands on
a line of its own. What is shown is a text all the same, and it is read as a function with the same
parameters and the same body, up to the digits of the numbers in it: `Closure.Built.parse_inspect`.

This is so for functions that were read from a text themselves. A program makes no others, since the
function that it makes is a part of it; and a run starts with none. The invariant is
`Invariant.fromText`.
-/

namespace Monkey

open Token Grammar

/-! ## The text of a function -/

/-- Everything in the function holds a token that fits it. -/
structure Closure.Built (T : Token → Prop) (f : Closure) : Prop where
  params : ∀ p ∈ f.params, p.Built T
  body : f.body.Built T

/-- The same function, with canonical digits in its tokens. -/
def Closure.normalize (f : Closure) : Closure := { f with body := f.body.normalize }

theorem Block.lines_normalize (b : Block) : b.normalize.lines = b.lines := by
  obtain ⟨t, ss⟩ := b
  rw [Block.normalize, Block.lines, Block.lines, Block.statements_mk, Block.statements_mk,
    Stmt.normalizeAll_eq_map,
    Stmt.map_render_normalize fun s _ => Syntax.hereditary_render_normalize.stmt s]

@[simp] theorem Closure.inspect_normalize (f : Closure) : f.normalize.inspect = f.inspect := by
  rw [Closure.inspect, Closure.inspect, Closure.normalize, Block.lines_normalize]

/-- A body is spelled by its statements on lines of their own, between braces. -/
theorem Block.Built.closed_lines {b : Block} (h : b.Built Token.Canonical) :
    ∃ ts, Closed ("\x7b\n" ++ b.lines ++ "\n\x7d").toList ts ∧ Derives ts (.block b) := by
  obtain ⟨t, ss⟩ := b
  obtain ⟨rfl, hss⟩ := h
  have hfeed : Closed "\n".toList [] := fun rest => scanChars_blank (by decide) rest
  have hopen : Closed "\x7b".toList [.sym .openBrace] :=
    (separates_symbol (s := .openBrace) (by decide)).closed
  have hclose : Closed "\x7d".toList [.sym .closeBrace] :=
    (separates_symbol (s := .closeBrace) (by decide)).closed
  obtain ⟨ts, hts, hd⟩ := Stmt.written_all "\n" hfeed
    fun s hs => Syntax.hereditary_written.stmt s (Stmt.builtAll_iff.1 hss s hs)
  refine ⟨_, ?_, .block (hd _)⟩
  simpa [Block.lines] using (((hopen.append hfeed).append hts).append hfeed).append hclose

namespace Closure.Built

variable {f : Closure}

theorem normalize (h : f.Built Token.Lexed) : f.normalize.Built Token.Canonical where
  params p hp := (h.params p hp).canonical
  body := Syntax.hereditary_built_normalize.block f.body h.body

/-- The text that a function is shown as derives the function. -/
theorem derivedFrom_inspect (h : f.Built Token.Canonical) :
    Program.DerivedFrom ⟨[.expr (.fn (.word .fnWord) f.params f.body)]⟩ (Token.scan f.inspect) := by
  obtain ⟨ts, hts, hbody⟩ := h.body.closed_lines
  obtain ⟨us, hus, hfn⟩ := Expr.Written.closed_fn h.params hts hbody
  have hscan : Token.scan f.inspect = us ++ [] ++ [] := by
    rw [List.append_nil, List.append_nil, ← hus.scanChars_eq]
    simp [Token.scan, Closure.inspect]
  have hend : ¬Continues .eof := by
    rintro ⟨k, hk⟩
    cases hk
  rw [hscan]
  exact .cons (.expr hfn.anywhere (.bare hend)) .nil

/-- What is shown of a function is read as the function. -/
theorem parse_inspect (h : f.Built Token.Lexed) : Program.parse f.inspect =
    .ok ⟨[.expr (.fn (.word .fnWord) f.params f.body.normalize)]⟩ := by
  rw [← f.inspect_normalize]
  exact h.normalize.derivedFrom_inspect.parse_eq

/-- What is shown of a function makes a function that is shown in the same way. -/
theorem run_inspect (h : f.Built Token.Lexed) (depth : Nat) :
    run (depth + 2) f.inspect =
      some (.ok (.function ⟨0, f.params, f.body.normalize, 0⟩), { Store.fresh with functions := 1 }) := by
  rw [run, Store.run, h.parse_inspect]
  rfl

end Closure.Built

/-! ## Functions that come from a text -/

section Parts

variable {T : Token → Prop}

/-- The parts of an expression that is built from tokens are built from them too. -/
theorem Expr.Built.matches_self {e : Expr} (h : e.Built T) :
    e.Matches (fun d e => d = e ∧ d.Built T) (fun c d => c = d ∧ c.Built T) e := by
  have hblock {b : Block} (hb : b.Built T) :
      List.Forall₂ (fun c d => c = d ∧ c.Built T) b.statements b.statements := by
    obtain ⟨t, ss⟩ := b
    exact forall₂_eq_and_iff.2 (Stmt.builtAll_iff.1 hb.2)
  have hall {es : List Expr} (hes : Expr.BuiltAll T es) :
      List.Forall₂ (fun d e => d = e ∧ d.Built T) es es :=
    forall₂_eq_and_iff.2 (Expr.builtAll_iff.1 hes)
  cases e with
  | ident x => exact .ident rfl
  | int t n => exact .int n
  | str t s => exact .str s
  | bool t b => exact .bool b
  | unary t op e => exact .unary op ⟨rfl, h.2⟩
  | binary t op l r => exact .binary op ⟨rfl, h.2.1⟩ ⟨rfl, h.2.2⟩
  | cond t c b a? =>
    cases a? with
    | none => exact .cond ⟨rfl, h.2.1⟩ (hblock h.2.2)
    | some a => exact .condElse ⟨rfl, h.2.1⟩ (hblock h.2.2.1) (hblock h.2.2.2)
  | fn t xs b => exact .fn
  | call t f es => exact .call ⟨rfl, h.2.1⟩ (hall h.2.2)
  | array t es => exact .array (hall h.2)
  | index t l i => exact .index ⟨rfl, h.2.1⟩ ⟨rfl, h.2.2⟩
  | hash t ps =>
    refine .hash (List.forall₂_same.2 fun p hp => ?_)
    obtain ⟨hk, hv⟩ := Expr.builtPairs_iff.1 h.2 p hp
    exact ⟨⟨rfl, hk⟩, rfl, hv⟩

theorem Stmt.Built.matches_self {c : Stmt} (h : c.Built T) :
    c.Matches (fun d e => d = e ∧ d.Built T) (fun c d => c = d ∧ c.Built T) c := by
  cases c with
  | bind t x e => exact .bind rfl ⟨rfl, h.2.2⟩
  | ret t e? =>
    cases e? with
    | none => exact .retNone
    | some e => exact .ret ⟨rfl, h.2⟩
  | expr e => exact .expr ⟨rfl, h⟩
  | block b => exact h.elim

end Parts

/-- Functions are read from texts, as are the programs that make them. -/
def Invariant.fromText : Invariant where
  functions := Closure.Built Token.Lexed
  errors := True
  exprs := Expr.Built Token.Lexed
  stmts := Stmt.Built Token.Lexed
  expr_matches := Expr.Built.matches_self
  stmt_matches := Stmt.Built.matches_self
  body := by
    rintro ⟨id, xs, ⟨t, ss⟩, i⟩ hf
    exact Stmt.builtAll_iff.1 hf.body.2
  made h _ _ := ⟨h.2.1, h.2.2⟩

/-- The function is contained in what is bound to a name in some frame. -/
def Store.Contains (s : Store) (f : Closure) : Prop :=
  ∃ (i : FrameId) (frame : Frame) (x : String) (v : Value), s.frames[i]? = some frame ∧
    frame.bindings.find? x = some v ∧ (Value.function f).Within v

/-- Whatever is run, every function that is there afterwards was read from a text. -/
theorem Closure.built_of_run {depth : Nat} {source : String} {v : Value} {t : Store} {f : Closure}
    (h : run depth source = some (.ok v, t)) (hf : (Value.function f).Within v ∨ t.Contains f) :
    f.Built Token.Lexed := by
  obtain ⟨_, -, ⟨⟩, -⟩ | ⟨p, _, hparse, heval, ⟨⟩⟩ := Store.run_eq_some_iff.1 h
  rw [Program.eval_eq_map] at heval
  obtain ⟨⟨r, t'⟩, hr, heq⟩ := Option.map_eq_some_iff.1 heval
  cases heq
  have hfresh : Store.fresh.Forall Invariant.fromText.Holds :=
    (Store.forall_empty _).addFrame_empty none
  obtain ⟨-, ht, hv⟩ := Invariant.of_program hfresh (Program.built_of_parse hparse) hr
  rcases hf with hf | ⟨i, frame, x, u, hframe, hu, hf⟩
  · rcases r with (v | fault) | v
    · exact (hv v (.inr rfl)).1 f hf
    · cases hf
    · exact (hv v (.inl rfl)).1 f hf
  · exact (ht i frame x u hframe hu).1 f hf

/-- When a text has been run, what is shown of any function, be it in the value of the text or bound
somewhere, is the text of a function with the same parameters and the same body, up to the digits of
numbers; and to run that text is to make a function that is shown in the same way. -/
theorem parse_inspect_of_run {depth : Nat} {source : String} {v : Value} {t : Store}
    (h : run depth source = some (.ok v, t)) {f : Closure}
    (hf : (Value.function f).Within v ∨ t.Contains f) :
    Program.parse f.inspect = .ok ⟨[.expr (.fn (.word .fnWord) f.params f.body.normalize)]⟩ ∧
    ∀ depth' ≥ 2, ∃ g u, run depth' f.inspect = some (.ok (.function g), u) ∧
      g.inspect = f.inspect := by
  have hbuilt := Closure.built_of_run h hf
  refine ⟨hbuilt.parse_inspect, fun depth' hdepth => ?_⟩
  obtain ⟨n, rfl⟩ := Nat.exists_eq_add_of_le' hdepth
  refine ⟨_, _, hbuilt.run_inspect n, ?_⟩
  rw [← f.inspect_normalize]
  rfl

/-- `fn(x) { "two` and, on the next line, `lines"; fn() { 007 } }`, as it is made in the first
frame. -/
def twoLines : Closure :=
  ⟨0, [⟨.ident "x", "x"⟩], .mk (.sym .openBrace) [.expr (.str (.str "two\nlines") "two\nlines"),
    .expr (.fn (.word .fnWord) [] (.mk (.sym .openBrace)
      [.expr (.int (.int "007") (.ofCount 7))]))], 0⟩

def twoLinesText : String := "let a = [fn(x) \x7b \"two\nlines\"; fn() \x7b 007 \x7d \x7d];"

/-- A line break in a string does not end a statement, and a function inside is shown as it is
written. -/
theorem parse_inspect_of_run_twoLines :
    (∃ t, run 4 twoLinesText = some (.ok (.array [.function twoLines]), t) ∧ t.Contains twoLines) ∧
    twoLines.inspect = "fn(x) \x7b\n\"two\nlines\";\nfn() \x7b 7; \x7d;\n\x7d" ∧
    Program.parse twoLines.inspect =
      .ok ⟨[.expr (.fn (.word .fnWord) twoLines.params twoLines.body.normalize)]⟩ ∧
    ∃ g u, run 2 twoLines.inspect = some (.ok (.function g), u) ∧ g.inspect = twoLines.inspect := by
  have hparse : Program.parse twoLinesText = .ok ⟨[.bind (.word .letWord) ⟨.ident "a", "a"⟩
      (.array (.sym .openBracket) [.fn (.word .fnWord) twoLines.params twoLines.body])]⟩ := by
    decide +kernel
  have hrun : run 4 twoLinesText = some (.ok (.array [.function twoLines]),
      ⟨#[⟨[("a", .array [.function twoLines])], none⟩], 1, ""⟩) := by
    rw [run, Store.run, hparse]
    rfl
  have hbound : Store.Contains ⟨#[⟨[("a", .array [.function twoLines])], none⟩], 1, ""⟩ twoLines :=
    ⟨0, _, "a", _, rfl, rfl, .element List.mem_cons_self .self⟩
  have hinspect : twoLines.inspect =
      "fn(x) \x7b\n\"two\nlines\";\nfn() \x7b 7; \x7d;\n\x7d" := by decide +kernel
  obtain ⟨htext, hagain⟩ := parse_inspect_of_run hrun (.inr hbound)
  exact ⟨⟨_, hrun, hbound⟩, hinspect, htext, hagain 2 (Nat.le_refl 2)⟩

end Monkey
