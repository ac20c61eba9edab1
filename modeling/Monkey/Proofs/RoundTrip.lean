import Monkey.Proofs.Grammar.Parse
import Monkey.Proofs.Grammar.Written

/-! # Writing a program and reading it back

Parsing undoes writing on canonical programs: the tokens that such a program is written with derive
it, and what is derived is parsed. What comes out of a text, faults or not, need not be canonical,
since its numbers may have leading zeros. It is canonical up to these, and that is enough for it to
be read back from the way it is written.
-/

namespace Monkey

open Reading Read

namespace Program

theorem Built.parse_render_eq {p : Program} (h : p.Canonical) : parse p.render = .ok p :=
  h.derivedFrom_render.parse_eq

/-- A canonical program is what its text is parsed as, and no other canonical program is written in
the same way. -/
theorem parse_render {p : Program} (h : p.Canonical) :
    parse p.render = .ok p ∧ ∀ q : Program, q.Canonical → q.render = p.render → q = p := by
  refine ⟨h.parse_render_eq, fun q hq hr => ?_⟩
  have hp : parse q.render = .ok p := by
    rw [hr]
    exact h.parse_render_eq
  rw [hq.parse_render_eq] at hp
  exact Except.ok.inj hp

/-- `(!if (x) { return "0"; }(7, {}));` -/
def calledConditional : Program :=
  ⟨[.expr (.unary (.sym .bang) .bang (.call (.sym .openParen)
    (.cond (.word .ifWord) (.ident ⟨.ident "x", "x"⟩)
      (.mk (.sym .openBrace) [.ret (.word .returnWord) (some (.str (.str "0") "0"))]) none)
    [.int (.int "7") ⟨7, by decide, by decide⟩, .hash (.sym .openBrace) []]))]⟩

theorem canonical_calledConditional : calledConditional.Canonical := by
  have hx : IsName "x" := ⟨⟨'x', [], rfl, rfl, nofun⟩, fun k => by cases k <;> decide⟩
  refine List.forall_mem_singleton.2 ⟨rfl, rfl, ⟨rfl, ⟨rfl, hx⟩, rfl, ⟨rfl, rfl, ?_⟩, trivial⟩, ?_⟩
  · change '"' ∉ "0".toList
    decide
  · exact ⟨Expr.built_int_canonical.2 ⟨by decide, by decide⟩, ⟨rfl, trivial⟩, trivial⟩

theorem parse_render_calledConditional : calledConditional.Canonical ∧
    parse calledConditional.render = .ok calledConditional ∧
    ∀ q : Program, q.Canonical → q.render = calledConditional.render → q = calledConditional :=
  ⟨canonical_calledConditional, parse_render canonical_calledConditional⟩

/-- What is read from a text is built from its tokens. -/
theorem built_readAll (source : String) :
    (Reader.ofSource source).readAll.1.Built Token.Lexed := by
  have hm : Makes (∀ s ∈ ·, Stmt.Built Token.Lexed s) (Token.scan source) Reading.statements :=
    makes_statements (Token.lexed_of_mem_scan source)
  intro s hs
  change s ∈ (Reading.statements (Token.scan source)).value?.getD [] at hs
  cases hv : (Reading.statements (Token.scan source)).value? with
  | none =>
    rw [hv] at hs
    cases hs
  | some ss =>
    rw [hv] at hs
    exact hm.holds ss hv s hs

theorem readAll_of_parse {source : String} {p : Program} (h : parse source = .ok p) :
    (Reader.ofSource source).readAll.1 = p := by
  unfold parse Reader.finish at h
  split at h
  · rename_i hread
    rw [hread]
    exact Except.ok.inj h
  · cases h

theorem built_of_parse {source : String} {p : Program} (h : parse source = .ok p) :
    p.Built Token.Lexed :=
  readAll_of_parse h ▸ built_readAll source

/-- Whatever the text, every node of what is read from it holds a token that fits it. So it is read
back from the way it is written, with canonical digits, and is then written in the same way. -/
theorem parse_render_readAll (source : String) :
    (Reader.ofSource source).readAll.1.Built Token.Lexed ∧
    parse (Reader.ofSource source).readAll.1.render =
      .ok (Reader.ofSource source).readAll.1.normalize ∧
    (Reader.ofSource source).readAll.1.normalize.render =
      (Reader.ofSource source).readAll.1.render := by
  have h := built_readAll source
  refine ⟨h, ?_, render_normalize _⟩
  rw [← render_normalize]
  exact h.normalize.parse_render_eq

end Program
end Monkey
