import Monkey.Proofs.Grammar.Sound
import Monkey.Proofs.Token.Spelling
import Monkey.Reading.Reader

/-! # Parsing decides the grammar

A text parses as a program exactly if its tokens derive the program. Both directions are about runs
that find no fault: such a run has read statements up to the end of the text, since a reader does
not fail without a fault.

As a run has one result, no tokens derive two programs: the grammar is unambiguous.
-/

namespace Monkey

open Reading Read

/-- No text is split into the token that stands for its end. -/
theorem Token.eof_notMem_scan (source : String) : .eof ∉ scan source :=
  fun h => lexed_of_mem_scan source .eof h

namespace Program

/-- A program comes out of a text exactly if its statements are read without a fault. -/
theorem parse_eq_ok_iff_accepts {source : String} {p : Program} :
    parse source = .ok p ↔
      ∃ rest, Accepts Reading.statements (Token.scan source) p.statements rest := by
  have hm : Makes (∀ s ∈ ·, Stmt.Built (fun _ => True) s) (Token.scan source)
      Reading.statements :=
    makes_statements fun _ _ => trivial
  unfold parse Reader.finish Reader.readAll Accepts Reader.ofSource
  rcases hout : Reading.statements (Token.scan source) with ⟨_ | ss, rest, _ | ⟨f, fs⟩⟩
  · exact absurd (congrArg Outcome.faults hout) (hm.reports (congrArg Outcome.value? hout))
  · simp
  · obtain ⟨ps⟩ := p
    simp
  · simp

theorem DerivedFrom.of_parse {source : String} {p : Program} (h : parse source = .ok p) :
    p.DerivedFrom (Token.scan source) := by
  obtain ⟨rest, hrest⟩ := parse_eq_ok_iff_accepts.1 h
  exact (Grammar.derives_of_accepts_statements (Token.eof_notMem_scan source) hrest).2

theorem DerivedFrom.parse_eq {source : String} {p : Program}
    (h : p.DerivedFrom (Token.scan source)) : parse source = .ok p :=
  parse_eq_ok_iff_accepts.2 ⟨[], h.accepts⟩

/-- The grammar is unambiguous. -/
theorem DerivedFrom.unique {p q : Program} {ts : List Token} (hp : p.DerivedFrom ts)
    (hq : q.DerivedFrom ts) : p = q := by
  obtain ⟨ps⟩ := p
  obtain ⟨qs⟩ := q
  obtain ⟨rfl, -⟩ := hp.accepts.unique hq.accepts
  rfl

/-- A text parses as a program exactly if its tokens derive the program. -/
theorem parse_eq_ok_iff_derivedFrom (source : String) (p : Program) :
    parse source = .ok p ↔ p.DerivedFrom (Token.scan source) := by
  constructor
  · exact DerivedFrom.of_parse
  · exact DerivedFrom.parse_eq

end Program
end Monkey
