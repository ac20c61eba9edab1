import Monkey.Program.Equality
import Monkey.Proofs.Eval.Simulation
import Monkey.Proofs.RoundTrip
import Monkey.Proofs.Syntax.Erase
import Monkey.Session

/-! # Tokens do not matter

A program holds the tokens that it was read from, and so do the functions that it makes. Neither
evaluating nor writing looks at them: programs that are equal after erasing, run in stores that are
equal up to the tokens of the functions in them, come to the same (`Program.eval_of_erase_eq`). This
is the simulation `Simulation.erasure`.

In particular, a text and the way in which the program is written that it was read as come to the
same. The two programs differ, since digits may be lost on the way, but only in tokens.
-/

namespace Monkey

/-- The same function but for the tokens in it. -/
structure Closure.Alike (f g : Closure) : Prop where
  id : f.id = g.id
  params : f.params.map Ident.name = g.params.map Ident.name
  body : f.body.erase = g.body.erase
  scope : f.scope = g.scope

theorem Closure.Alike.inspect_eq {f g : Closure} (h : f.Alike g) : f.inspect = g.inspect := by
  have hlines : f.body.statements.map Stmt.render = g.body.statements.map Stmt.render :=
    map_eq_map_iff.2 ((Block.erase_eq_iff.1 h.body).imp fun _ _ => Stmt.render_eq_of_erase_eq)
  rw [Closure.inspect, Closure.inspect, h.params, Block.lines, Block.lines, hlines]

/-- The same value but for the tokens in functions. -/
abbrev Value.Alike : Value → Value → Prop := Related Closure.Alike True

/-- The same store but for the tokens in functions, and for what has been printed. -/
structure Store.Alike (s t : Store) : Prop where
  functions : s.functions = t.functions
  frames : s.Related Eq Value.Alike t

namespace Store.Alike

variable {s t : Store}

theorem addFrame (h : s.Alike t) {f g : Frame} (hfg : f.Related Eq Value.Alike g) :
    (s.addFrame f).Alike (t.addFrame g) where
  functions := h.functions
  frames := by
    refine h.frames.addFrame ?_ (fun _ _ h => h) (fun _ _ h => h) hfg
    rintro k _ rfl
    rw [← h.frames.next_eq]
    by_cases hk : k = s.next
    · exact .inl ⟨hk, hk⟩
    · exact .inr ⟨hk, hk, rfl⟩

theorem empty : Store.empty.Alike Store.empty where
  functions := rfl
  frames _ _ _ := .none

theorem fresh : Store.fresh.Alike Store.fresh := empty.addFrame (.empty .none)

end Store.Alike

/-! ## The simulation -/

/-- Of two stores, one with the output `o` and one with the output `o'`, the same has been printed
since. -/
def Simulation.erasure (o o' : String) : Simulation where
  World := Unit
  Later _ _ := True
  functions _ := Closure.Alike
  errors := True
  frames _ := Eq
  stores _ s t := s.Alike t ∧ ∃ out, s.output = o ++ out ∧ t.output = o' ++ out
  exprs d e := d.erase = e.erase
  stmts c d := c.erase = d.erase
  refl _ := trivial
  trans _ _ := trivial
  functions_later _ h := h
  frames_later _ h := h
  expr_matches := Expr.matches_of_erase_eq
  stmt_matches := Stmt.matches_of_erase_eq
  id_iff h h' := by rw [h.id, h'.id]
  inspect_eq := Closure.Alike.inspect_eq
  params h := by simpa using congrArg List.length h.params
  body h := Block.erase_eq_iff.1 h.body
  get? := by
    rintro _ s t i _ x y ⟨hs, -⟩ rfl hxy
    cases Expr.matches_of_erase_eq hxy with
    | ident hname =>
      rw [hname]
      exact hs.frames.get? orderPreserving_eq rfl y.name
  set := by
    rintro _ s t i _ x v v' ⟨hs, hout⟩ rfl hv
    exact ⟨⟨hs.functions, hs.frames.set orderPreserving_eq rfl x hv⟩, hout⟩
  print := by
    rintro _ s t text ⟨hs, out, hso, hto⟩
    refine ⟨⟨hs.functions, hs.frames⟩, out ++ text, ?_, ?_⟩
    · rw [Store.print, hso, String.append_assoc]
    · rw [Store.print, hto, String.append_assoc]
  makeFunction := by
    rintro _ s t i _ a b xs ys c d ⟨hs, hout⟩ rfl hfn
    obtain ⟨hparams, hbody⟩ := Expr.fn_of_erase_eq hfn
    exact ⟨(), trivial, ⟨hs.functions, hparams, hbody, rfl⟩,
      ⟨congrArg (· + 1) hs.functions, hs.frames⟩, hout⟩
  addFrame := by
    rintro _ s t f g vs vs' ⟨hs, hout⟩ hfg hvs
    rw [hfg.params]
    exact ⟨(), trivial, hs.frames.next_eq, hs.addFrame (.ofCall hfg.scope _ hvs), hout⟩

/-! ## Programs and texts -/

/-- What two runs that started in `s` and in `t` have in common: their values and stores are the same
up to tokens, and they have printed the same. -/
structure SameUpToTokens (s t : Store) (a b : Value × Store) : Prop where
  value : a.1.Alike b.1
  kind : a.1.kind = b.1.kind
  inspect : a.1.inspect = b.1.inspect
  truthy : a.1.isTruthy = b.1.isTruthy
  message : ∀ m, a.1 = .error m ↔ b.1 = .error m
  store : a.2.Alike b.2
  output : ∃ out, a.2.output = s.output ++ out ∧ b.2.output = t.output ++ out

namespace Program

/-- Programs that are equal up to tokens have values that are equal up to tokens. -/
theorem eval_of_erase_eq {p q : Program} (h : p.erase = q.erase) (depth : Nat) (i : FrameId)
    {s t : Store} (hs : s.Alike t) :
    Option.Rel (SameUpToTokens s t) (p.eval depth i s) (q.eval depth i t) := by
  have hstmts : List.Forall₂ (fun c d => c.erase = d.erase) p.statements q.statements :=
    map_eq_map_iff.1 (Program.mk.inj h)
  have hstores : s.Alike t ∧ ∃ out, s.output = s.output ++ out ∧ t.output = t.output ++ out :=
    ⟨hs, "", String.append_empty.symm, String.append_empty.symm⟩
  refine rel_imp ((Simulation.erasure s.output t.output).similar_eval trivial (w := ()) depth
    (rfl : i = i) hstmts hstores) ?_
  rintro ⟨v, s'⟩ ⟨w, t'⟩ ⟨_, -, ⟨hst, hout⟩, hvw⟩
  exact {
    value := hvw
    kind := hvw.kind_eq
    inspect := hvw.inspect_eq fun _ _ => Closure.Alike.inspect_eq
    truthy := hvw.isTruthy_eq
    message := hvw.eq_error_iff
    store := hst
    output := hout }

/-- What is read from a text is read back from the way it is written, but for tokens. -/
theorem parse_render_of_parse {source : String} {p : Program} (h : parse source = .ok p) :
    ∃ q, parse p.render = .ok q ∧ q.erase = p.erase := by
  have hp : p.Built Token.Lexed := built_of_parse h
  refine ⟨p.normalize, ?_, p.erase_normalize⟩
  rw [← p.render_normalize]
  exact hp.normalize.parse_render_eq

end Program

/-- Tokens play no part in what a program comes to. This goes for programs that are equal up to
tokens, in stores that are equal up to tokens: both runs are cut off, or both end, and then nothing
but tokens sets them apart. And it goes for a text and the way in which the program that it spells is
written. -/
theorem eval_eq_up_to_tokens (depth : Nat) :
    (∀ (i : FrameId) (p q : Program) (s t : Store), p.erase = q.erase → s.Alike t →
      Option.Rel (SameUpToTokens s t) (p.eval depth i s) (q.eval depth i t)) ∧
    ∀ source p, Program.parse source = .ok p →
      Option.Rel (fun a b => ∃ v w, a.1 = .ok v ∧ b.1 = .ok w ∧ v.kind = w.kind ∧
        v.inspect = w.inspect ∧ a.2.output = b.2.output) (run depth p.render) (run depth source) := by
  refine ⟨fun i p q s t h hs => Program.eval_of_erase_eq h depth i hs, fun source p h => ?_⟩
  obtain ⟨q, hq, hqp⟩ := Program.parse_render_of_parse h
  simp only [run, Store.run, h, hq]
  refine rel_map (Program.eval_of_erase_eq hqp depth 0 .fresh) ?_
  rintro ⟨v, s⟩ ⟨w, t⟩ hsame
  obtain ⟨out, hs, ht⟩ := hsame.output
  exact ⟨v, w, rfl, rfl, hsame.kind, hsame.inspect, hs.trans ht.symm⟩

/-- `fn() { 7; };`, with a seven of these digits. -/
def seven (digits : String) : Program := ⟨[.expr (.fn (.word .fnWord) []
  (.mk (.sym .openBrace) [.expr (.int (.int digits) (.ofCount 7))]))]⟩

/-- Leading zeros are kept in the function, but do not show. -/
theorem eval_eq_up_to_tokens_seven :
    (seven "007" ≠ seven "7" ∧ ∃ a b, (seven "007").eval 3 0 .fresh = some a ∧
      (seven "7").eval 3 0 .fresh = some b ∧ SameUpToTokens .fresh .fresh a b) ∧
    Program.parse "fn() \x7b 007 \x7d" = .ok (seven "007") ∧
    ∃ a b v w, run 3 (seven "007").render = some a ∧ run 3 "fn() \x7b 007 \x7d" = some b ∧
      a.1 = .ok v ∧ b.1 = .ok w ∧ v.inspect = w.inspect := by
  obtain ⟨hprogram, htext⟩ := eval_eq_up_to_tokens 3
  have hne : seven "007" ≠ seven "7" := by decide +kernel
  have hparse : Program.parse "fn() \x7b 007 \x7d" = .ok (seven "007") := by decide +kernel
  have heval : ((seven "007").eval 3 0 .fresh).isSome = true := by decide +kernel
  have hrun : (run 3 (seven "007").render).isSome = true := by decide +kernel
  obtain ⟨a, ha⟩ := Option.isSome_iff_exists.1 heval
  obtain ⟨c, hc⟩ := Option.isSome_iff_exists.1 hrun
  obtain ⟨b, hb, hsame⟩ :=
    exists_of_rel (hprogram 0 (seven "007") (seven "7") .fresh .fresh rfl .fresh) ha
  obtain ⟨d, hd, v, w, hv, hw, -, hinspect, -⟩ := exists_of_rel (htext _ _ hparse) hc
  exact ⟨⟨hne, a, b, ha, hb, hsame⟩, hparse, c, d, v, w, hc, hd, hv, hw, hinspect⟩

end Monkey
