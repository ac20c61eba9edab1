import Monkey.Proofs.Eval.Ends
import Monkey.Session

/-! # The first signal wins

A `Context` is a program with a hole in it, at any depth. What is evaluated before the hole is listed
in `Context.before`, from left to right; what stands behind the hole is not in this list. If all of
it comes to a normal end, and what is in the hole then raises a signal, this is the last that
happens: the whole ends with that signal, in the store in which it was raised, whatever stands behind
the hole (`Context.ends_fill`).

Nothing but the call of a function and the program as a whole catches a signal, and these catch
`return` only: `signal_escapes`. The bodies of functions are therefore no positions of a context.
-/

namespace Monkey.Eval

open Filter

variable {i : FrameId} {s t u : Store} {e : Signal} {v : Value}

/-! ## Holes -/

/-- What a hole can be filled with. -/
inductive Category where
  | expr | stmt | block

inductive Phrase : Category → Type where
  | expr (e : Expr) : Phrase .expr
  | stmt (c : Stmt) : Phrase .stmt
  | block (ss : List Stmt) : Phrase .block

def Phrase.job {k : Category} : Phrase k → Job
  | .expr e => .expr e
  | .stmt c => .stmt c
  | .block ss => .block ss

/-- Where a hole can be in a node, with all that stands around it. -/
inductive Position : Category → Category → Type where
  | operand (token : Token) (op : UnaryOp) : Position .expr .expr
  | left (token : Token) (op : BinaryOp) (r : Expr) : Position .expr .expr
  | right (token : Token) (op : BinaryOp) (l : Expr) : Position .expr .expr
  | condition (token : Token) (b : Block) (a? : Option Block) : Position .expr .expr
  | consequence (token : Token) (c : Expr) (opening : Token) (a? : Option Block) :
      Position .expr .block
  | alternative (token : Token) (c : Expr) (b : Block) (opening : Token) : Position .expr .block
  | callee (token : Token) (args : List Expr) : Position .expr .expr
  | argument (token : Token) (f : Expr) (before after : List Expr) : Position .expr .expr
  | element (token : Token) (before after : List Expr) : Position .expr .expr
  | indexed (token : Token) (index : Expr) : Position .expr .expr
  | index (token : Token) (l : Expr) : Position .expr .expr
  | key (token : Token) (before : List (Expr × Expr)) (value : Expr)
      (after : List (Expr × Expr)) : Position .expr .expr
  | value (token : Token) (before : List (Expr × Expr)) (key : Expr)
      (after : List (Expr × Expr)) : Position .expr .expr
  | bound (token : Token) (x : Ident) : Position .stmt .expr
  | returned (token : Token) : Position .stmt .expr
  | expression : Position .stmt .expr
  | block (opening : Token) : Position .stmt .block
  | statement (before after : List Stmt) : Position .block .stmt

/-- What is evaluated before a hole, and what its value must be like for the hole to be reached. -/
structure Prior where
  job : Job
  fits : Value → Prop

/-- Any value will do. -/
def Prior.any (job : Job) : Prior := ⟨job, fun _ => True⟩

/-- The value is to be a key of a hash. -/
def Prior.key (e : Expr) : Prior := ⟨.expr e, fun v => v.key?.isSome⟩

def Prior.exprs (es : List Expr) : List Prior := es.map fun e => .any (.expr e)

/-- Of each pair of a hash, the key is found to be one before the value is evaluated. -/
def Prior.pairs (ps : List (Expr × Expr)) : List Prior :=
  ps.flatMap fun p => [.key p.1, .any (.expr p.2)]

def Prior.stmts (ss : List Stmt) : List Prior := ss.map fun c => .any (.stmt c)

namespace Position

variable {k l : Category}

def fill : Position k l → Phrase l → Phrase k
  | .operand token op, .expr e => .expr (.unary token op e)
  | .left token op r, .expr e => .expr (.binary token op e r)
  | .right token op l, .expr e => .expr (.binary token op l e)
  | .condition token b a?, .expr e => .expr (.cond token e b a?)
  | .consequence token c opening a?, .block ss => .expr (.cond token c (.mk opening ss) a?)
  | .alternative token c b opening, .block ss => .expr (.cond token c b (some (.mk opening ss)))
  | .callee token args, .expr e => .expr (.call token e args)
  | .argument token f ds es, .expr e => .expr (.call token f (ds ++ e :: es))
  | .element token ds es, .expr e => .expr (.array token (ds ++ e :: es))
  | .indexed token r, .expr e => .expr (.index token e r)
  | .index token l, .expr e => .expr (.index token l e)
  | .key token ps d qs, .expr e => .expr (.hash token (ps ++ (e, d) :: qs))
  | .value token ps d qs, .expr e => .expr (.hash token (ps ++ (d, e) :: qs))
  | .bound token x, .expr e => .stmt (.bind token x e)
  | .returned token, .expr e => .stmt (.ret token (some e))
  | .expression, .expr e => .stmt (.expr e)
  | .block opening, .block ss => .stmt (.block (.mk opening ss))
  | .statement bs cs, .stmt c => .block (bs ++ c :: cs)

/-- What is evaluated before the hole, in this order. -/
def before : Position k l → List Prior
  | .right _ _ l | .index _ l => [.any (.expr l)]
  | .consequence _ c _ _ => [⟨.expr c, fun v => v.isTruthy = true⟩]
  | .alternative _ c _ _ => [⟨.expr c, fun v => v.isTruthy = false⟩]
  | .argument _ f es _ => .any (.expr f) :: Prior.exprs es
  | .element _ es _ => Prior.exprs es
  | .key _ ps _ _ => Prior.pairs ps
  | .value _ ps d _ => Prior.pairs ps ++ [.key d]
  | .statement ss _ => Prior.stmts ss
  | .operand .. | .left .. | .condition .. | .callee .. | .indexed .. | .bound .. | .returned ..
  | .expression | .block .. => []

end Position

/-- One position inside the other, from the outside to the hole. -/
inductive Context : Category → Category → Type where
  | hole {k : Category} : Context k k
  | inside {k l m : Category} (p : Position k l) (c : Context l m) : Context k m

namespace Context

def fill {k m : Category} : Context k m → Phrase m → Phrase k
  | .hole, x => x
  | .inside p c, x => p.fill (c.fill x)

def before {k m : Category} : Context k m → List Prior
  | .hole => []
  | .inside p c => p.before ++ c.before

end Context

/-! ## Before the hole -/

/-- All comes to a normal end, one after the other, and to values that fit. -/
inductive Passes (i : FrameId) : List Prior → Store → Store → Prop where
  | nil {s : Store} : Passes i [] s s
  | cons {p : Prior} {ps : List Prior} {v : Value} {s t u : Store}
      (h : Ends i p.job s (.ok v) t) (hv : p.fits v) (hps : Passes i ps t u) :
      Passes i (p :: ps) s u

namespace Passes

variable {ps qs : List Prior}

theorem exists_of_append (h : Passes i (ps ++ qs) s u) :
    ∃ t, Passes i ps s t ∧ Passes i qs t u := by
  induction ps generalizing s with
  | nil => exact ⟨s, .nil, h⟩
  | cons p ps ih =>
    cases h with
    | cons hp hv h =>
      obtain ⟨t, hps, hqs⟩ := ih h
      exact ⟨t, .cons hp hv hps, hqs⟩

theorem exists_of_singleton {p : Prior} (h : Passes i [p] s t) :
    ∃ v, Ends i p.job s (.ok v) t ∧ p.fits v := by
  cases h with
  | cons hp hv h =>
    cases h
    exact ⟨_, hp, hv⟩

theorem exprs_iff {es : List Expr} :
    Passes i (Prior.exprs es) s t ↔ ∃ vs, ListEnds i es s vs t := by
  constructor
  · intro h
    induction es generalizing s with
    | nil =>
      cases h
      exact ⟨[], .nil⟩
    | cons e es ih =>
      cases h with
      | cons he _ hes =>
        obtain ⟨vs, hes⟩ := ih hes
        exact ⟨_ :: vs, .cons he hes⟩
  · rintro ⟨vs, h⟩
    induction h with
    | nil => exact .nil
    | cons he _ ih => exact .cons he trivial ih

theorem eventually_mapM {es : List Expr} (h : Passes i (Prior.exprs es) s t) :
    ∀ᶠ n in atTop, ∃ vs, es.mapM (expr n i) s = some (.ok vs, t) := by
  obtain ⟨vs, hvs⟩ := exprs_iff.1 h
  filter_upwards [hvs.eventually] with n hn
  exact ⟨vs, hn⟩

theorem eventually_sequence {ss : List Stmt} (h : Passes i (Prior.stmts ss) s t) :
    ∀ᶠ n in atTop, ∃ v, sequence (stmt n i) ss s = some (.ok v, t) := by
  -- The value of a statement is forgotten when the next one is run.
  suffices hfold : ∀ v, ∀ᶠ n in atTop, ∃ w,
      ss.foldlM (fun _ c => stmt n i c) v s = some (.ok w, t) from hfold .null
  induction ss generalizing s with
  | nil =>
    cases h
    exact fun v => .of_forall fun n => ⟨v, rfl⟩
  | cons c ss ih =>
    cases h with
    | @cons _ _ w _ _ _ hc _ hss =>
      intro v
      filter_upwards [hc.eventually, ih hss w] with n hc hss
      obtain ⟨w', hss⟩ := hss
      refine ⟨w', ?_⟩
      rw [List.foldlM_cons, bind_of_ok (x := stmt n i c) hc, hss]

theorem exists_pairsEnd {ps : List (Expr × Expr)} (h : Passes i (Prior.pairs ps) s t) :
    ∃ kvs, PairsEnd i ps s kvs t := by
  induction ps generalizing s with
  | nil =>
    cases h
    exact ⟨[], .nil⟩
  | cons p ps ih =>
    cases h with
    | cons hc hfits h =>
      obtain ⟨k, hk⟩ := Option.isSome_iff_exists.1 hfits
      cases h with
      | cons hv _ hps =>
        obtain ⟨kvs, hkvs⟩ := ih hps
        exact ⟨_, .cons hk hc hv hkvs⟩

theorem eventually_foldlM {ps : List (Expr × Expr)} (h : Passes i (Prior.pairs ps) s t) :
    ∀ᶠ n in atTop, ∃ table, ps.foldlM (addPair (expr n i)) [] s = some (.ok table, t) := by
  obtain ⟨kvs, hkvs⟩ := h.exists_pairsEnd
  filter_upwards [hkvs.eventually] with n hn
  exact ⟨_, hn []⟩

end Passes

/-! ## In the hole -/

/-- If all goes well before it, the hole is entered. -/
theorem Position.eventually_enters {k l : Category} (p : Position k l) (x : Phrase l)
    (h : Passes i p.before s t) :
    ∀ᶠ n in atTop, ∃ m, Point.Enters ⟨m, i, (p.fill x).job, s⟩ ⟨n, i, x.job, t⟩ := by
  cases p with
  | operand | left | condition | callee | indexed | bound | returned | expression | block =>
    cases x
    cases h
    exact .of_forall fun n => ⟨n + 1, by constructor⟩
  | right token op l =>
    cases x
    obtain ⟨v, hl, -⟩ := h.exists_of_singleton
    filter_upwards [hl.eventually] with n hl
    exact ⟨n + 1, .right hl⟩
  | consequence token c opening a? =>
    cases x
    obtain ⟨v, hc, hv⟩ := h.exists_of_singleton
    filter_upwards [hc.eventually] with n hc
    exact ⟨n + 1, .consequence hc hv⟩
  | alternative token c b opening =>
    cases x
    obtain ⟨v, hc, hv⟩ := h.exists_of_singleton
    filter_upwards [hc.eventually] with n hc
    exact ⟨n + 1, .alternative hc hv⟩
  | argument token f ds es =>
    cases x
    cases h with
    | cons hf _ hargs =>
      filter_upwards [hf.eventually, hargs.eventually_mapM] with n hf hargs
      obtain ⟨vs, hargs⟩ := hargs
      exact ⟨n + 1, .argument hf hargs⟩
  | element token ds es =>
    cases x
    filter_upwards [h.eventually_mapM] with n hds
    obtain ⟨vs, hds⟩ := hds
    exact ⟨n + 1, .element hds⟩
  | index token l =>
    cases x
    obtain ⟨v, hl, -⟩ := h.exists_of_singleton
    filter_upwards [hl.eventually] with n hl
    exact ⟨n + 1, .index hl⟩
  | key token ps d qs =>
    cases x with
    | expr e =>
      filter_upwards [h.eventually_foldlM] with n hps
      obtain ⟨table, hps⟩ := hps
      exact ⟨n + 1, .key (p := (e, d)) hps⟩
  | value token ps d qs =>
    cases x with
    | expr e =>
      obtain ⟨t', hps, hd⟩ := h.exists_of_append
      obtain ⟨v, hd, hv⟩ := hd.exists_of_singleton
      obtain ⟨k, hkey⟩ := Option.isSome_iff_exists.1 hv
      have hok : Eval.key v = .ok k := by rw [Eval.key, hkey]
      filter_upwards [hps.eventually_foldlM, hd.eventually] with n hps hd
      obtain ⟨table, hps⟩ := hps
      exact ⟨n + 1, .value (p := (d, e)) hps hd hok⟩
  | statement bs cs =>
    cases x
    filter_upwards [h.eventually_sequence] with n hbs
    obtain ⟨v, hbs⟩ := hbs
    exact ⟨n, .statement hbs⟩

theorem Phrase.job_ne_call {k : Category} (x : Phrase k) (callee : Value) (args : List Value) :
    x.job ≠ .call callee args := by
  cases x <;> exact nofun

/-- A signal in the hole ends the node around it. -/
theorem Position.ends_fill {k l : Category} (p : Position k l) (x : Phrase l)
    (h : Passes i p.before s t) (hx : Ends i x.job t (.error e) u) :
    Ends i (p.fill x).job s (.error e) u := by
  obtain ⟨n, ⟨m, henters⟩, hn⟩ := ((p.eventually_enters x h).and hx.eventually).exists
  rcases henters.leads with hleads | ⟨⟨f, args, hcall⟩, -⟩
  · exact ⟨m, hleads.signal e u hn⟩
  · exact absurd hcall ((p.fill x).job_ne_call _ _)

/-- A signal in the hole ends the whole. -/
theorem Context.ends_fill {k m : Category} (c : Context k m) (x : Phrase m)
    (h : Passes i c.before s t) (hx : Ends i x.job t (.error e) u) :
    Ends i (c.fill x).job s (.error e) u := by
  induction c generalizing s with
  | hole =>
    cases h
    exact hx
  | inside p c ih =>
    obtain ⟨t', hp, hc⟩ := h.exists_of_append
    exact p.ends_fill (c.fill x) hp (ih x hc hx)

/-- What cannot be a key ends a hash before the value of the pair is evaluated. -/
theorem ends_hash_of_key?_eq_none (token : Token) {ps qs : List (Expr × Expr)} {d e : Expr}
    (hps : Passes i (Prior.pairs ps) s t) (hd : Ends i (.expr d) t (.ok v) u)
    (hv : v.key? = none) :
    Ends i (.expr (.hash token (ps ++ (d, e) :: qs))) s (.error (.raised (.notKey v.kind))) u := by
  obtain ⟨n, ⟨table, hps⟩, hd⟩ := (hps.eventually_foldlM.and hd.eventually).exists
  have hkey : Eval.key v = .error (.notKey v.kind) := by rw [Eval.key, hv]
  have hpair : Leads (addPair (expr n i) table (d, e)) t (ofExcept (Eval.key v)) u :=
    .of_ok hd ((Leads.refl _ _).bind _)
  refine ⟨n + 1, ((Leads.foldlM hps hpair).bind _).signal _ u ?_⟩
  rw [hkey]
  rfl

/-! ## Where signals are caught -/

/-- How something ends that lets no `return` through. -/
def caught : Except Signal Value → Except Signal Value
  | .error (.returned v) => .ok v
  | r => r

theorem returning_of_run {x : Eval Value} {r : Except Signal Value} (h : x s = some (r, t)) :
    returning x s = some (caught r, t) := by
  rw [returning, h]
  rcases r with (v | f) | v <;> rfl

theorem returning_ne_returned (x : Eval Value) (s : Store) (v : Value) (t : Store) :
    returning x s ≠ some (.error (.returned v), t) := by
  rw [returning]
  rcases x s with _ | ⟨(w | f) | w, u⟩ <;> simp

theorem callBuiltin_ne_returned (b : Builtin) (args : List Value) (s : Store) (v : Value)
    (t : Store) : callBuiltin b args s ≠ some (.error (.returned v), t) := by
  intro h
  rw [callBuiltin, bind_of_ok (rfl : update _ s = some (.ok (), _))] at h
  rcases hw : b.answer args <;> rw [hw] at h <;> cases h

theorem call_ne_returned (run : FrameId → List Stmt → Eval Value) (callee : Value)
    (args : List Value) (s : Store) (v : Value) (t : Store) :
    call run callee args s ≠ some (.error (.returned v), t) := by
  cases callee with
  | function f =>
    rw [call]
    split
    · exact returning_ne_returned _ _ v t
    · intro h
      cases h
  | builtin b => exact callBuiltin_ne_returned b args s v t
  | _ =>
    intro h
    cases h

/-- A call ends as the body of the function does, but for a `return`. -/
theorem ends_call {f : Closure} {args : List Value} {r : Except Signal Value}
    (hlen : f.params.length = args.length)
    (h : Ends s.next (.block f.body.statements)
      (s.addFrame (.ofCall f.scope (f.params.map Ident.name) args)) r u) :
    Ends i (.call (.function f) args) s (caught r) u := by
  obtain ⟨n, hn⟩ := h
  refine ⟨n, ?_⟩
  rw [Job.run, call, if_pos hlen]
  exact returning_of_run hn

/-- Only the call of a function keeps a signal of what it enters from being its own, and only a
`return`. -/
theorem Point.Enters.run_of_signal {a b : Point} (h : Enters a b)
    (hb : b.run = some (.error e, u)) :
    a.run = some (.error e, u) ∨ ∃ f args v, a.job = .call (.function f) args ∧
      e = .returned v ∧ a.run = some (.ok v, u) := by
  rcases h.leads with hab | ⟨⟨f, args, hjob⟩, hab⟩
  · exact .inl (hab.signal e u hb)
  · rw [hab, returning_of_run hb]
    cases e with
    | returned v => exact .inr ⟨f, args, v, hjob, rfl, rfl⟩
    | raised f => exact .inl rfl

/-- The first signal wins. A signal in a hole ends the whole, in the store in which it was raised, if
all that is evaluated before the hole comes to a normal end; what is behind the hole is not run, and
no `let` around it binds its name. The same is true of a key that cannot be one. A call of a function
ends as the body does and a program as its statements do, but that a `return` is a normal end there;
so neither of them ever ends with a `return`. Of all evaluations that are begun inside others, none
has its signal caught but the body of a function that returns. -/
theorem signal_escapes (i : FrameId) (s : Store) :
    (∀ {k m : Category} (c : Context k m) (x : Phrase m) (e : Signal) (t u : Store),
      Passes i c.before s t → Ends i x.job t (.error e) u →
        Ends i (c.fill x).job s (.error e) u) ∧
    (∀ (token : Token) (ps qs : List (Expr × Expr)) (d e : Expr) (v : Value) (t u : Store),
      Passes i (Prior.pairs ps) s t → Ends i (.expr d) t (.ok v) u → v.key? = none →
        Ends i (.expr (.hash token (ps ++ (d, e) :: qs))) s
          (.error (.raised (.notKey v.kind))) u) ∧
    (∀ (f : Closure) (args : List Value) (r : Except Signal Value) (u : Store),
      f.params.length = args.length →
      Ends s.next (.block f.body.statements)
        (s.addFrame (.ofCall f.scope (f.params.map Ident.name) args)) r u →
        Ends i (.call (.function f) args) s (caught r) u) ∧
    (∀ callee args v u, ¬Ends i (.call callee args) s (.error (.returned v)) u) ∧
    (∀ (p : Program) (r : Except Signal Value) (u : Store), Ends i (.block p.statements) s r u →
      ∃ depth, program depth i p s = some (caught r, u)) ∧
    (∀ depth p v u, program depth i p s ≠ some (.error (.returned v), u)) ∧
    ∀ (a b : Point) (e : Signal) (u : Store), Point.Enters a b → b.run = some (.error e, u) →
      a.run = some (.error e, u) ∨ ∃ f args v, a.job = .call (.function f) args ∧
        e = .returned v ∧ a.run = some (.ok v, u) := by
  refine ⟨fun c x e t u => c.ends_fill x, fun token ps qs d e v t u => ends_hash_of_key?_eq_none token,
    fun f args r u => ends_call, ?_, ?_, fun depth p => returning_ne_returned _ s,
    fun a b e u => Point.Enters.run_of_signal⟩
  · rintro callee args v u ⟨n, hn⟩
    exact call_ne_returned _ callee args s v u hn
  · rintro p r u ⟨n, hn⟩
    exact ⟨n, returning_of_run hn⟩

/-- `let a = [1, {"k": if (true) { let b = 2; □ }}, a]; a;`, with a block in the hole. -/
def midway : Context .block .block :=
  .inside (.statement [] [.expr (.ident ⟨.ident "a", "a"⟩)]) <|
  .inside (.bound (.word .letWord) ⟨.ident "a", "a"⟩) <|
  .inside (.element (.sym .openBracket) [.int (.int "1") (.ofCount 1)]
    [.ident ⟨.ident "a", "a"⟩]) <|
  .inside (.value (.sym .openBrace) [] (.str (.str "k") "k") []) <|
  .inside (.consequence (.word .ifWord) (.bool (.word .trueWord) true) (.sym .openBrace) none) <|
  .inside (.statement [.bind (.word .letWord) ⟨.ident "b", "b"⟩ (.int (.int "2") (.ofCount 2))] []) <|
  .inside (.block (.sym .openBrace)) .hole

/-- `{ return 3; }` -/
def giveUp : Block :=
  .mk (.sym .openBrace) [.ret (.word .returnWord) (some (.int (.int "3") (.ofCount 3)))]

/-- The `return` keeps `a` from being bound, and from being looked up, but `b` is bound; the program
gives what is returned. So does the call of a function with that body. In `{[]: a}` the key is an
array, and `a` is not looked up. Where the body is entered, the `return` is caught. -/
theorem signal_escapes_midway :
    (∃ p : Program, (midway.fill (.block giveUp.statements)).job = .block p.statements ∧
      ∃ depth, program depth 0 p .fresh =
        some (.ok (.int (.ofCount 3)), Store.fresh.set 0 "b" (.int (.ofCount 2)))) ∧
    Ends 0 (.call (.function ⟨0, [], giveUp, 0⟩) []) .fresh (.ok (.int (.ofCount 3)))
      (Store.fresh.addFrame (.empty (some 0))) ∧
    Ends 0 (.expr (.hash (.sym .openBrace)
        [(.array (.sym .openBracket) [], .ident ⟨.ident "a", "a"⟩)])) .fresh
      (.error (.raised (.notKey .array))) .fresh ∧
    Point.run ⟨2, 0, .call (.function ⟨0, [], giveUp, 0⟩) [], .fresh⟩ =
      some (.ok (.int (.ofCount 3)), Store.fresh.addFrame (.empty (some 0))) := by
  obtain ⟨hcontext, hkey, hcall, -, hprogram, -, henters⟩ := signal_escapes 0 .fresh
  refine ⟨⟨⟨_⟩, rfl, ?_⟩, ?_, ?_, ?_⟩
  · have hpasses : Passes 0 midway.before .fresh (Store.fresh.set 0 "b" (.int (.ofCount 2))) :=
      .cons ⟨1, rfl⟩ trivial (.cons ⟨1, rfl⟩ rfl (.cons ⟨1, rfl⟩ rfl (.cons ⟨2, rfl⟩ trivial .nil)))
    exact hprogram _ _ _ (hcontext midway (.block giveUp.statements) _ _ _ hpasses ⟨2, rfl⟩)
  · exact hcall ⟨0, [], giveUp, 0⟩ [] _ _ rfl ⟨2, rfl⟩
  · exact hkey (.sym .openBrace) [] [] _ _ (.array []) _ _ .nil ⟨1, rfl⟩ rfl
  · have hbody : Point.Enters ⟨2, 0, .call (.function ⟨0, [], giveUp, 0⟩) [], .fresh⟩
        ⟨2, 1, .block giveUp.statements, Store.fresh.addFrame (.empty (some 0))⟩ := .body rfl
    rcases henters _ _ (.returned (.int (.ofCount 3))) _ hbody rfl with h | ⟨f, args, v, -, hv, h⟩
    · cases h
    · cases hv
      exact h

end Monkey.Eval
