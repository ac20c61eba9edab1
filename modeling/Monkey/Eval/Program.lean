import Monkey.Eval.Basic
import Monkey.Eval.Builtin
import Monkey.Eval.Operators

/-! # Evaluating programs

Everything goes from left to right and from the inside out. An evaluation may go `depth` levels deep
into the program and the functions that it calls, and is cut off below that.
-/

namespace Monkey

namespace Eval

/-- The value of a name: what it is bound to, or else the builtin of that name. -/
def name (scope : FrameId) (x : String) : Eval Value := do
  match ← ask (·.get? scope x) with
  | some v => pure v
  | none =>
    match Builtin.ofName? x with
    | some b => pure (.builtin b)
    | none => raise (.unbound x)

/-- Runs statements one after the other. The value of the last one is the value of all; where there
is none, it is `null`. -/
def sequence (stmt : Stmt → Eval Value) (ss : List Stmt) : Eval Value :=
  ss.foldlM (fun _ s => stmt s) .null

/-- Calls a builtin from inside a program, where an error that it answers with is a fault. -/
def callBuiltin (b : Builtin) (args : List Value) : Eval Value := do
  update (·.print (b.printed args))
  match b.answer args with
  | .error message => raise (.builtin message)
  | v => pure v

/-- Calls a value. `run` runs the body of a function in the frame of the call. -/
def call (run : FrameId → List Stmt → Eval Value) (callee : Value) (args : List Value) :
    Eval Value :=
  match callee with
  | .function f =>
    if f.params.length = args.length then do
      let frame ← addFrame (.ofCall f.scope (f.params.map Ident.name) args)
      returning (run frame f.body.statements)
    else
      raise (.argumentCount f.params.length args.length)
  | .builtin b => callBuiltin b args
  | v => raise (.notFunction v.kind)

/-- Adds a pair to a hash. The key is found to be one before the value is evaluated. -/
def addPair (expr : Expr → Eval Value) (t : Table (Entry Value)) (pair : Expr × Expr) :
    Eval (Table (Entry Value)) := do
  let c ← expr pair.1
  let k ← ofExcept (key c)
  let v ← expr pair.2
  pure (t.insert k ⟨c, v⟩)

mutual

def expr : Nat → FrameId → Expr → Eval Value
  | 0, _, _ => spent
  | depth + 1, scope, e =>
    match e with
    | .ident x => name scope x.name
    | .int _ n => pure (.int n)
    | .str _ s => pure (.str s)
    | .bool _ b => pure (.bool b)
    | .unary _ op e => do
      let v ← expr depth scope e
      ofExcept (unary op v)
    | .binary _ op l r => do
      let v ← expr depth scope l
      let w ← expr depth scope r
      ofExcept (binary op v w)
    | .cond _ c t e? => do
      let v ← expr depth scope c
      if v.isTruthy then
        sequence (stmt depth scope) t.statements
      else
        match e? with
        | some e => sequence (stmt depth scope) e.statements
        | none => pure .null
    | .fn _ params body => makeFunction params body scope
    | .call _ f args => do
      let callee ← expr depth scope f
      let vs ← args.mapM (expr depth scope)
      call (fun frame => sequence (stmt depth frame)) callee vs
    | .array _ es => do
      let vs ← es.mapM (expr depth scope)
      pure (.array vs)
    | .index _ l i => do
      let v ← expr depth scope l
      let w ← expr depth scope i
      ofExcept (index v w)
    | .hash _ ps => do
      let t ← ps.foldlM (addPair (expr depth scope)) []
      pure (.hash t)

def stmt : Nat → FrameId → Stmt → Eval Value
  | 0, _, _ => spent
  | depth + 1, scope, s =>
    match s with
    | .bind _ x e => do
      let v ← expr depth scope e
      update (·.set scope x.name v)
      pure v
    | .ret _ (some e) => do
      let v ← expr depth scope e
      signal (.returned v)
    | .ret _ none => raise .nothingToReturn
    | .expr e => expr depth scope e
    | .block b => sequence (stmt depth scope) b.statements

end

/-- Runs a whole program. A `return` outside of all functions ends it. -/
def program (depth : Nat) (scope : FrameId) (p : Program) : Eval Value :=
  returning (sequence (stmt depth scope) p.statements)

end Eval

/-- The value of a program that is run in the frame `scope`. A fault is shown as an error. -/
def Program.eval (p : Program) (depth : Nat) (scope : FrameId) (s : Store) :
    Option (Value × Store) :=
  match Eval.program depth scope p s with
  | none => none
  | some (.ok v, t) | some (.error (.returned v), t) => some (v, t)
  | some (.error (.raised f), t) => some (.error f.message, t)

end Monkey
