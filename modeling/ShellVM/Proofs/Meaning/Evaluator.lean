import ShellVM.Expr
import ShellVM.Iter
import ShellVM.Value.Arithmetic
import ShellVM.Value.Index

/-!
# What expressions mean

A reference evaluator for the part of the language without calls: literals, variables, declarations and assignments,
operators, casts, tuples, lists, indexers, blocks, branches, loops and `try`. It works on the expression itself, with an
environment that is scoped as the source text is, and uses the operations on values and the iterators that the machine
uses. An evaluation takes fuel, so that it is a function also where the expression runs forever.
-/

namespace ShellVM

/-- How an evaluation is left before its end. -/
inductive Escape where
  | break
  | continue
  | return (value : Value)
  | fail (cause : Cause)
  /-- The fuel is used up, or the expression is not one of this part of the language. -/
  | stuck

/-- The variables in scope, the latest first, and the world. -/
structure Scene where
  bindings : List (String × Value)
  world : World

/-- Forgets all but the outermost `n` variables. -/
def Scene.keep (s : Scene) (n : Nat) : Scene := { s with bindings := s.bindings.drop (s.bindings.length - n) }

abbrev Eval := EStateM Escape Scene

namespace Eval

variable {α : Type}

/-- An effect on the world. -/
def effect (e : Effect α) : Eval α := fun s =>
  match e s.world with
  | .ok a w => .ok a { s with world := w }
  | .error fault w => .error (.fail fault.cause) { s with world := w }

/-- What is declared inside is forgotten at the end, also if the end is not reached. -/
def enclosed (x : Eval α) : Eval α := fun s =>
  match x s with
  | .ok a t => .ok a (t.keep s.bindings.length)
  | .error escape t => .error escape (t.keep s.bindings.length)

/-! ## Variables -/

def declare (name : String) (v : Value) : Eval Unit := modify fun s => { s with bindings := (name, v) :: s.bindings }

def lookup (name : String) : Eval Value := do
  match (← get).bindings.lookup name with
  | some v => return v
  | none => throw .stuck

/-- The variables after an assignment to the innermost one of the name. -/
def assigned (name : String) (v : Value) : List (String × Value) → Option (List (String × Value))
  | [] => none
  | (x, u) :: rest => if name == x then some ((x, v) :: rest) else ((x, u) :: ·) <$> assigned name v rest

def assign (name : String) (v : Value) : Eval Unit := do
  match assigned name v (← get).bindings with
  | some bindings => modify fun s => { s with bindings }
  | none => throw .stuck

/-! ## Control -/

/-- The body of a loop. Tells whether the loop goes on. -/
def round (body : Eval α) : Eval Bool := fun s =>
  match body s with
  | .ok _ t => .ok true t
  | .error .continue t => .ok true t
  | .error .break t => .ok false t
  | .error escape t => .error escape t

def loop (condition : Eval Value) (body : Eval α) : (fuel : Nat) → Eval Unit
  | 0 => throw .stuck
  | fuel + 1 => do
    if ← effect (← condition).truth then
      if ← round body then loop condition body fuel

def each (body : Value → Eval α) : (fuel : Nat) → Iter → Eval Unit
  | 0, _ => throw .stuck
  | fuel + 1, it => do
    let (item?, it) ← effect it.next
    match item? with
    | none => pure ()
    | some v => if ← round (body v) then each body fuel it

/-- Errors of the body that can be caught go to the handler, in the scope in which the body started. -/
def attempt (body : Eval Value) (handler : Cause → Eval Value) : Eval Value := fun s =>
  match body s with
  | .error (.fail cause) t => if cause.isCatchable then handler cause t else .error (.fail cause) t
  | r => r

end Eval

def Literal.value : Literal → Value
  | .nil => .nil
  | .boolean b => .boolean b
  | .integer n => .integer n
  | .float bits => .float (.ofBits bits)
  | .string s => .string s

section

open Eval

/-- The values of expressions, each in a scope of its own. -/
def evaluateAll (run : Expr → Eval Value) : List Expr → Eval (List Value)
  | [] => return []
  | e :: rest => do
    let v ← enclosed (run e)
    return v :: (← evaluateAll run rest)

/-- The items of a block share a scope. Its value is that of the last one, or nil. -/
def evaluateItems (run : Expr → Eval Value) : List Expr → Eval Value
  | [] => return .nil
  | [e] => run e
  | e :: rest => do
    let _ ← run e
    evaluateItems run rest

/-- Both sides of `and` and `or`: the right one runs only if the left one does not settle the matter. -/
def evaluateShort (settles : Bool) (left right : Eval Value) : Eval Value := do
  let l ← left
  let v ← if (← effect l.truth) == settles then pure l else right
  effect (v.cast .boolean)

/-- The value of a node, if `run` gives the values of its parts. A declaration declares in the scope at hand. -/
def Node.evaluate (run : Expr → Eval Value) (fuel : Nat) : Node → Eval Value
  | .literal l => return l.value
  | .variable name => lookup name
  | .declare [name] value => do
    Eval.declare name (← enclosed (run value))
    return .nil
  | .assign (.mk _ (.variable name)) value => do
    let v ← enclosed (run value)
    Eval.assign name v
    return v
  | .assign (.mk _ (.index container place)) value => do
    let v ← enclosed (run value)
    let c ← enclosed (run container)
    let i ← enclosed (run place)
    effect (c.store i v)
    return v
  | .binary .and left right => evaluateShort false (enclosed (run left)) (enclosed (run right))
  | .binary .or left right => evaluateShort true (enclosed (run left)) (enclosed (run right))
  | .binary o left right => do
    let l ← enclosed (run left)
    let r ← enclosed (run right)
    effect (Value.binary o l r)
  | .unary o operand => do effect (Value.unary o (← enclosed (run operand)))
  | .cast value target => do effect ((← enclosed (run value)).cast target)
  | .tuple items => do return .tuple (← evaluateAll run items)
  | .list items => do effect (Effect.newList (← evaluateAll run items).toArray)
  | .index target place => do
    let t ← enclosed (run target)
    let i ← enclosed (run place)
    effect (t.index i)
  | .block items => enclosed (evaluateItems run items)
  | .branch condition yes no? => do
    if ← effect (← enclosed (run condition)).truth then enclosed (run yes)
    else
      match no? with
      | some no => enclosed (run no)
      | none => return .nil
  | .loop condition body => do
    Eval.loop (enclosed (run condition)) (enclosed (run body)) fuel
    return .nil
  | .each [name] iterable body => do
    let v ← enclosed (run iterable)
    Eval.each (fun item => enclosed do
      Eval.declare name item
      enclosed (run body)) fuel (← effect (Iter.ofValue v))
    return .nil
  | .break => throw .break
  | .continue => throw .continue
  | .return value? => do
    match value? with
    | some value => throw (.return (← enclosed (run value)))
    | none => throw (.return .nil)
  | .attempt body binding? handler =>
    Eval.attempt (enclosed (run body)) fun cause =>
      match binding? with
      | some name => enclosed do
        Eval.declare name (.error (.string cause.message) none)
        enclosed (run handler)
      | none => enclosed (run handler)
  | _ => throw .stuck

end

/-- The value of an expression. -/
def Expr.evaluate : (fuel : Nat) → Expr → Eval Value
  | 0, _ => throw .stuck
  | fuel + 1, e => e.node.evaluate (evaluate fuel) fuel

/-- The part of the language without calls. -/
inductive Expr.CallFree : Expr → Prop where
  | literal {line : UInt32} (l : Literal) : CallFree (.mk line (.literal l))
  | variable {line : UInt32} (name : String) : CallFree (.mk line (.variable name))
  | declare {line : UInt32} {value : Expr} (name : String) (h : CallFree value) :
      CallFree (.mk line (.declare [name] value))
  | assign {line line' : UInt32} {value : Expr} (name : String) (h : CallFree value) :
      CallFree (.mk line (.assign (.mk line' (.variable name)) value))
  | store {line line' : UInt32} {container index value : Expr} (hvalue : CallFree value)
      (hcontainer : CallFree container) (hindex : CallFree index) :
      CallFree (.mk line (.assign (.mk line' (.index container index)) value))
  | binary {line : UInt32} {left right : Expr} (o : BinaryOp) (hleft : CallFree left) (hright : CallFree right) :
      CallFree (.mk line (.binary o left right))
  | unary {line : UInt32} {operand : Expr} (o : UnaryOp) (h : CallFree operand) : CallFree (.mk line (.unary o operand))
  | cast {line : UInt32} {value : Expr} (h : CallFree value) (target : Kind) : CallFree (.mk line (.cast value target))
  | tuple {line : UInt32} {items : List Expr} (h : ∀ e ∈ items, CallFree e) : CallFree (.mk line (.tuple items))
  | list {line : UInt32} {items : List Expr} (h : ∀ e ∈ items, CallFree e) : CallFree (.mk line (.list items))
  | index {line : UInt32} {target index : Expr} (htarget : CallFree target) (hindex : CallFree index) :
      CallFree (.mk line (.index target index))
  | block {line : UInt32} {items : List Expr} (h : ∀ e ∈ items, CallFree e) : CallFree (.mk line (.block items))
  | branch {line : UInt32} {condition yes : Expr} {no? : Option Expr} (hcondition : CallFree condition)
      (hyes : CallFree yes) (hno : ∀ no, no? = some no → CallFree no) : CallFree (.mk line (.branch condition yes no?))
  | loop {line : UInt32} {condition body : Expr} (hcondition : CallFree condition) (hbody : CallFree body) :
      CallFree (.mk line (.loop condition body))
  | each {line : UInt32} {iterable body : Expr} (name : String) (hiterable : CallFree iterable)
      (hbody : CallFree body) : CallFree (.mk line (.each [name] iterable body))
  | break {line : UInt32} : CallFree (.mk line .break)
  | continue {line : UInt32} : CallFree (.mk line .continue)
  | return {line : UInt32} {value? : Option Expr} (h : ∀ value, value? = some value → CallFree value) :
      CallFree (.mk line (.return value?))
  | attempt {line : UInt32} {body handler : Expr} {binding? : Option String} (hbody : CallFree body)
      (hhandler : CallFree handler) : CallFree (.mk line (.attempt body binding? handler))

end ShellVM
