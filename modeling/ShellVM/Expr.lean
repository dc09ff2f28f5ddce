import ShellVM.Value.Basic
import ShellVM.Value.Operation

/-!
# Expressions

The scripts that are compiled. Names are resolved: a variable is a local in scope or a capture of
the enclosing closure, functions of the script are named by numbers, and each call knows what it
calls. `Expr.children` are the parts that run as part of an expression; the bodies of functions and
closures run on their own and are none.
-/

namespace ShellVM

inductive Literal where
  | nil
  | boolean (b : Bool)
  | integer (n : Int64)
  | float (bits : UInt64)
  | string (s : String)
deriving DecidableEq

/-- The settings of a program call. -/
structure ProgramSettings where
  captureOutput : Bool
  captureErrors : Bool
  unbuffered : Bool
  autostart : Bool
  background : Bool
deriving DecidableEq

mutual

/-- A node and its source line; line 0 is unknown. -/
inductive Expr where
  | mk (line : UInt32) (node : Node)

inductive Node where
  | literal (value : Literal)
  /-- The texts of the parts, joined. -/
  | interpolation (parts : List Expr)
  | list (items : List Expr)
  | tuple (items : List Expr)
  | dictionary (entries : List (Expr × Expr))
  | set (items : List Expr)
  | range (first? last? : Option Expr) (inclusive : Bool)
  | struct (name : String) (fields : List (String × Expr))
  | variable (name : String)
  /-- Declares variables; several names take the items of a sequence. -/
  | declare (names : List String) (value : Expr)
  | assign (target value : Expr)
  | binary (op : BinaryOp) (left right : Expr)
  | unary (op : UnaryOp) (operand : Expr)
  | cast (value : Expr) (target : Kind)
  | index (target index : Expr)
  | field (target : Expr) (name : String)
  /-- The value of the last item, or nil. -/
  | block (items : List Expr)
  | branch (condition yes : Expr) (no? : Option Expr)
  | loop (condition body : Expr)
  | each (names : List String) (iterable body : Expr)
  | break
  | continue
  | return (value? : Option Expr)
  | attempt (body : Expr) (binding? : Option String) (handler : Expr)
  | define (id : Nat) (name : String) (parameters : List String) (body : Expr)
  | closure (parameters captures : List String) (body : Expr)
  /-- A call; `root` if it is the value of a top-level statement. -/
  | call (target : Target) (arguments : List Expr) (root : Bool)

inductive Target where
  | function (id : Nat)
  | value (callee : Expr)
  | library (function : LibraryFunction)
  | program (name : Expr) (piped? : Option Expr) (environment : List (String × Expr))
      (settings : ProgramSettings)

end

namespace Node

/-- The name of a node in messages. -/
def describe : Node → String
  | literal _ => "literal"
  | interpolation _ => "string"
  | list _ => "list"
  | tuple _ => "tuple"
  | dictionary _ => "dictionary"
  | set _ => "set"
  | range .. => "range"
  | struct .. => "struct"
  | .variable _ => "variable"
  | declare .. => "let"
  | assign .. => "assignment"
  | binary .. => "binary expression"
  | unary .. => "unary expression"
  | cast .. => "cast"
  | index .. => "indexer"
  | field .. => "field access"
  | block _ => "block"
  | branch .. => "if"
  | loop .. => "while"
  | each .. => "for"
  | .break => "break"
  | .continue => "continue"
  | .return _ => "return"
  | attempt .. => "try"
  | define .. => "function definition"
  | closure .. => "closure"
  | call .. => "call"

/-- Does running the node leave a value? -/
def producesValue : Node → Bool
  | declare .. | loop .. | each .. | define .. | .break | .continue | .return _ => false
  | _ => true

end Node

namespace Expr

instance : Inhabited Expr := ⟨mk 0 (.literal .nil)⟩

def line : Expr → UInt32
  | mk line _ => line

def node : Expr → Node
  | mk _ node => node

def producesValue (e : Expr) : Bool := e.node.producesValue

/-- The parts that run as part of the expression, in the order in which they run. -/
def children (e : Expr) : List Expr :=
  match e.node with
  | .literal _ | .variable _ | .break | .continue | .define .. | .closure .. => []
  | .interpolation items | .list items | .tuple items | .set items | .block items => items
  | .dictionary entries => entries.flatMap fun (k, v) => [k, v]
  | .range first? last? _ => first?.toList ++ last?.toList
  | .struct _ fields => fields.map Prod.snd
  | .declare _ value => [value]
  | .assign target value => [target, value]
  | .binary _ left right => [left, right]
  | .unary _ operand => [operand]
  | .cast value _ => [value]
  | .index target index => [target, index]
  | .field target _ => [target]
  | .branch condition yes no? => [condition, yes] ++ no?.toList
  | .loop condition body => [condition, body]
  | .each _ iterable body => [iterable, body]
  | .return value? => value?.toList
  | .attempt body _ handler => [body, handler]
  | .call target arguments _ =>
    match target with
    | .function _ | .library _ => arguments
    | .value callee => callee :: arguments
    | .program name piped? environment _ =>
      name :: arguments ++ piped?.toList ++ environment.map Prod.snd

theorem sizeOf_lt_of_mem_children {c e : Expr} (h : c ∈ e.children) : sizeOf c < sizeOf e := by
  obtain ⟨line, node⟩ := e
  have items {xs : List Expr} (h : c ∈ xs) : sizeOf c < sizeOf xs := List.sizeOf_lt_of_mem h
  have option {o : Option Expr} (h : c ∈ o.toList) : sizeOf c < sizeOf o := by
    cases o <;> simp_all
  have fields {xs : List (String × Expr)} (h : c ∈ xs.map Prod.snd) : sizeOf c < sizeOf xs := by
    obtain ⟨⟨s, d⟩, hx, rfl⟩ := List.mem_map.1 h
    have := List.sizeOf_lt_of_mem hx
    simp at this ⊢
    omega
  have pairs {xs : List (Expr × Expr)} (h : c ∈ xs.flatMap fun (k, v) => [k, v]) :
      sizeOf c < sizeOf xs := by
    obtain ⟨⟨k, v⟩, hx, hc⟩ := List.mem_flatMap.1 h
    have := List.sizeOf_lt_of_mem hx
    simp at this hc
    rcases hc with rfl | rfl <;> omega
  cases node <;> simp only [children, Expr.node] at h <;>
    (try split at h) <;>
    (try simp only [List.mem_append, List.mem_cons, List.not_mem_nil, or_false] at h) <;>
    simp only [Expr.mk.sizeOf_spec, Node.interpolation.sizeOf_spec,
      Node.list.sizeOf_spec, Node.tuple.sizeOf_spec, Node.dictionary.sizeOf_spec,
      Node.set.sizeOf_spec, Node.range.sizeOf_spec, Node.struct.sizeOf_spec,
      Node.declare.sizeOf_spec, Node.assign.sizeOf_spec, Node.binary.sizeOf_spec,
      Node.unary.sizeOf_spec, Node.cast.sizeOf_spec, Node.index.sizeOf_spec,
      Node.field.sizeOf_spec, Node.block.sizeOf_spec, Node.branch.sizeOf_spec,
      Node.loop.sizeOf_spec, Node.each.sizeOf_spec, Node.return.sizeOf_spec,
      Node.attempt.sizeOf_spec, Node.call.sizeOf_spec, Target.value.sizeOf_spec,
      Target.program.sizeOf_spec] <;>
    grind

/-- The expression and all that runs as part of it, each before its parts, with how deep it lies. -/
def preorder (depth : Nat) (e : Expr) : List (Nat × Expr) :=
  (depth, e) :: e.children.attach.flatMap fun ⟨c, _⟩ => preorder (depth + 1) c
termination_by sizeOf e
decreasing_by exact sizeOf_lt_of_mem_children ‹_›

/-- The names that the closures created by running the expression capture. -/
def captured (e : Expr) : List String :=
  (match e.node with
    | .closure _ captures _ => captures
    | _ => []) ++ e.children.attach.flatMap fun ⟨c, _⟩ => captured c
termination_by sizeOf e
decreasing_by exact sizeOf_lt_of_mem_children ‹_›

end Expr

end ShellVM
