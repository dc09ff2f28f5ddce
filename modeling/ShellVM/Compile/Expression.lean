import ShellVM.Compile.Construct

/-!
# Code of expressions

The code of an expression is emitted by recursion on it, given the constructs that take differences of heights.
`Expr.emit` takes those of the language; `Expr.emitValue` makes sure that exactly one value is left on the stack.
-/

namespace ShellVM

def Literal.constant : Literal → Constant
  | .nil => .nil
  | .boolean b => .boolean b
  | .integer n => .integer n
  | .float bits => .float bits
  | .string s => .string s

def BinaryOp.opcode : BinaryOp → Op
  | .add => .add
  | .subtract => .sub
  | .multiply => .mul
  | .divide => .div
  | .modulo => .mod
  | .power => .pow
  | .equal => .equal
  | .notEqual => .notEqual
  | .less => .less
  | .lessEqual => .lessEqual
  | .greater => .greater
  | .greaterEqual => .greaterEqual
  | .and => .and
  | .or => .or
  | .member => .contains

def UnaryOp.opcode : UnaryOp → Op
  | .negate => .negate
  | .not => .not

open Emit

namespace Emit.Differences

mutual

/-- Emits the code of an expression. -/
def expr (x : Differences) : Expr → Emit Unit
  | .mk line node => do
    markLine line
    x.node node line

/-- Emits the code of a node; `line` is where it stands. -/
def node (x : Differences) : Node → (line : UInt32) → Emit Unit
  | .literal l, _ => constant l.constant
  | .interpolation parts, _ => do
    x.values parts
    word .buildString parts.length "interpolated parts"
  | .list items, _ => do
    x.values items
    word .buildList items.length "collection items"
  | .tuple items, _ => do
    x.values items
    word .buildTuple items.length "collection items"
  | .set items, _ => do
    x.values items
    word .buildSet items.length "collection items"
  | .dictionary entries, _ => do
    x.entries entries
    word .buildDict entries.length "dictionary entries"
  | .range first? last? inclusive, _ => do
    x.part? first?
    x.part? last?
    let flag (b : Bool) (f : UInt8) : UInt8 := if b then f else 0
    op .buildRange [flag first?.isSome RangeFlag.hasFirst ||| flag last?.isSome RangeFlag.hasLast |||
      flag inclusive RangeFlag.inclusive]
  | .struct name fields, _ => do
    x.fields fields
    let key ← constantKey (.shape name (fields.map Prod.fst))
    op .buildStruct (wordBytes key)
    popHeight fields.length
    setHeight ((← height) + 1)
  | .variable name, _ => load name
  | .declare names value, _ => x.declaration names (valued value.producesValue (x.expr value))
  | .assign (.mk targetLine target) value, line =>
    match target with
    | .variable name => do
      let place ← resolve name
      valued value.producesValue (x.expr value)
      store place
    | .index container index => do
      valued value.producesValue (x.expr value)
      valued container.producesValue (x.expr container)
      valued index.producesValue (x.expr index)
      op .indexStore []
    | .field container name => do
      valued value.producesValue (x.expr value)
      valued container.producesValue (x.expr container)
      constant (.string name)
      op .indexStore []
    | other =>
      throw (.invalidAssignment other.describe (if 0 < targetLine then targetLine else line))
  | .binary .and left right, _ =>
    shortCircuit .jumpIfNot (valued left.producesValue (x.expr left))
      (valued right.producesValue (x.expr right))
  | .binary .or left right, _ =>
    shortCircuit .jumpIf (valued left.producesValue (x.expr left))
      (valued right.producesValue (x.expr right))
  | .binary o left right, _ => do
    valued left.producesValue (x.expr left)
    valued right.producesValue (x.expr right)
    op o.opcode []
  | .unary o operand, _ => do
    valued operand.producesValue (x.expr operand)
    op o.opcode []
  | .cast value target, _ => do
    valued value.producesValue (x.expr value)
    op .cast [target.tag]
  | .index target index, _ => do
    valued target.producesValue (x.expr target)
    valued index.producesValue (x.expr index)
    op .index []
  | .field target name, _ => do
    valued target.producesValue (x.expr target)
    constant (.string name)
    op .index []
  | .block items, _ => do
    beginScope
    x.items items
    endScope true
  | .branch condition yes no?, _ =>
    branch (valued condition.producesValue (x.expr condition)) (valued yes.producesValue (x.expr yes))
      (match no? with
        | some no => valued no.producesValue (x.expr no)
        | none => nil)
  | .loop condition body, _ =>
    loop (valued condition.producesValue (x.expr condition)) (valued body.producesValue (x.expr body))
  | .each names iterable body, _ =>
    each names (valued iterable.producesValue (x.expr iterable)) (valued body.producesValue (x.expr body))
  | .break, _ => x.leaveLoop
  | .continue, _ => x.nextRound
  | .return value?, _ =>
    x.leavePage (match value? with
      | some value => valued value.producesValue (x.expr value)
      | none => nil)
  | .attempt body binding? handler, _ =>
    attempt (valued body.producesValue (x.expr body)) binding?
      (valued handler.producesValue (x.expr handler))
  | .define id name parameters body, _ =>
    define id
      (page name parameters [] body.captured (valued body.producesValue (x.expr body)))
  | .closure parameters captures body, _ =>
    closure captures
      (page "<closure>" parameters captures body.captured (valued body.producesValue (x.expr body)))
  | .call target arguments root, _ => x.target target arguments.length root (x.values arguments)

/-- Emits a call, given the number of its arguments and what emits them. -/
def target (x : Differences) : Target → (count : Nat) → (root : Bool) → (arguments : Emit Unit) → Emit Unit
  | .function id, count, root, arguments => do
    constant (.page (← functionPage id))
    call root count arguments
  | .value callee, count, root, arguments => do
    valued callee.producesValue (x.expr callee)
    call root count arguments
  | .library f, count, _, arguments => libraryCall f count arguments
  | .program name piped? environment settings, count, root, arguments =>
    programCall settings root count environment.length (valued name.producesValue (x.expr name)) arguments
      (match piped? with
        | some piped => some (valued piped.producesValue (x.expr piped))
        | none => none)
      (x.bindings environment)

def part? (x : Differences) : Option Expr → Emit Unit
  | none => pure ()
  | some e => valued e.producesValue (x.expr e)

def values (x : Differences) : List Expr → Emit Unit
  | [] => pure ()
  | e :: rest => do
    valued e.producesValue (x.expr e)
    x.values rest

def entries (x : Differences) : List (Expr × Expr) → Emit Unit
  | [] => pure ()
  | (k, v) :: rest => do
    valued k.producesValue (x.expr k)
    valued v.producesValue (x.expr v)
    x.entries rest

def fields (x : Differences) : List (String × Expr) → Emit Unit
  | [] => pure ()
  | (_, v) :: rest => do
    valued v.producesValue (x.expr v)
    x.fields rest

def bindings (x : Differences) : List (String × Expr) → Emit Unit
  | [] => pure ()
  | (name, v) :: rest => do
    constant (.string name)
    valued v.producesValue (x.expr v)
    x.bindings rest

/-- The items of a block leave the value of the last one, or nil. -/
def items (x : Differences) : List Expr → Emit Unit
  | [] => nil
  | [e] => do
    x.expr e
    if e.producesValue then pure () else nil
  | e :: rest => do
    x.expr e
    if e.producesValue then pop
    x.items rest

end

end Emit.Differences

/-- Emits the code of an expression. -/
abbrev Expr.emit (e : Expr) : Emit Unit := Differences.plain.expr e

abbrev Node.emit (node : Node) (line : UInt32) : Emit Unit := Differences.plain.node node line

abbrev Target.emit (target : Target) (count : Nat) (root : Bool) (arguments : Emit Unit) : Emit Unit :=
  Differences.plain.target target count root arguments

abbrev emitValue? (e? : Option Expr) : Emit Unit := Differences.plain.part? e?

abbrev emitValues (es : List Expr) : Emit Unit := Differences.plain.values es

abbrev emitEntries (es : List (Expr × Expr)) : Emit Unit := Differences.plain.entries es

abbrev emitFields (es : List (String × Expr)) : Emit Unit := Differences.plain.fields es

abbrev emitVariables (es : List (String × Expr)) : Emit Unit := Differences.plain.bindings es

abbrev emitItems (es : List Expr) : Emit Unit := Differences.plain.items es

/-- Emits an expression so that exactly one value is left. -/
def Expr.emitValue (e : Expr) : Emit Unit := valued e.producesValue e.emit

end ShellVM
