import ShellVM.Value.Cast
import ShellVM.Value.Order
import ShellVM.Number.Remainder

/-!
# Operators on values

Integer arithmetic is exact or refused; division always gives a float, and an integer next to a
float counts as one. Strings and lists can be joined and repeated, sets united and subtracted.
-/

namespace ShellVM

/-- The largest string in bytes, or list in items, that a repetition may give. -/
def maxRepeat : Nat := 268435456

/-- The number of copies that a repetition makes of a sequence of a given length. -/
def repeatCount (length : Nat) (n : Int64) : Except Cause Nat :=
  if n < 0 || length = 0 then .ok 0
  else
    let total := length * n.toInt.toNat
    if Range.maxCount < total then .error (.integerOverflow "*")
    else if maxRepeat < total then .error (.limitExceeded .repeatedLength maxRepeat)
    else .ok n.toInt.toNat

def repeatString (s : String) (count : Nat) : String := Nat.repeat (· ++ s) count ""

def repeatArray (items : Array Value) (count : Nat) : Array Value := Nat.repeat (· ++ items) count #[]

/-- Does the needle stand somewhere in the text? -/
def isInfix (needle : List Char) : List Char → Bool
  | [] => needle.isEmpty
  | c :: rest => needle.isPrefixOf (c :: rest) || isInfix needle rest

namespace Value

def floatArithmetic (op : BinaryOp) (a b : Float) : Except Cause Value :=
  match op with
  | .add => .ok (float (a + b))
  | .subtract => .ok (float (a - b))
  | .multiply => .ok (float (a * b))
  | .divide => if b == 0.0 then .error .divisionByZero else .ok (float (a / b))
  | .modulo => if b == 0.0 then .error .divisionByZero else .ok (float (Number.remainder a b))
  | .power => .ok (float (a ^ b))
  | op => .error (.internal (.notArithmetic op))

def integerArithmetic (op : BinaryOp) (a b : Int64) : Except Cause Value :=
  let exact (r : Option Int64) : Except Cause Value :=
    match r with
    | some n => .ok (integer n)
    | none => .error (.integerOverflow op.symbol)
  match op with
  | .add => exact (Word.add? a b)
  | .subtract => exact (Word.sub? a b)
  | .multiply => exact (Word.mul? a b)
  | .divide => floatArithmetic op a.toFloat b.toFloat
  | .modulo => if b == 0 then .error .divisionByZero else exact (Word.rem? a b)
  | .power =>
    if 0 ≤ b && b ≤ 4294967295 then exact (Word.pow? a b.toInt.toNat)
    else floatArithmetic op a.toFloat b.toFloat
  | op => .error (.internal (.notArithmetic op))

/-- What arithmetic gives on two values that are not both integers and make no sequence. -/
def mixedArithmetic (op : BinaryOp) (a b : Value) : Except Cause Value :=
  match a.asNumber?, b.asNumber? with
  | some x, some y => floatArithmetic op x y
  | _, _ => .error (.invalidBinary op a.kind b.kind)

def arithmetic (op : BinaryOp) (a b : Value) : Effect Value := do
  match a, b, op with
  | integer m, integer n, op => Effect.ofExcept (integerArithmetic op m n)
  | string s, v, .add => return string (s ++ (← v.text))
  | string s, integer n, .multiply =>
    let count ← Effect.ofExcept (repeatCount s.utf8ByteSize n)
    return string (repeatString s count)
  | list m, list n, .add =>
    let w ← get
    Effect.newList (w.list m ++ w.list n)
  | list m, integer n, .multiply =>
    let items := (← get).list m
    let count ← Effect.ofExcept (repeatCount items.size n)
    Effect.newList (repeatArray items count)
  | tuple as, tuple bs, .add => return tuple (as ++ bs)
  | set m, set n, .add =>
    let w ← get
    Effect.newSet ((w.set n).keys.foldl (fun s k => s.insert k ()) (w.set m))
  | set m, set n, .subtract =>
    let w ← get
    Effect.newSet (.ofKeys ((w.set m).keys.filter fun k => !(w.set n).contains k))
  | a, b, op => Effect.ofExcept (mixedArithmetic op a b)

/-- Is the needle in the value? -/
def contains (v needle : Value) : Effect Bool := do
  let w ← get
  match v with
  | list a => return (w.list a).any fun item => same w item needle
  | tuple vs => return vs.any fun item => same w item needle
  | set a => return needle.key?.any (w.set a).contains
  | dictionary a => return needle.key?.any (w.dictionary a).contains
  | string s =>
    match needle with
    | string n => return isInfix n.toList s.toList
    | needle => Effect.fail (.invalidBinary .member needle.kind .string)
  | range r => return needle.asInteger?.any r.contains
  | stream a =>
    let t ← needle.text
    return (← Job.lines a).contains t
  | v => Effect.fail (.invalidBinary .member needle.kind v.kind)

/-- Applies an operator with two operands. -/
def binary (op : BinaryOp) (a b : Value) : Effect Value := do
  match op with
  | .equal => return boolean (same (← get) a b)
  | .notEqual => return boolean !(same (← get) a b)
  | .and => if ← a.truth then return boolean (← b.truth) else return boolean false
  | .or => if ← a.truth then return boolean true else return boolean (← b.truth)
  | .member => return boolean (← b.contains a)
  | .less => return boolean (← Effect.ofExcept (less (← get) op a b))
  | .lessEqual =>
    let w ← get
    if same w a b then return boolean true
    return boolean (← Effect.ofExcept (less w op a b))
  | .greater => return boolean (← Effect.ofExcept (less (← get) op b a))
  | .greaterEqual =>
    let w ← get
    if same w a b then return boolean true
    return boolean (← Effect.ofExcept (less w op b a))
  | .add | .subtract | .multiply | .divide | .modulo | .power => arithmetic op a b

/-- Applies an operator with one operand. -/
def unary (op : UnaryOp) (v : Value) : Effect Value := do
  match op, v with
  | .not, v => return boolean !(← v.truth)
  | .negate, integer n =>
    match Word.neg? n with
    | some r => return integer r
    | none => Effect.fail (.integerOverflow "-")
  | .negate, float x => return float (-x)
  | .negate, v => Effect.fail (.invalidUnary op v.kind)

end Value

end ShellVM
