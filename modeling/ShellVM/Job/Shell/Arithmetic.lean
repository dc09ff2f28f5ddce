import ShellVM.Number.Reader

/-!
# Arithmetic of the shell

The value of an integer expression over numbers and variables, with 64 bits, by precedence. An
operand that does not count, as after a false condition, is read but has no effect.
-/

namespace ShellVM.Shell.Arithmetic

inductive Lexeme where
  | number (n : Int)
  | name (s : String)
  | symbol (s : String)
deriving DecidableEq

/-- A number to 64 bits. -/
def wrap (n : Int) : Int := n.bmod 18446744073709551616

def digitValue (c : Char) : Nat :=
  if c.isDigit then c.toNat - '0'.toNat else c.toLower.toNat - 'a'.toNat + 10

def isHexDigit (c : Char) : Bool := c.isDigit || ('a' ≤ c.toLower && c.toLower ≤ 'f')

def isOctalDigit (c : Char) : Bool := '0' ≤ c && c ≤ '7'

def valueOf (base : Nat) (digits : List Char) : Nat :=
  digits.foldl (fun n d => base * n + digitValue d) 0

/-- A number at the front: its value, and the number of its characters. -/
def readDigits (cs : List Char) : Nat × Nat :=
  match cs with
  | '0' :: x :: rest =>
    if (x == 'x' || x == 'X') && rest.head?.any isHexDigit then
      let digits := rest.takeWhile isHexDigit
      (valueOf 16 digits, digits.length + 2)
    else
      let digits := cs.takeWhile isOctalDigit
      (valueOf 8 digits, digits.length)
  | cs =>
    let digits := cs.takeWhile Char.isDigit
    (valueOf 10 digits, digits.length)

/-- The operators, longer ones first. -/
def operators : List String :=
  ["<<=", ">>=", "<<", ">>", "<=", ">=", "==", "!=", "&&", "||", "+=", "-=", "*=", "/=", "%=", "&=",
    "^=", "|=", "+", "-", "*", "/", "%", "<", ">", "=", "&", "^", "|", "!", "~", "?", ":", "(", ")"]

def isNameStart (c : Char) : Bool := c.isAlpha || c == '_'

def lexemes : (fuel : Nat) → List Char → List Lexeme
  | 0, _ | _, [] => []
  | fuel + 1, c :: rest =>
    if c == ' ' || c == '\t' || c == '\n' then lexemes fuel rest
    else if c.isDigit then
      let (n, width) := readDigits (c :: rest)
      .number (wrap (min n 9223372036854775807)) :: lexemes fuel ((c :: rest).drop width)
    else if isNameStart c then
      let letters := (c :: rest).takeWhile fun d => isNameStart d || d.isDigit
      .name (String.ofList letters) :: lexemes fuel ((c :: rest).drop letters.length)
    else
      match operators.find? fun op => op.toList.isPrefixOf (c :: rest) with
      | some op => .symbol op :: lexemes fuel ((c :: rest).drop op.length)
      | none => .symbol (c.toString ++ "?") :: lexemes fuel rest

/-- The variables while an expression is evaluated. -/
abbrev Bindings := List (String × String)

abbrev Eval := StateT Bindings (Except String)

def ofBool (b : Bool) : Int := if b then 1 else 0

/-- The bits of an operation on them. -/
def bitwise (f : UInt64 → UInt64 → UInt64) (a b : Int) : Int :=
  wrap (f (UInt64.ofNat (a % 18446744073709551616).toNat) (UInt64.ofNat (b % 18446744073709551616).toNat)).toNat

/-- The value of an operation. -/
def apply (op : String) (a b : Int) : Except String Int :=
  match op with
  | "*" => .ok (wrap (a * b))
  | "/" => if b = 0 then .error "division by zero" else .ok (wrap (a.tdiv b))
  | "%" => if b = 0 then .error "division by zero" else .ok (wrap (a.tmod b))
  | "+" => .ok (wrap (a + b))
  | "-" => .ok (wrap (a - b))
  | "<<" => .ok (wrap (a * Int.pow 2 (b % 64).toNat))
  | ">>" => .ok (a.fdiv (Int.pow 2 (b % 64).toNat))
  | "<" => .ok (ofBool (a < b))
  | "<=" => .ok (ofBool (a ≤ b))
  | ">" => .ok (ofBool (b < a))
  | ">=" => .ok (ofBool (b ≤ a))
  | "==" => .ok (ofBool (a == b))
  | "!=" => .ok (ofBool (a != b))
  | "&" => .ok (bitwise (· &&& ·) a b)
  | "^" => .ok (bitwise (· ^^^ ·) a b)
  | "|" => .ok (bitwise (· ||| ·) a b)
  | _ => .error "expecting EOF"

/-- The operators of each level of precedence, the weakest first. -/
def levels : List (List String) :=
  [["|"], ["^"], ["&"], ["==", "!="], ["<", "<=", ">", ">="], ["<<", ">>"], ["+", "-"], ["*", "/", "%"]]

/-- The number that a value of a variable spells. -/
def ofValue (s : String) : Except String Int :=
  let isBlank (c : Char) : Bool := c == ' ' || c == '\t' || c == '\n'
  let cs := ((s.toList.dropWhile isBlank).reverse.dropWhile isBlank).reverse
  let (negative, digits) := Number.splitSign cs
  let (n, width) := readDigits digits
  if cs.isEmpty then .ok 0
  else if width = digits.length && width != 0 then
    .ok (wrap (if negative then -(n : Int) else n))
  else .error ("Illegal number: " ++ s)

def render (n : Int) : String := if n < 0 then "-" ++ n.natAbs.repr else n.natAbs.repr

/-- The value of a variable; one without a value counts as zero. -/
def current (x : String) : Eval Int := do
  match (← get).lookup x with
  | some s => ofValue s
  | none => return 0

mutual

/-- An assignment or a condition, and what follows it. -/
def assignment : (fuel : Nat) → (counts : Bool) → List Lexeme → Eval (Int × List Lexeme)
  | 0, _, _ => throw "expecting primary"
  | fuel + 1, counts, .name x :: .symbol op :: rest => do
    if op == "=" then
      let (v, rest) ← assignment fuel counts rest
      if counts then modify fun b => (x, render v) :: b
      return (v, rest)
    else if op.endsWith "=" && !(["==", "!=", "<=", ">="].contains op) then
      let (v, rest) ← assignment fuel counts rest
      if counts then
        let old ← current x
        let new ← apply (op.dropEnd 1).toString old v
        modify fun b => (x, render new) :: b
        return (new, rest)
      else return (0, rest)
    else condition fuel counts (.name x :: .symbol op :: rest)
  | fuel + 1, counts, ls => condition fuel counts ls

def condition : (fuel : Nat) → (counts : Bool) → List Lexeme → Eval (Int × List Lexeme)
  | 0, _, _ => throw "expecting primary"
  | fuel + 1, counts, ls => do
    let (a, rest) ← either fuel counts ls
    match rest with
    | .symbol "?" :: rest => do
      let (b, rest) ← assignment fuel (counts && a != 0) rest
      match rest with
      | .symbol ":" :: rest => do
        let (c, rest) ← condition fuel (counts && a == 0) rest
        return (if a != 0 then b else c, rest)
      | _ => throw "expecting ':'"
    | rest => return (a, rest)

def either : (fuel : Nat) → (counts : Bool) → List Lexeme → Eval (Int × List Lexeme)
  | 0, _, _ => throw "expecting primary"
  | fuel + 1, counts, ls => do
    let (a, rest) ← both fuel counts ls
    match rest with
    | .symbol "||" :: rest => do
      let (b, rest) ← either fuel (counts && a == 0) rest
      return (ofBool (a != 0 || b != 0), rest)
    | rest => return (a, rest)

def both : (fuel : Nat) → (counts : Bool) → List Lexeme → Eval (Int × List Lexeme)
  | 0, _, _ => throw "expecting primary"
  | fuel + 1, counts, ls => do
    let (a, rest) ← level fuel counts levels ls
    match rest with
    | .symbol "&&" :: rest => do
      let (b, rest) ← both fuel (counts && a != 0) rest
      return (ofBool (a != 0 && b != 0), rest)
    | rest => return (a, rest)

/-- Operations of the given levels, from left to right. -/
def level : (fuel : Nat) → (counts : Bool) → List (List String) → List Lexeme → Eval (Int × List Lexeme)
  | 0, _, _, _ => throw "expecting primary"
  | fuel + 1, counts, [], ls => primary fuel counts ls
  | fuel + 1, counts, ops :: deeper, ls => do
    let (a, rest) ← level fuel counts deeper ls
    operations fuel counts ops deeper a rest

def operations : (fuel : Nat) → (counts : Bool) → List String → List (List String) → Int → List Lexeme →
    Eval (Int × List Lexeme)
  | 0, _, _, _, _, _ => throw "expecting primary"
  | fuel + 1, counts, ops, deeper, a, ls =>
    match ls with
    | .symbol op :: rest => do
      if ops.contains op then
        let (b, rest) ← level fuel counts deeper rest
        let c ← if counts then apply op a b else pure 0
        operations fuel counts ops deeper c rest
      else return (a, ls)
    | ls => return (a, ls)

def primary : (fuel : Nat) → (counts : Bool) → List Lexeme → Eval (Int × List Lexeme)
  | 0, _, _ => throw "expecting primary"
  | fuel + 1, counts, ls =>
    match ls with
    | .number n :: rest => return (n, rest)
    | .name x :: rest => do
      if counts then return (← current x, rest) else return (0, rest)
    | .symbol "(" :: rest => do
      let (a, rest) ← assignment fuel counts rest
      match rest with
      | .symbol ")" :: rest => return (a, rest)
      | _ => throw "expecting ')'"
    | .symbol "-" :: rest => do
      let (a, rest) ← primary fuel counts rest
      return (wrap (-a), rest)
    | .symbol "+" :: rest => primary fuel counts rest
    | .symbol "!" :: rest => do
      let (a, rest) ← primary fuel counts rest
      return (ofBool (a == 0), rest)
    | .symbol "~" :: rest => do
      let (a, rest) ← primary fuel counts rest
      return (-a - 1, rest)
    | _ => throw "expecting primary"

end

/-- The value of an expression, and the variables after it. -/
def eval (bindings : Bindings) (expression : String) : Except String (Int × Bindings) := do
  let ls := lexemes (expression.length + 1) expression.toList
  let ((n, rest), bindings) ← (assignment (16 * ls.length + 32) true ls).run bindings
  if rest.isEmpty then return (n, bindings) else throw "expecting EOF"

end ShellVM.Shell.Arithmetic
