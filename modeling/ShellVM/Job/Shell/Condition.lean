import ShellVM.Files
import ShellVM.Job.Shell.Arithmetic

/-!
# Conditions of the shell

The expressions of `test`: comparisons of texts and numbers and questions about files, joined by
`!`, `-a`, `-o` and parentheses. Whether a word is an operator depends on the words around it.
-/

namespace ShellVM.Shell.Condition

inductive Kind where
  | unary
  | binary
  | not
  | and
  | or
  | openParen
  | closeParen
deriving DecidableEq

def kind? (s : String) : Option Kind :=
  if ["-r", "-w", "-x", "-e", "-f", "-d", "-c", "-b", "-p", "-u", "-g", "-k", "-s", "-t", "-z", "-n", "-h",
      "-L", "-O", "-G", "-S"].contains s then some .unary
  else if ["=", "!=", "<", ">", "-eq", "-ne", "-ge", "-gt", "-le", "-lt", "-nt", "-ot", "-ef"].contains s then
    some .binary
  else if s == "!" then some .not
  else if s == "-a" then some .and
  else if s == "-o" then some .or
  else if s == "(" then some .openParen
  else if s == ")" then some .closeParen
  else none

/-- Does a word that looks like a unary operator stand for itself? -/
def isOperand : List String → Bool
  | [] | [_] => true
  | [_, _] => false
  | _ :: next :: _ => kind? next == some .binary

/-- The operator at the front, if the word there is one. -/
def operator? (words : List String) : Option Kind := do
  let word ← words.head?
  let kind ← kind? word
  if kind == .unary && isOperand words then failure
  if kind == .openParen && words.length = 1 then failure
  return kind

/-- The integer that a word spells. -/
def number (s : String) : Except String Int :=
  let cs := (s.toList.dropWhile fun c => c == ' ' || c == '\t').reverse.dropWhile (fun c => c == ' ' || c == '\t')
  let (negative, digits) := Number.splitSign cs.reverse
  if digits.isEmpty || !digits.all Char.isDigit then .error ("Illegal number: " ++ s)
  else
    let n : Int := Number.digitsValue digits
    .ok (if negative then -n else n)

/-- Answers a question about a word. -/
def unary (files : Files) (op word : String) : Bool :=
  match op with
  | "-z" => word.isEmpty
  | "-n" => !word.isEmpty
  | "-t" | "-h" | "-L" | "-b" | "-p" | "-u" | "-g" | "-k" | "-S" => false
  | _ =>
    match files.find word with
    | .error _ => false
    | .ok entry =>
      match op, entry with
      | "-f", .file _ | "-f", .program _ => true
      | "-f", _ => false
      | "-d", .directory => true
      | "-d", _ => false
      | "-c", .null => true
      | "-c", _ => false
      | "-x", .file _ | "-x", .null => false
      | "-s", .file contents => contents.size != 0
      | "-s", .null => false
      | _, _ => true

/-- Compares two words. -/
def binary (op left right : String) : Except String Bool := do
  match op with
  | "=" => return left == right
  | "!=" => return left != right
  | "<" => return decide (left < right)
  | ">" => return decide (right < left)
  | "-nt" | "-ot" | "-ef" => return false
  | _ =>
    let a ← number left
    let b ← number right
    match op with
    | "-eq" => return a == b
    | "-ne" => return a != b
    | "-ge" => return b ≤ a
    | "-gt" => return b < a
    | "-le" => return a ≤ b
    | _ => return a < b

mutual

/-- A row of alternatives, and the words from the last one that it has used. -/
def either (files : Files) : (fuel : Nat) → List String → Except String (Bool × List String)
  | 0, words => .ok (false, words)
  | fuel + 1, words => do
    let (a, last) ← both files fuel words
    if operator? (last.drop 1) == some .or then
      let (b, last) ← either files fuel (last.drop 2)
      return (a || b, last)
    return (a, last)

def both (files : Files) : (fuel : Nat) → List String → Except String (Bool × List String)
  | 0, words => .ok (false, words)
  | fuel + 1, words => do
    let (a, last) ← negation files fuel words
    if operator? (last.drop 1) == some .and then
      let (b, last) ← both files fuel (last.drop 2)
      return (a && b, last)
    return (a, last)

def negation (files : Files) : (fuel : Nat) → List String → Except String (Bool × List String)
  | 0, words => .ok (false, words)
  | fuel + 1, words => do
    if operator? words == some .not then
      if words.length = 1 then return (true, words)
      let (a, last) ← negation files fuel (words.drop 1)
      return (!a, last)
    else primary files fuel words

def primary (files : Files) : (fuel : Nat) → List String → Except String (Bool × List String)
  | 0, words => .ok (false, words)
  | fuel + 1, words => do
    match words, operator? words with
    | [], _ => return (false, [])
    | _ :: rest, some .openParen => do
      if operator? rest == some .closeParen then return (false, rest)
      let (a, last) ← either files fuel rest
      match last.drop 1 with
      | ")" :: more => return (a, ")" :: more)
      | _ => throw "closing paren expected"
    | op :: rest, some .unary =>
      match rest with
      | [] => throw (op ++ ": argument expected")
      | word :: _ => return (unary files op word, rest)
    | word :: rest, _ =>
      match rest with
      | op :: more =>
        if operator? rest == some .binary then
          match more with
          | [] => throw (op ++ ": argument expected")
          | right :: _ => return (← binary op word right, more)
        else return (!word.isEmpty, words)
      | [] => return (!word.isEmpty, words)

end

/-- The answer to an expression, after which no word may be left over. -/
def whole (files : Files) (words : List String) : Except String Bool := do
  let (a, last) ← either files (4 * words.length + 8) words
  match last with
  | word :: _ :: _ => throw (if word.isEmpty then "unexpected operator" else word ++ ": unexpected operator")
  | _ => return a

/-- The answer to the words of `test`. Up to four words have rules of their own. -/
def eval (files : Files) : (fuel : Nat) → List String → Except String Bool
  | 0, _ | _, [] => .ok false
  | fuel + 1, words => do
    match words with
    | [left, op, right] =>
      if kind? op == some .binary then return (← binary op left right)
      if left == "(" && right == ")" then return (← eval files fuel [op])
      if left == "!" then return !(← eval files fuel [op, right])
      whole files words
    | [a, b, c, d] =>
      if a == "(" && d == ")" then return (← eval files fuel [b, c])
      if a == "!" then return !(← eval files fuel [b, c, d])
      whole files words
    | _ => whole files words

end ShellVM.Shell.Condition
