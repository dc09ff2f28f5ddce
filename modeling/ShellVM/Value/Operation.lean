/-!
# Operators

The operators on values and the symbols by which messages name them.
-/

namespace ShellVM

inductive BinaryOp where
  | add
  | subtract
  | multiply
  | divide
  | modulo
  | power
  | equal
  | notEqual
  | less
  | lessEqual
  | greater
  | greaterEqual
  | and
  | or
  | member
deriving DecidableEq

def BinaryOp.symbol : BinaryOp → String
  | .add => "+"
  | .subtract => "-"
  | .multiply => "*"
  | .divide => "/"
  | .modulo => "%"
  | .power => "^"
  | .equal => "=="
  | .notEqual => "!="
  | .less => "<"
  | .lessEqual => "<="
  | .greater => ">"
  | .greaterEqual => ">="
  | .and => "and"
  | .or => "or"
  | .member => "in"

inductive UnaryOp where
  | negate
  | not
deriving DecidableEq

def UnaryOp.symbol : UnaryOp → String
  | .negate => "-"
  | .not => "not"

end ShellVM
