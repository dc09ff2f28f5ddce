/-!
# Kinds of values

The fourteen kinds, their names and the byte by which the code names them.
-/

namespace ShellVM

inductive Kind where
  | nil
  | boolean
  | integer
  | float
  | string
  | list
  | tuple
  | dictionary
  | set
  | range
  | struct
  | function
  | error
  | processStream
deriving DecidableEq

namespace Kind

/-- Every kind, in the order of the tags. -/
def all : List Kind :=
  [nil, boolean, integer, float, string, list, tuple, dictionary, set, range, struct, function,
    error, processStream]

def tag : Kind → UInt8
  | nil => 0
  | boolean => 1
  | integer => 2
  | float => 3
  | string => 4
  | list => 5
  | tuple => 6
  | dictionary => 7
  | set => 8
  | range => 9
  | struct => 10
  | function => 11
  | error => 12
  | processStream => 13

def ofTag? (t : UInt8) : Option Kind := all[t.toNat]?

def name : Kind → String
  | nil => "Nil"
  | boolean => "Boolean"
  | integer => "Integer"
  | float => "Float"
  | string => "String"
  | list => "List"
  | tuple => "Tuple"
  | dictionary => "Dictionary"
  | set => "Set"
  | range => "Range"
  | struct => "Struct"
  | function => "Function"
  | error => "Error"
  | processStream => "ProcessStream"

theorem ofTag?_tag (k : Kind) : ofTag? k.tag = some k := by cases k <;> rfl

end Kind

end ShellVM
