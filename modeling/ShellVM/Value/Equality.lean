import ShellVM.World

/-!
# Equality of values

Integers and floats compare by number. Containers are equal if they are the same storage or hold
equal items; dictionaries, sets and structs do not mind the order. Functions and streams are equal
only to themselves.

Comparing two containers compares what they hold, one level further down; the number of containers
bounds the levels that values without cycles can have.
-/

namespace ShellVM

def Function.same : Function → Function → Bool
  | .page a _, .page b _ => a == b
  | .closure _ a, .closure _ b => a == b
  | .library a, .library b => decide (a = b)
  | _, _ => false

/-- Have two maps the same keys, with related values? -/
def OrderedMap.sameEntries {κ ν : Type} [BEq κ] [Hashable κ] (rel : ν → ν → Bool)
    (a b : OrderedMap κ ν) : Bool :=
  a.size == b.size && a.entries.all fun (k, v) => (b.get? k).any (rel v)

namespace Value

mutual

/-- Equality of two values, if `deep` is the equality of what containers hold. -/
def sameWith (deep : Value → Value → Bool) (w : World) : Value → Value → Bool
  | nil, nil => true
  | boolean a, boolean b => a == b
  | integer a, integer b => a == b
  | float a, float b => a == b
  | integer a, float b => a.toFloat == b
  | float a, integer b => b.toFloat == a
  | string a, string b => a == b
  | list a, list b => a == b || (w.list a).isEqv (w.list b) deep
  | tuple as, tuple bs => sameAllWith deep w as bs
  | dictionary a, dictionary b =>
    a == b || (w.dictionary a).sameEntries deep (w.dictionary b)
  | set a, set b => a == b || (w.set a).sameEntries (fun _ _ => true) (w.set b)
  | range a, range b => decide (a = b)
  | struct a, struct b =>
    a == b || ((w.record a).name == (w.record b).name &&
      (w.record a).fields.sameEntries deep (w.record b).fields)
  | function f, function g => f.same g
  | error a _, error b _ => sameWith deep w a b
  | stream a, stream b => a == b
  | _, _ => false

def sameAllWith (deep : Value → Value → Bool) (w : World) : List Value → List Value → Bool
  | [], [] => true
  | a :: as, b :: bs => sameWith deep w a b && sameAllWith deep w as bs
  | _, _ => false

end

/-- Equality of values with at most `depth` levels of containers. -/
def sameTo (w : World) : (depth : Nat) → Value → Value → Bool
  | 0 => sameWith (fun _ _ => false) w
  | depth + 1 => sameWith (sameTo w depth) w

/-- Are two values equal? -/
def same (w : World) (a b : Value) : Bool := sameTo w w.containers a b

end Value

end ShellVM
