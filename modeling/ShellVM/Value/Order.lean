import ShellVM.Value.Equality

/-!
# Order of values

Numbers, strings, booleans, lists and tuples have an order among their own kind; sequences compare
by their first difference. `compare` is expressed through `less` and `same`.
-/

namespace ShellVM.Value

/-- Compares two sequences by the first pair that differs, and by length if none does. -/
def lessSequence (w : World) (less : Value → Value → Except Cause Bool) :
    List Value → List Value → Except Cause Bool
  | [], bs => .ok !bs.isEmpty
  | _ :: _, [] => .ok false
  | a :: as, b :: bs => if same w a b then lessSequence w less as bs else less a b

mutual

/-- Is the first value less, if `deep` compares what lists hold? The operator is the one that an
error names. -/
def lessWith (deep : Value → Value → Except Cause Bool) (w : World) (op : BinaryOp) :
    Value → Value → Except Cause Bool
  | integer a, integer b => .ok (a < b)
  | string a, string b => .ok (a < b)
  | boolean a, boolean b => .ok (!a && b)
  | list a, list b => lessSequence w deep (w.list a).toList (w.list b).toList
  | tuple as, tuple bs => lessAllWith deep w op as bs
  | a, b =>
    match a.asNumber?, b.asNumber? with
    | some x, some y => .ok (x < y)
    | _, _ => .error (.invalidBinary op a.kind b.kind)

def lessAllWith (deep : Value → Value → Except Cause Bool) (w : World) (op : BinaryOp) :
    List Value → List Value → Except Cause Bool
  | [], bs => .ok !bs.isEmpty
  | _ :: _, [] => .ok false
  | a :: as, b :: bs =>
    if same w a b then lessAllWith deep w op as bs else lessWith deep w op a b

end

/-- The order of values with at most `depth` levels of containers. -/
def lessTo (w : World) (op : BinaryOp) : (depth : Nat) → Value → Value → Except Cause Bool
  | 0 => lessWith (fun _ _ => .ok false) w op
  | depth + 1 => lessWith (lessTo w op depth) w op

/-- Is `a` less than `b`? -/
def less (w : World) (op : BinaryOp) (a b : Value) : Except Cause Bool := lessTo w op w.containers a b

/-- The order for sorting. -/
def compare (w : World) (a b : Value) : Except Cause Ordering := do
  if ← less w .less a b then return .lt
  if same w a b then return .eq
  return .gt

end ShellVM.Value
