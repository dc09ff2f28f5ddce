import ShellVM.Value.Cast

/-!
# Values in program calls

What a value means as an argument of a program, where lists and tuples stand for their items, and as
its input, where a collection is one line per item and a stream is passed on.
-/

namespace ShellVM.Value

/-- Does `f` to all values and joins the results. -/
def flatMapEffect (f : Value → Effect (List String)) : List Value → Effect (List String)
  | [] => pure []
  | v :: vs => do
    let first ← f v
    return first ++ (← flatMapEffect f vs)

mutual

/-- The arguments that a value stands for, if `deep` gives those of the items of lists. -/
def argumentsWith (deep : Value → Effect (List String)) : Value → Effect (List String)
  | list a => do flatMapEffect deep ((← get).list a).toList
  | tuple vs => argumentsAllWith deep vs
  | v => do return [← v.text]

def argumentsAllWith (deep : Value → Effect (List String)) : List Value → Effect (List String)
  | [] => pure []
  | v :: vs => do
    let first ← argumentsWith deep v
    return first ++ (← argumentsAllWith deep vs)

end

/-- The arguments of a value with at most `depth` levels of lists. -/
def argumentsTo : (depth : Nat) → Value → Effect (List String)
  | 0 => argumentsWith fun _ => pure []
  | depth + 1 => argumentsWith (argumentsTo depth)

/-- The arguments that a value stands for. -/
def arguments (v : Value) : Effect (List String) := do argumentsTo (← get).containers v

/-- The texts of all values, in order. -/
def textAll : List Value → Effect (List String)
  | [] => pure []
  | v :: vs => do
    let s ← v.text
    return s :: (← textAll vs)

/-- The input that a value makes. -/
def pipedInput (v : Value) : Effect PipedInput := do
  match v with
  | stream a => return .stream a
  | list _ | tuple _ | set _ | range _ => return .lines (← textAll (← v.items))
  | v => return .text (← v.text)

end ShellVM.Value
