import ShellVM.Value.Cast

/-!
# Iterators

What a `for` loop walks through. A list is walked live, so items added by the body are visited;
tuples, dictionaries and sets are walked as they were when the loop started. The lines of a stream
are read as the loop asks for them.
-/

namespace ShellVM

inductive Iter where
  | list (addr : Addr) (next : Nat)
  | snapshot (rest : List Value)
  | range (walk : Range.Walk)
  | chars (rest : List Char)
  | lines (stream : Addr) (next : Nat)

namespace Iter

instance : Inhabited Iter := ⟨snapshot []⟩

def ofValue (v : Value) : Effect Iter := do
  match v with
  | .list a => return list a 0
  | .range r => return range r.walk
  | .string s => return chars s.toList
  | .stream a => return lines a 0
  | .tuple _ | .dictionary _ | .set _ => return snapshot (← v.items)
  | v => Effect.fail (.notIterable v.kind)

/-- The next item, if there is one, and the iterator after it. -/
def next (it : Iter) : Effect (Option Value × Iter) := do
  match it with
  | list a i =>
    match ((← get).list a)[i]? with
    | some v => return (some v, list a (i + 1))
    | none => return (none, it)
  | snapshot [] => return (none, it)
  | snapshot (v :: rest) => return (some v, snapshot rest)
  | range walk =>
    let (n?, walk) := walk.advance
    return (n?.map .integer, range walk)
  | chars [] => return (none, it)
  | chars (c :: rest) => return (some (.string c.toString), chars rest)
  | lines a i =>
    match ← Job.pull a i with
    | some line => return (some (.string line), lines a (i + 1))
    | none => return (none, it)

end Iter

end ShellVM
