import ShellVM.Job.Call

/-!
# Library functions

A library is a list of functions with distinct names. A call first checks the number of arguments,
then packs the ones from a given position on into a list, then casts them to the kinds of the
parameters, and only then carries out the function.
-/

namespace ShellVM

namespace LibraryFunction

/-- The number of arguments that the function takes, in words. -/
def expected (f : LibraryFunction) : String :=
  match f.maxArguments? with
  | some max =>
    if max = f.minArguments then max.repr else f.minArguments.repr ++ " to " ++ max.repr
  | none => "at least " ++ f.minArguments.repr

/-- Casts the arguments to the kinds of the parameters; the ones without a parameter stay. -/
def coerce : List (Option Kind) → List Value → Effect (List Value)
  | some k :: ks, v :: vs => do
    let v ← v.cast k
    return v :: (← coerce ks vs)
  | none :: ks, v :: vs => do return v :: (← coerce ks vs)
  | _, vs => pure vs

/-- The arguments that finally reach the function. -/
def prepare (f : LibraryFunction) (arguments : List Value) : Effect (List Value) := do
  let got := arguments.length
  if got < f.minArguments || f.maxArguments?.any (· < got) then
    Effect.fail (.argumentCount f.name f.expected got)
  let packed ← match f.packFrom? with
    | some start => do
      let rest ← Effect.newList (arguments.drop start).toArray
      pure (arguments.take start ++ [rest])
    | none => pure arguments
  coerce f.parameters packed

end LibraryFunction

/-- The length of a value: characters of a string, items of everything else. A range is counted
without walking it. -/
def Value.length (v : Value) : Effect Nat := do
  match v with
  | .string s => return s.length
  | .range r =>
    match r.length? with
    | some n => return n
    | none => Effect.fail .infiniteRange
  | v => return (← v.items).length

namespace Builtin

/-- Carries out a function on the arguments that reached it. -/
def run (b : Builtin) (arguments : List Value) : Effect Value := do
  let first := arguments.headD .nil
  match b with
  | print =>
    let parts ← Value.textAll (← first.items)
    modify (·.print (" ".intercalate parts ++ "\n"))
    return .nil
  | length =>
    match Word.ofInt? (← first.length) with
    | some n => return .integer n
    | none => Effect.fail (.integerOverflow "len")
  | kindName => return .string first.kind.name
  | text => return first
  | push =>
    match first with
    | .list a =>
      modify (·.pushListItem a (arguments.getD 1 .nil))
      return first
    | v => Effect.fail (.cast v.kind "List")
  | raise => Effect.fail (.custom (← first.text))
  | collect => Effect.newList arguments.toArray

end Builtin

/-- Calls a library function, given what carries it out. -/
def LibraryFunction.callWith (carryOut : LibraryFunction → List Value → Effect Value) (f : LibraryFunction)
    (arguments : List Value) : Effect Value := do
  carryOut f (← f.prepare arguments)

/-- Calls a library function whose body is one of those that are built in. -/
def LibraryFunction.call (f : LibraryFunction) (arguments : List Value) : Effect Value :=
  f.callWith (fun f => f.body.run) arguments

structure Library where
  functions : List LibraryFunction

namespace Library

def get? (l : Library) (name : String) : Option LibraryFunction := l.functions.find? (·.name == name)

def size (l : Library) : Nat := l.functions.length

/-- Adds a function, in the place of the one with its name if there is one. -/
def register (l : Library) (f : LibraryFunction) : Library :=
  if (l.get? f.name).isSome then
    ⟨l.functions.map fun g => if g.name == f.name then f else g⟩
  else ⟨l.functions ++ [f]⟩

/-- The functions that every program can use. -/
def standard : Library := ⟨[
  ⟨"print", 0, none, some 0, [], .print⟩,
  ⟨"len", 1, some 1, none, [], .length⟩,
  ⟨"type", 1, some 1, none, [], .kindName⟩,
  ⟨"str", 1, some 1, none, [some .string], .text⟩,
  ⟨"push", 2, some 2, none, [], .push⟩,
  ⟨"error", 1, some 1, none, [], .raise⟩]⟩

end Library

end ShellVM
