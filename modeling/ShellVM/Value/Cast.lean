import ShellVM.Value.Printer
import ShellVM.Job.Start
import ShellVM.Number.Reader
import ShellVM.Text.Blank

/-!
# Casts

The truth, the text and the items of a value, and the table of casts between kinds. A cast to the
own kind gives the very value back; every value can be cast to a string and to a boolean.
-/

namespace ShellVM

def OrderedMap.ofKeys (keys : List Key) : OrderedMap Key Unit :=
  keys.foldl (fun m k => m.insert k ()) .empty

/-- The keys of all values, or the failure of the first that is none. -/
def Effect.keys : List Value → Except Cause (List Key)
  | [] => .ok []
  | v :: vs => do
    let k ← key v
    let ks ← keys vs
    return k :: ks

namespace Value

/-- Does the value count as true in a condition? -/
def truth (v : Value) : Effect Bool := do
  let w ← get
  match v with
  | nil => return false
  | boolean b => return b
  | integer n => return n != 0
  | float x => return x != 0.0
  | string s => return !s.isEmpty
  | list a => return !(w.list a).isEmpty
  | tuple vs => return !vs.isEmpty
  | dictionary a => return (w.dictionary a).size != 0
  | set a => return (w.set a).size != 0
  | range r => return r.length? != some 0
  | struct _ | function _ => return true
  | error .. => return false
  | stream a => Job.succeeded a

/-- The plain text of a value. A stream is read to its end. -/
def text (v : Value) : Effect String := do
  match v with
  | stream a => return "\n".intercalate (← Job.lines a)
  | error v _ => return v.render (← get)
  | v => return v.render (← get)

/-- The items of a value that can be walked through. -/
def items (v : Value) : Effect (List Value) := do
  let w ← get
  match v with
  | list a => return (w.list a).toList
  | tuple vs => return vs
  | set a => return (w.set a).keys.map ofKey
  | dictionary a => return (w.dictionary a).toList.map fun (k, v) => tuple [ofKey k, v]
  | range r =>
    match r.items? with
    | some ns => return ns.map integer
    | none => Effect.fail .infiniteRange
  | string s => return s.toList.map fun c => string c.toString
  | stream a => return (← Job.lines a).map string
  | v => Effect.fail (.notIterable v.kind)

/-- Casts between different kinds; none if the table has no entry. -/
def convert? (v : Value) (target : Kind) : Effect (Option Value) := do
  match target, v with
  | .string, v => return some (string (← v.text))
  | .boolean, v => return some (boolean (← v.truth))
  | .float, integer n => return some (float n.toFloat)
  | .integer, boolean b => return some (integer (if b then 1 else 0))
  | .integer, float x => return if x.isFinite then some (integer x.toInt64) else none
  | .integer, string s => return (Number.readInteger? (Text.trim s)).map integer
  | .float, string s => return (Number.readFloat? (Text.trim s)).map float
  | .integer, stream a => return (Number.readInteger? (Text.trim (← text (stream a)))).map integer
  | .float, stream a => return (Number.readFloat? (Text.trim (← text (stream a)))).map float
  | .list, string _ | .list, tuple _ | .list, set _ | .list, dictionary _ | .list, range _
  | .list, stream _ => return some (← Effect.newList (← v.items).toArray)
  | .tuple, list _ | .tuple, set _ | .tuple, range _ | .tuple, stream _ =>
    return some (tuple (← v.items))
  | .set, list _ | .set, tuple _ | .set, range _ | .set, string _ =>
    let keys ← Effect.ofExcept (Effect.keys (← v.items))
    return some (← Effect.newSet (.ofKeys keys))
  | .dictionary, struct a =>
    let fields := ((← get).record a).fields
    return some (← Effect.newDictionary
      (.ofList (fields.toList.map fun (name, v) => (Key.string name, v))))
  | _, _ => return none

/-- Casts a value to a kind. -/
def cast (v : Value) (target : Kind) : Effect Value := do
  if v.kind = target then return v
  match ← v.convert? target with
  | some r => return r
  | none => Effect.fail (.cast v.kind target.name)

end Value

end ShellVM
