import ShellVM.Value.Kind
import ShellVM.Value.Key

/-!
# Values

Lists, dictionaries, sets and structs are shared storage: a value of these kinds is an address in
the `World`, so all holders of the address see each write. So are process streams, and the
environments of closures. All other values are immutable trees.
-/

namespace ShellVM

/-- The place of a container in its store. -/
abbrev Addr := Nat

/-- A place in the running program: a page and, where known, the source line. -/
structure CallSite where
  page : String
  line? : Option UInt32
deriving DecidableEq

def CallSite.render (s : CallSite) : String :=
  match s.line? with
  | some line => s.page ++ ":" ++ line.toNat.repr
  | none => s.page

/-- What a library function does with the arguments that finally reach it. -/
inductive Builtin where
  /-- Writes the items of its list, with blanks between them, as one line. -/
  | print
  | length
  | kindName
  /-- Gives its first argument back. -/
  | text
  | push
  /-- Fails with its argument as the message. -/
  | raise
  /-- Gives all its arguments back as a list. -/
  | collect
deriving DecidableEq

/-- A library function: the bounds on its number of arguments, where it starts to pack them into a
list, the kinds to which it casts them, and what it does. -/
structure LibraryFunction where
  name : String
  minArguments : Nat
  maxArguments? : Option Nat
  packFrom? : Option Nat
  parameters : List (Option Kind)
  body : Builtin
deriving DecidableEq

inductive Function where
  | page (index : UInt16) (name : String)
  /-- A page with the cells that it captured; the environment is an address, as two closures are
  the same only if they share it. -/
  | closure (index : UInt16) (environment : Addr)
  | library (function : LibraryFunction)
deriving DecidableEq

def Function.name : Function → String
  | .page _ name => name
  | .closure .. => "<closure>"
  | .library f => f.name

inductive Value where
  | nil
  | boolean (b : Bool)
  | integer (n : Int64)
  | float (x : Float)
  | string (s : String)
  | list (addr : Addr)
  | tuple (items : List Value)
  | dictionary (addr : Addr)
  | set (addr : Addr)
  | range (r : Range)
  | struct (addr : Addr)
  | function (f : Function)
  | error (value : Value) (trace? : Option (List CallSite))
  | stream (addr : Addr)

namespace Value

instance : Inhabited Value := ⟨nil⟩

def kind : Value → Kind
  | nil => .nil
  | boolean _ => .boolean
  | integer _ => .integer
  | float _ => .float
  | string _ => .string
  | list _ => .list
  | tuple _ => .tuple
  | dictionary _ => .dictionary
  | set _ => .set
  | range _ => .range
  | struct _ => .struct
  | function _ => .function
  | error .. => .error
  | stream _ => .processStream

def isNil : Value → Bool
  | nil => true
  | _ => false

def asInteger? : Value → Option Int64
  | integer n => some n
  | _ => none

def asNumber? : Value → Option Float
  | integer n => some n.toFloat
  | float x => some x
  | _ => none

mutual

/-- The key that a value makes, if nothing in it can change. -/
def key? : Value → Option Key
  | boolean b => some (.boolean b)
  | integer n => some (.integer n)
  | string s => some (.string s)
  | range r => some (.range r)
  | tuple items => (keys? items).map .tuple
  | _ => none

def keys? : List Value → Option (List Key)
  | [] => some []
  | v :: vs => do
    let k ← key? v
    let ks ← keys? vs
    return k :: ks

end

mutual

def ofKey : Key → Value
  | .boolean b => boolean b
  | .integer n => integer n
  | .string s => string s
  | .range r => range r
  | .tuple items => tuple (ofKeys items)

def ofKeys : List Key → List Value
  | [] => []
  | k :: ks => ofKey k :: ofKeys ks

end

mutual

theorem key?_ofKey : ∀ k : Key, key? (ofKey k) = some k
  | .boolean _ | .integer _ | .string _ | .range _ => by simp [ofKey, key?]
  | .tuple items => by simp [ofKey, key?, keys?_ofKeys items]

theorem keys?_ofKeys : ∀ ks : List Key, keys? (ofKeys ks) = some ks
  | [] => rfl
  | k :: ks => by simp [ofKeys, keys?, key?_ofKey k, keys?_ofKeys ks]

end

end Value

end ShellVM
