import ShellVM.OrderedMap
import ShellVM.Job.Stream
import ShellVM.Job.System

/-!
# The world

All that running code shares and changes: the storage behind lists, dictionaries, sets and structs,
the cells of captured variables, the environments of closures, the process streams, the files, the
system with its programs, and what has been written to the terminal. An `Effect` reads and changes the world and may
fail; what it changed before it failed stays changed.
-/

namespace ShellVM

/-- The storage of a struct. -/
structure Record where
  name : String
  fields : OrderedMap String Value

instance : Inhabited Record := ⟨⟨"", .empty⟩⟩

/-- The record of a row of fields; the later of two values of one field counts. -/
def Record.ofFields (name : String) (fields : List (String × Value)) : Record := ⟨name, .ofList fields⟩

structure World where
  lists : Array (Array Value) := #[]
  dictionaries : Array (OrderedMap Key Value) := #[]
  sets : Array (OrderedMap Key Unit) := #[]
  records : Array Record := #[]
  cells : Array Value := #[]
  environments : Array (List Addr) := #[]
  streams : Array Stream := #[]
  files : Files := .standard
  system : System := .standard
  /-- What programs and scripts have written, and what programs have written as errors. -/
  terminal : ByteArray := .empty
  errors : ByteArray := .empty

/-- A computation on the world that may fail. -/
abbrev Effect := EStateM Fault World

namespace World

instance : Inhabited World := ⟨{}⟩

/-! ## Reading -/

def list (w : World) (a : Addr) : Array Value := w.lists.getD a #[]

def dictionary (w : World) (a : Addr) : OrderedMap Key Value := w.dictionaries.getD a .empty

def set (w : World) (a : Addr) : OrderedMap Key Unit := w.sets.getD a .empty

def record (w : World) (a : Addr) : Record := w.records.getD a default

def cell (w : World) (a : Addr) : Value := w.cells.getD a .nil

def environment (w : World) (a : Addr) : List Addr := w.environments.getD a []

def stream (w : World) (a : Addr) : Stream := w.streams.getD a default

/-- The number of containers, which bounds how deep values without cycles can nest. -/
def containers (w : World) : Nat :=
  w.lists.size + w.dictionaries.size + w.sets.size + w.records.size

/-! ## Changing -/

def setCell (w : World) (a : Addr) (v : Value) : World :=
  { w with cells := w.cells.setIfInBounds a v }

def setListItem (w : World) (a : Addr) (i : Nat) (v : Value) : World :=
  { w with lists := w.lists.modify a (·.setIfInBounds i v) }

def pushListItem (w : World) (a : Addr) (v : Value) : World :=
  { w with lists := w.lists.modify a (·.push v) }

def insertEntry (w : World) (a : Addr) (k : Key) (v : Value) : World :=
  { w with dictionaries := w.dictionaries.modify a (·.insert k v) }

def setField (w : World) (a : Addr) (field : String) (v : Value) : World :=
  { w with records := w.records.modify a fun r => { r with fields := r.fields.insert field v } }

def setStream (w : World) (a : Addr) (s : Stream) : World :=
  { w with streams := w.streams.setIfInBounds a s }

def write (w : World) (bytes : ByteArray) : World := { w with terminal := w.terminal ++ bytes }

def print (w : World) (s : String) : World := w.write s.toUTF8

def writeErrors (w : World) (bytes : ByteArray) : World := { w with errors := w.errors ++ bytes }

end World

namespace Effect

def fail {α : Type} (cause : Cause) : Effect α := throw (.ofCause cause)

def breach {α : Type} (b : Breach) : Effect α := throw (.ofBreach b)

/-! ## Fresh storage -/

def newList (items : Array Value) : Effect Value :=
  modifyGet fun w => (.list w.lists.size, { w with lists := w.lists.push items })

def newDictionary (entries : OrderedMap Key Value) : Effect Value :=
  modifyGet fun w => (.dictionary w.dictionaries.size,
    { w with dictionaries := w.dictionaries.push entries })

def newSet (items : OrderedMap Key Unit) : Effect Value :=
  modifyGet fun w => (.set w.sets.size, { w with sets := w.sets.push items })

def newRecord (r : Record) : Effect Value :=
  modifyGet fun w => (.struct w.records.size, { w with records := w.records.push r })

def newCell (v : Value) : Effect Addr :=
  modifyGet fun w => (w.cells.size, { w with cells := w.cells.push v })

def newEnvironment (cells : List Addr) : Effect Addr :=
  modifyGet fun w => (w.environments.size, { w with environments := w.environments.push cells })

def newStream (s : Stream) : Effect Addr :=
  modifyGet fun w => (w.streams.size, { w with streams := w.streams.push s })

/-- The key of a value, if it can be one. -/
def key (v : Value) : Except Cause Key :=
  match v.key? with
  | some k => .ok k
  | none => .error (.unhashable v.kind)

def ofExcept {α : Type} : Except Cause α → Effect α
  | .ok a => pure a
  | .error cause => fail cause

end Effect

end ShellVM
