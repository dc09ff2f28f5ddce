import ShellVM.Bytecode.Instruction
import ShellVM.Bytecode.Program
import ShellVM.Iter

/-!
# The machine

A stack machine. Operands and locals live on one stack; a frame is an active call and says which
part of the stack is its own; an open `try` region is a handler, which remembers what to go back to.
An `Act` changes the machine and may fail; what it changed before it failed stays changed.
-/

namespace ShellVM

/-- What a run must not exceed. -/
structure Limits where
  callDepth : Nat := 1000
  stackSize : Nat := 100000
  steps? : Option Nat := none

/-- An active call. -/
structure Frame where
  page : UInt16
  /-- The offset of the next instruction. -/
  ip : Nat
  /-- The height of the stack at local slot 0. -/
  base : Nat
  /-- Program calls in root position write to the terminal. -/
  isRoot : Bool
  /-- The environment, if the page is the body of a closure. -/
  environment? : Option Addr
  /-- The cells of the locals that closures capture. -/
  cells : List (UInt8 × Addr)

namespace Frame

/-- A call that is about to start. -/
def new (page : UInt16) (base : Nat) (isRoot : Bool) (environment? : Option Addr) : Frame :=
  ⟨page, 0, base, isRoot, environment?, []⟩

def cell? (f : Frame) (slot : UInt8) : Option Addr := f.cells.lookup slot

def setCell (f : Frame) (slot : UInt8) (a : Addr) : Frame :=
  { f with cells := (slot, a) :: f.cells.filter fun c => c.1 != slot }

end Frame

/-- An open `try` region. -/
structure Handler where
  frameDepth : Nat
  stackHeight : Nat
  iterDepth : Nat
  /-- Where the frame goes on after an error. -/
  catchIp : Nat
deriving DecidableEq

/-- The state of a run. Frames, iterators, handlers and pending captures have the innermost or
latest first; the top of the stack is its end. -/
structure Machine where
  stack : Array Value
  frames : List Frame
  iterators : List Iter
  handlers : List Handler
  /-- The cells that wait for the next closure. -/
  pending : List Addr
  steps : Nat
  world : World

abbrev Act := EStateM Fault Machine

namespace Machine

/-- A machine without any call, with arguments on its stack. -/
def idle (arguments : Array Value) (world : World) : Machine := ⟨arguments, [], [], [], [], 0, world⟩

/-- The places where the program is, innermost first. A caller's `ip` stands behind its call. -/
def trace (m : Machine) (program : Program) : List CallSite :=
  m.frames.map fun f =>
    match program.page? f.page with
    | some page => ⟨page.name, page.lineAt? (f.ip - 1)⟩
    | none => ⟨"<page " ++ f.page.toNat.repr ++ ">", none⟩

/-- The place of a local of the innermost call on the stack. -/
def slot (m : Machine) (s : UInt8) : Except Breach (Fin m.stack.size) :=
  match m.frames with
  | [] => .error .noFrame
  | f :: _ =>
    if h : f.base + s.toNat < m.stack.size then .ok ⟨f.base + s.toNat, h⟩
    else .error (.slotOffStack s.toNat)

theorem slot_ok {m : Machine} {f : Frame} {rest : List Frame} {s : UInt8} {n : Nat} (hframes : m.frames = f :: rest)
    (hn : f.base + s.toNat = n) (h : n < m.stack.size) : m.slot s = .ok ⟨n, h⟩ := by
  subst hn
  unfold slot
  rw [hframes]
  exact dif_pos h

end Machine

/-- The last `count` of a row whose latest element comes first. -/
def keepLast {α : Type} (count : Nat) (xs : List α) : List α := xs.drop (xs.length - count)

namespace Act

def fail {α : Type} (cause : Cause) : Act α := throw (.ofCause cause)

def breach {α : Type} (b : Breach) : Act α := throw (.ofBreach b)

/-- Acts on the world of the machine. -/
def effect {α : Type} (e : Effect α) : Act α := fun m =>
  match e m.world with
  | .ok a w => .ok a { m with world := w }
  | .error fault w => .error fault { m with world := w }

/-! ## The stack -/

def push (v : Value) : Act Unit := modify fun m => { m with stack := m.stack.push v }

def pushAll (vs : List Value) : Act Unit :=
  modify fun m => { m with stack := vs.foldl Array.push m.stack }

def pop : Act Value := fun m =>
  match m.stack.back? with
  | some v => .ok v { m with stack := m.stack.pop }
  | none => .error (.ofBreach .stackUnderflow) m

def peek : Act Value := fun m =>
  match m.stack.back? with
  | some v => .ok v m
  | none => .error (.ofBreach .stackUnderflow) m

/-- Takes the top `count` values off the stack, the lowest first. -/
def popMany (count : Nat) : Act (Array Value) := fun m =>
  let size := m.stack.size
  if size < count then .error (.ofBreach .stackUnderflow) m
  else
    let taken := m.stack.extract (size - count) size
    .ok taken { m with stack := m.stack.shrink (size - count) }

/-! ## Frames -/

def frame : Act Frame := fun m =>
  match m.frames with
  | f :: _ => .ok f m
  | [] => .error (.ofBreach .noFrame) m

def modifyFrame (g : Frame → Frame) : Act Unit := fun m =>
  match m.frames with
  | f :: rest => .ok () { m with frames := g f :: rest }
  | [] => .error (.ofBreach .noFrame) m

def jump (target : Nat) : Act Unit := modifyFrame fun f => { f with ip := target }

def jumpTo (i : Instruction) : Act Unit :=
  match i.target? with
  | some target => jump target
  | none => breach (.jumpBeforeStart i.offset)

/-- Ends the innermost call, and with it the regions that it left open. -/
def leave : Act Unit :=
  modify fun m =>
    let frames := m.frames.tail
    let depth := frames.length
    { m with frames, handlers := m.handlers.filter fun h => h.frameDepth ≤ depth }

/-! ## Variables -/

def load (s : UInt8) : Act Value := fun m =>
  match m.slot s with
  | .ok i => .ok m.stack[i] m
  | .error b => .error (.ofBreach b) m

theorem load_ok {m : Machine} {f : Frame} {rest : List Frame} {s : UInt8} {n : Nat} {v : Value}
    (hframes : m.frames = f :: rest) (hn : f.base + s.toNat = n) (hv : m.stack[n]? = some v) : load s m = .ok v m := by
  obtain ⟨h, hget⟩ := Array.getElem?_eq_some_iff.1 hv
  unfold load
  rw [Machine.slot_ok hframes hn h]
  exact congrArg (EStateM.Result.ok · m) hget

/-- Copies the top of the stack into a local. -/
def store (s : UInt8) : Act Unit := fun m =>
  match m.slot s with
  | .ok i =>
    match m.stack.back? with
    | some v => .ok () { m with stack := m.stack.set i v }
    | none => .error (.ofBreach .stackUnderflow) m
  | .error b => .error (.ofBreach b) m

/-- The cell of a captured variable of the running closure. -/
def capture (i : UInt8) : Act Addr := do
  match (← frame).environment? with
  | none => breach .captureOutsideClosure
  | some environment =>
    match ((← get).world.environment environment)[i.toNat]? with
    | some a => return a
    | none => breach .captureOutOfRange

/-- The cell of a local that closures capture. -/
def cell (s : UInt8) : Act Addr := do
  match (← frame).cell? s with
  | some a => return a
  | none => breach (.slotNotBoxed s.toNat)

def readCell (a : Addr) : Act Value := do return (← get).world.cell a

def writeCell (a : Addr) (v : Value) : Act Unit := effect (modify (·.setCell a v))

end Act

end ShellVM
