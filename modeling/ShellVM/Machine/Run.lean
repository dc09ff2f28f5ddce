import ShellVM.Machine.Perform

/-!
# Runs

A step checks the limits, fetches an instruction and carries it out; at the end of its page the
innermost call ends. If a step fails, the run goes on at the innermost handler, or it is over. A run
is as many steps as it takes until no call is left, but at most a given number.
-/

namespace ShellVM

namespace Act

/-- Counts a step, and refuses it if a limit is exceeded. -/
def checkLimits (host : Host) : Act Unit := do
  modify fun m => { m with steps := m.steps + 1 }
  let m ← get
  match host.steps? with
  | some max => if max < m.steps then fail (.limitExceeded .step max)
  | none => pure ()
  if host.stackSize < m.stack.size then fail (.limitExceeded .stackSize host.stackSize)

/-- Goes on with the next instruction of the innermost call. -/
def advance (host : Host) (program : Program) : Act Unit := do
  let f ← frame
  match program.page? f.page with
  | none => breach (.noPage f.page.toNat)
  | some page =>
    match page.code[f.ip]? with
    | none => leave
    | some byte =>
      match readInstruction page.code f.ip byte with
      | .error (.unknown byte) => breach (.unknownOpcode byte.toNat f.ip)
      | .error (.truncated op) => breach (.truncated op f.ip)
      | .ok i =>
        jump i.next
        perform host program page i

def step (host : Host) (program : Program) : Act Unit := do
  checkLimits host
  advance host program

/-- Goes back to what a handler remembers. -/
def unwind (h : Handler) : Act Unit :=
  modify fun m => { m with
    frames := keepLast h.frameDepth m.frames
    stack := m.stack.shrink h.stackHeight
    iterators := keepLast h.iterDepth m.iterators }

/-- Goes on at the innermost handler. Without one, and if it cannot be caught, the fault stays. -/
def recover (program : Program) (fault : Fault) : Act Unit := do
  let m ← get
  let fault := fault.withTrace (m.trace program)
  if !fault.cause.isCatchable then throw fault
  match m.handlers with
  | [] => throw fault
  | h :: rest =>
    modify fun m => { m with handlers := rest }
    unwind h
    jump h.catchIp
    push (.error (.string fault.cause.message) (some fault.trace))

/-- A step and, if it fails, the recovery from it. -/
def turn (host : Host) (program : Program) : Act Unit := fun m =>
  match step host program m with
  | .ok _ m => .ok () m
  | .error fault m => recover program fault m

/-- Takes turns until no call is left, `fuel` turns at most. Tells whether no call is left. -/
def run (host : Host) (program : Program) : (fuel : Nat) → Act Bool
  | 0 => fun m => .ok m.frames.isEmpty m
  | fuel + 1 => fun m =>
    if m.frames.isEmpty then .ok true m
    else
      match turn host program m with
      | .ok _ m => run host program fuel m
      | .error fault m => .error fault m

end Act

namespace Machine

/-- A machine that is about to run an entry page. -/
def start (entry : UInt16) (world : World) : Machine :=
  { idle #[] world with frames := [.new entry 0 true none] }

/-- Runs an act on a machine of its own and gives the world back. -/
def within {α : Type} (arguments : Array Value) (act : Act α) : Effect α := fun w =>
  match act (idle arguments w) with
  | .ok a m => .ok a m.world
  | .error fault m => .error fault m.world

end Machine

/-- Runs an entry page of a program to its end and gives its value; none if that takes more than
`fuel` turns. -/
def Program.execute (program : Program) (host : Host) (entry : UInt16) (fuel : Nat) :
    Effect (Option Value) := fun w =>
  if (program.page? entry).isNone then .error (.ofBreach (.noEntryPage entry.toNat)) w
  else
    match Act.run host program fuel (Machine.start entry w) with
    | .ok true m => .ok (some (m.stack.back?.getD .nil)) m.world
    | .ok false m => .ok none m.world
    | .error fault m => .error fault m.world

/-- Calls a function value from outside; none if that takes more than `fuel` turns. -/
def Program.callFunction (program : Program) (host : Host) (function : Value)
    (arguments : Array Value) (fuel : Nat) : Effect (Option Value) :=
  Machine.within arguments do
    Act.call host program function arguments.size false
    if ← Act.run host program fuel then some <$> Act.pop else return none

end ShellVM
