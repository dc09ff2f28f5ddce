import ShellVM.Machine.Run
import ShellVM.Proofs.Direct.Value

/-!
# The machine with direct accesses

The same machine, but what stands behind a check is accessed directly: the byte of an instruction, locals, the callee
under its arguments, the values that are split off the stack, pending captures and the lines of a page. If the library
functions that it comes across are standard ones, a step does what a step of the machine does (`step_eq`), and so does
the recovery from its failure (`recover_eq`).
-/

namespace ShellVM.Direct

variable {σ α : Type}

def breach (b : Breach) : Direct σ α := throw (some (.ofBreach b))

/-- Acts on the world of the machine. -/
def effect (e : Direct World α) : Direct Machine α := fun m =>
  match e m.world with
  | .ok a w => .ok a { m with world := w }
  | .error e w => .error e { m with world := w }

/-! ## The stack -/

/-- Splits the top `count` values off the stack. -/
def popMany (count : Nat) : Direct Machine (Array Value) := do
  let m ← get
  if m.stack.size < count then breach .stackUnderflow
  let place := m.stack.size - count
  let taken ← there (if place ≤ m.stack.size then some (m.stack.extract place m.stack.size) else none)
  set { m with stack := m.stack.shrink place }
  return taken

/-- Removes the callee from under its `count` arguments. -/
def takeCallee (count : Nat) : Direct Machine Value := do
  let m ← get
  if m.stack.size < count + 1 then breach .stackUnderflow
  let place := m.stack.size - (count + 1)
  let callee ← there m.stack[place]?
  set { m with stack := m.stack.eraseIdxIfInBounds place }
  return callee

/-- The place of a local on the stack. -/
def slot (s : UInt8) : Direct Machine Nat := do
  let m ← get
  match m.frames with
  | [] => breach .noFrame
  | f :: _ =>
    let place := f.base + s.toNat
    if m.stack.size ≤ place then breach (.slotOffStack s.toNat) else return place

def load (s : UInt8) : Direct Machine Value := do
  let place ← slot s
  there (← get).stack[place]?

def store (s : UInt8) : Direct Machine Unit := do
  let place ← slot s
  let v ← guarded Act.peek
  let m ← get
  let _ ← there m.stack[place]?
  set { m with stack := m.stack.setIfInBounds place v }

/-! ## Instructions -/

def makeCell (s : UInt8) : Direct Machine Unit := do
  let v ← load s
  guarded do
    let a ← Act.effect (Effect.newCell v)
    Act.modifyFrame (·.setCell s a)

def index : Direct Machine Unit := do
  let i ← guarded Act.pop
  let target ← guarded Act.pop
  let v ← effect (readIndex target i)
  guarded (Act.push v)

def indexStore : Direct Machine Unit := do
  let i ← guarded Act.pop
  let target ← guarded Act.pop
  let v ← guarded Act.pop
  effect (writeIndex target i v)
  guarded (Act.push v)

/-- Splits the latest `count` captures off the pending ones. -/
def makeClosure (page : Page) (key : UInt16) (count : Nat) : Direct Machine Unit := do
  match page.constants.get? key with
  | some (.page index) =>
    let m ← get
    if m.pending.length < count then breach .closureWithoutCaptures
    let (kept, taken) ← there (splitAt? m.pending.reverse (m.pending.length - count))
    set { m with pending := kept.reverse }
    guarded do
      let environment ← Act.effect (Effect.newEnvironment taken)
      Act.push (.function (.closure index environment))
  | _ => breach .closureWithoutPage

def callLibrary (f : LibraryFunction) (count : Nat) : Direct Machine Unit := do
  let arguments ← popMany count
  let v ← effect (callFunction f arguments.toList)
  guarded (Act.push v)

def call (limits : Limits) (program : Program) (callee : Value) (count : Nat) (isRoot : Bool) : Direct Machine Unit :=
  match callee with
  | .function (.library f) => callLibrary f count
  | v => guarded (Act.call limits program v count isRoot)

def callValue (limits : Limits) (program : Program) (rootness : Act.Rootness) (count : Nat) : Direct Machine Unit := do
  let isRoot ← guarded (Act.root rootness)
  let callee ← takeCallee count
  call limits program callee count isRoot

def callStandard (program : Program) (page : Page) (key : UInt16) (count : Nat) : Direct Machine Unit := do
  match page.constants.get? key with
  | some (.libraryFunction index) =>
    match program.libraryFunction index with
    | .ok f => callLibrary f count
    | .error cause => fail cause
  | _ => breach .callWithoutFunction

def programOperands (count pairs : Nat) (flags : CallFlags) : Direct Machine Act.ProgramOperands := do
  let environment ← popMany (pairs * 2)
  let piped? ← guarded (if flags.contains .piped then some <$> Act.pop else pure none)
  let arguments ← popMany count
  let name ← guarded Act.pop
  return ⟨name, arguments.toList, piped?, environment.toList⟩

def callProgram (rootness : Act.Rootness) (i : Instruction) : Direct Machine Unit := do
  let isRoot ← guarded (Act.root rootness)
  let flags : CallFlags := ⟨i.word 1⟩
  let operands ← programOperands (i.byte 0).toNat (i.byte 3).toNat flags
  guarded do Act.push (← Act.effect do Job.run (← Act.programCall operands) flags isRoot)

/-- Carries out an instruction. The ones that access no row directly are as they were. -/
def perform (limits : Limits) (program : Program) (page : Page) (i : Instruction) : Direct Machine Unit := do
  match i.op with
  | .popN =>
    let _ ← popMany (i.byte 0).toNat
  | .unwind =>
    let top ← guarded Act.pop
    let _ ← popMany (i.byte 0).toNat
    guarded (Act.push top)
  | .load =>
    let v ← load (i.byte 0)
    guarded (Act.push v)
  | .store => store (i.byte 0)
  | .makeCell => makeCell (i.byte 0)
  | .index => index
  | .indexStore => indexStore
  | .buildList =>
    let items ← popMany (i.word 0).toNat
    guarded do Act.push (← Act.effect (Effect.newList items))
  | .buildTuple =>
    let items ← popMany (i.word 0).toNat
    guarded (Act.push (.tuple items.toList))
  | .buildSet =>
    let items ← popMany (i.word 0).toNat
    guarded do Act.push (← Act.effect do
      let keys ← Effect.ofExcept (Effect.keys items.toList)
      Effect.newSet (.ofKeys keys))
  | .buildDict =>
    let items ← popMany ((i.word 0).toNat * 2)
    guarded do Act.push (← Act.effect do
      let entries ← Effect.ofExcept (Act.entries items.toList)
      Effect.newDictionary (.ofList entries))
  | .buildString =>
    let parts ← popMany (i.word 0).toNat
    guarded do Act.push (← Act.effect do return .string (String.join (← Value.textAll parts.toList)))
  | .buildStruct =>
    match page.constants.get? (i.word 0) with
    | some (.shape name fields) =>
      let values ← popMany fields.length
      guarded do Act.push (← Act.effect (Effect.newRecord (.ofFields name (fields.zip values.toList))))
    | _ => breach .buildWithoutShape
  | .makeClosure => makeClosure page (i.word 0) (i.byte 2).toNat
  | .call => callValue limits program (.fixed false) (i.byte 0).toNat
  | .rootCall => callValue limits program (.fixed true) (i.byte 0).toNat
  | .maybeRootCall => callValue limits program .inherited (i.byte 0).toNat
  | .callStd => callStandard program page (i.word 0) (i.byte 2).toNat
  | .callProgram => callProgram (.fixed false) i
  | .rootCallProgram => callProgram (.fixed true) i
  | .maybeRootCallProgram => callProgram .inherited i
  | _ => guarded (Act.perform limits program page i)

/-! ## Steps -/

/-- Goes on with the next instruction: reads its byte directly. -/
def advance (limits : Limits) (program : Program) : Direct Machine Unit := do
  let f ← guarded Act.frame
  match program.page? f.page with
  | none => breach (.noPage f.page.toNat)
  | some page =>
    if page.code.size ≤ f.ip then guarded Act.leave
    else
      let byte ← there page.code[f.ip]?
      match readInstruction page.code f.ip byte with
      | .error (.unknown byte) => breach (.unknownOpcode byte.toNat f.ip)
      | .error (.truncated op) => breach (.truncated op f.ip)
      | .ok i =>
        guarded (Act.jump i.next)
        perform limits program page i

def step (limits : Limits) (program : Program) : Direct Machine Unit := do
  guarded (Act.checkLimits limits)
  advance limits program

/-- The source line of the instruction at an offset: reads the line before the first later one directly. -/
def lineAt (p : Page) (offset : Nat) : Direct σ (Option UInt32) := do
  if offset < 4294967296 then
    let after := partitionPoint (fun i => (p.lines[i]?).any fun (start, _) => start.toNat ≤ offset) p.lines.size
    if after = 0 then return none
    else
      let (_, line) ← there p.lines[after - 1]?
      return some line
  else return none

/-- The places where the program is. -/
def trace (program : Program) (m : Machine) : Direct σ (List CallSite) :=
  m.frames.mapM fun f =>
    match program.page? f.page with
    | some page => return ⟨page.name, ← lineAt page (f.ip - 1)⟩
    | none => return ⟨"<page " ++ f.page.toNat.repr ++ ">", none⟩

/-- Goes on at the innermost handler. -/
def recover (program : Program) (fault : Fault) : Direct Machine Unit := do
  let m ← get
  let fault := fault.withTrace (← trace program m)
  if !fault.cause.isCatchable then throw (some fault)
  match m.handlers with
  | [] => throw (some fault)
  | h :: rest => guarded do
    modify fun m => { m with handlers := rest }
    Act.unwind h
    Act.jump h.catchIp
    Act.push (.error (.string fault.cause.message) (some fault.trace))

def turn (limits : Limits) (program : Program) : Direct Machine Unit := fun m =>
  match step limits program m with
  | .ok _ m => .ok () m
  | .error (some fault) m => recover program fault m
  | .error none m => .error none m

def run (limits : Limits) (program : Program) : (fuel : Nat) → Direct Machine Bool
  | 0 => fun m => .ok m.frames.isEmpty m
  | fuel + 1 => fun m =>
    if m.frames.isEmpty then .ok true m
    else
      match turn limits program m with
      | .ok _ m => run limits program fuel m
      | .error e m => .error e m

/-- Runs an entry page of a program. -/
def execute (program : Program) (limits : Limits) (entry : UInt16) (fuel : Nat) :
    Direct World (Option Value) := fun w =>
  if (program.page? entry).isNone then .error (some (.ofBreach (.noEntryPage entry.toNat))) w
  else
    match run limits program fuel (Machine.start entry w) with
    | .ok true m => .ok (some (m.stack.back?.getD .nil)) m.world
    | .ok false m => .ok none m.world
    | .error e m => .error e m.world

end ShellVM.Direct
