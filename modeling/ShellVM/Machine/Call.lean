import ShellVM.Machine.Basic
import ShellVM.Library

/-!
# Calls

Calling a function of the program pushes a frame; a library function or another program runs to its
end at once. A call is a root call if its instruction says so, or if it takes that from the frame.
-/

namespace ShellVM

/-- What a run finds around it: its limits, and what the functions of a library do. By default these are the ones that
are built in. -/
structure Host extends Limits where
  carryOut : LibraryFunction → List Value → Effect Value := fun f => f.body.run

/-- The same with other limits. -/
abbrev Host.under (host : Host) (limits : Limits) : Host := { host with toLimits := limits }

instance : Coe Limits Host := ⟨fun limits => { limits with }⟩

namespace Act

/-- Whether a call is a root call: some instructions fix it, others take it from the frame. -/
inductive Rootness where
  | fixed (root : Bool)
  | inherited

def root : Rootness → Act Bool
  | .fixed b => pure b
  | .inherited => do return (← frame).isRoot

/-- Starts a page on the top `count` values. -/
def enter (host : Host) (program : Program) (index : UInt16) (environment? : Option Addr)
    (count : Nat) (isRoot : Bool) : Act Unit := do
  match program.page? index with
  | none => breach (.noPage index.toNat)
  | some page =>
    let m ← get
    if count ≠ page.arity.toNat then
      fail (.argumentCount page.name page.arity.toNat.repr count)
    else if host.callDepth ≤ m.frames.length then
      fail (.limitExceeded .callDepth host.callDepth)
    else if m.stack.size < count then
      breach .stackUnderflow
    else
      modify fun m =>
        { m with frames := .new index (m.stack.size - count) isRoot environment? :: m.frames }

def callLibrary (host : Host) (f : LibraryFunction) (count : Nat) : Act Unit := do
  let arguments ← popMany count
  push (← effect (f.callWith host.carryOut arguments.toList))

/-- Calls a value with the top `count` values as its arguments. -/
def call (host : Host) (program : Program) (callee : Value) (count : Nat) (isRoot : Bool) :
    Act Unit := do
  match callee with
  | .function (.page index _) => enter host program index none count isRoot
  | .function (.closure index environment) =>
    enter host program index (some environment) count isRoot
  | .function (.library f) => callLibrary host f count
  | v => fail (.notCallable v.kind)

/-- Takes the callee out from under its `count` arguments. -/
def takeCallee (count : Nat) : Act Value := fun m =>
  if h : count < m.stack.size then
    let i := m.stack.size - (count + 1)
    .ok m.stack[i] { m with stack := m.stack.eraseIdx i }
  else .error (.ofBreach .stackUnderflow) m

/-! ## Programs -/

/-- The texts of the keys and values of pairs that stand side by side. -/
def textPairs : List Value → Effect (List (String × String))
  | k :: v :: rest => do
    let k ← k.text
    let v ← v.text
    return (k, v) :: (← textPairs rest)
  | _ => pure []

/-- The operands of a program call as values. -/
structure ProgramOperands where
  name : Value
  arguments : List Value
  piped? : Option Value
  environment : List Value

/-- Takes the operands off the stack: the environment is on top, then what is piped, then the
arguments, then the name. -/
def programOperands (count pairs : Nat) (flags : CallFlags) : Act ProgramOperands := do
  let environment ← popMany (pairs * 2)
  let piped? ← if flags.contains .piped then some <$> pop else pure none
  let arguments ← popMany count
  let name ← pop
  return ⟨name, arguments.toList, piped?, environment.toList⟩

/-- The call that operands describe. -/
def programCall (o : ProgramOperands) : Effect ProgramCall := do
  let name ← o.name.text
  let arguments ← Value.flatMapEffect Value.arguments o.arguments
  let environment ← textPairs o.environment
  let piped? ← match o.piped? with
    | some v => some <$> v.pipedInput
    | none => pure none
  return ⟨name, arguments, environment, piped?⟩

def callProgram (rootness : Rootness) (i : Instruction) : Act Unit := do
  let isRoot ← root rootness
  let flags : CallFlags := ⟨i.word 1⟩
  let operands ← programOperands (i.byte 0).toNat (i.byte 3).toNat flags
  push (← effect do Job.run (← programCall operands) flags isRoot)

end Act

end ShellVM
