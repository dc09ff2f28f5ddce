import ShellVM.Machine.Call
import ShellVM.Value.Arithmetic
import ShellVM.Value.Index

/-!
# What instructions do

`Act.perform` carries out one instruction. Operands leave the stack before anything can fail for
another reason than their absence.
-/

namespace ShellVM.Act

/-- The value of a constant of a page. -/
def constant (program : Program) (page : Page) (key : UInt16) : Act Value := do
  match page.constants.get? key with
  | none => breach (.constantOutOfRange key.toNat)
  | some .nil => return .nil
  | some (.boolean b) => return .boolean b
  | some (.integer n) => return .integer n
  | some (.float bits) => return .float (.ofBits bits)
  | some (.string s) => return .string s
  | some (.page index) =>
    return .function (.page index ((program.page? index).elim "<function>" Page.name))
  | some (.libraryFunction index) =>
    match program.libraryFunction index with
    | .ok f => return .function (.library f)
    | .error cause => fail cause
  | some (.shape ..) => breach .shapeAsValue

/-- A constant gives its value, or it names a standard function that does not exist, or it is no value. -/
theorem constant_cases {P : Act Value → Prop} {program : Program} {page : Page} {key : UInt16}
    (hvalue : ∀ v, P (pure v)) (hfail : ∀ index cause, program.libraryFunction index = .error cause → P (fail cause))
    (hbreach : ∀ b, b ≠ .stackUnderflow → P (breach b)) : P (constant program page key) := by
  unfold constant
  cases page.constants.get? key with
  | none => exact hbreach _ nofun
  | some c =>
    cases c with
    | libraryFunction index =>
      dsimp only
      cases hf : program.libraryFunction index with
      | ok f => exact hvalue _
      | error cause => exact hfail index cause hf
    | shape name fields => exact hbreach _ nofun
    | _ => exact hvalue _

def binary (o : BinaryOp) : Act Unit := do
  let right ← pop
  let left ← pop
  push (← effect (Value.binary o left right))

def unary (o : UnaryOp) : Act Unit := do
  let operand ← pop
  push (← effect (Value.unary o operand))

def cast (tag : UInt8) : Act Unit := do
  match Kind.ofTag? tag with
  | none => breach (.unknownKind tag.toNat)
  | some kind =>
    let v ← pop
    push (← effect (v.cast kind))

def index : Act Unit := do
  let i ← pop
  let target ← pop
  push (← effect (target.index i))

def indexStore : Act Unit := do
  let i ← pop
  let target ← pop
  let v ← pop
  effect (target.store i v)
  push v

/-! ## Building values -/

/-- The pairs of a row of keys and values that stand side by side. -/
def entries : List Value → Except Cause (List (Key × Value))
  | k :: v :: rest => do
    let k ← Effect.key k
    return (k, v) :: (← entries rest)
  | _ => .ok []

def buildList (count : Nat) : Act Unit := do
  let items ← popMany count
  push (← effect (Effect.newList items))

def buildTuple (count : Nat) : Act Unit := do
  let items ← popMany count
  push (.tuple items.toList)

def buildSet (count : Nat) : Act Unit := do
  let items ← popMany count
  push (← effect do
    let keys ← Effect.ofExcept (Effect.keys items.toList)
    Effect.newSet (.ofKeys keys))

def buildDictionary (count : Nat) : Act Unit := do
  let items ← popMany (count * 2)
  push (← effect do
    let entries ← Effect.ofExcept (entries items.toList)
    Effect.newDictionary (.ofList entries))

def buildString (count : Nat) : Act Unit := do
  let parts ← popMany count
  push (← effect do return .string (String.join (← Value.textAll parts.toList)))

def bound : Act Int64 := do
  let v ← pop
  match v.asInteger? with
  | some n => return n
  | none => fail (.cast v.kind "Integer")

def buildRange (flags : UInt8) : Act Unit := do
  let last? ← if flags &&& RangeFlag.hasLast != 0 then some <$> bound else pure none
  let first? ← if flags &&& RangeFlag.hasFirst != 0 then some <$> bound else pure none
  push (.range ⟨first?, last?, none, flags &&& RangeFlag.inclusive != 0⟩)

def buildStruct (page : Page) (key : UInt16) : Act Unit := do
  match page.constants.get? key with
  | some (.shape name fields) =>
    let values ← popMany fields.length
    push (← effect (Effect.newRecord (.ofFields name (fields.zip values.toList))))
  | _ => breach .buildWithoutShape

def unpack (count : Nat) : Act Unit := do
  let v ← pop
  let items ← effect v.items
  if items.length ≠ count then fail (.unpack count items.length)
  pushAll items

/-! ## Cells and closures -/

/-- Moves a local into a cell of its own. -/
def makeCell (s : UInt8) : Act Unit := do
  let v ← load s
  let a ← effect (Effect.newCell v)
  modifyFrame (·.setCell s a)

/-- Puts a cell aside for the next closure. -/
def await (a : Addr) : Act Unit := modify fun m => { m with pending := a :: m.pending }

def makeClosure (page : Page) (key : UInt16) (count : Nat) : Act Unit := do
  match page.constants.get? key with
  | some (.page index) =>
    let pending := (← get).pending
    if pending.length < count then breach .closureWithoutCaptures
    modify fun m => { m with pending := pending.drop count }
    let environment ← effect (Effect.newEnvironment (pending.take count).reverse)
    push (.function (.closure index environment))
  | _ => breach .closureWithoutPage

/-! ## Iteration and regions -/

def startIteration : Act Unit := do
  let v ← pop
  let it ← effect (Iter.ofValue v)
  modify fun m => { m with iterators := it :: m.iterators }

/-- Pushes the next item, or jumps if there is none. -/
def iterate (i : Instruction) : Act Unit := do
  match (← get).iterators with
  | [] => breach .nextWithoutIterator
  | it :: rest =>
    let (item?, it) ← effect it.next
    modify fun m => { m with iterators := it :: rest }
    match item? with
    | some v => push v
    | none => jumpTo i

def endIteration : Act Unit := do
  match (← get).iterators with
  | [] => breach .endWithoutIterator
  | _ :: rest => modify fun m => { m with iterators := rest }

def openTry (i : Instruction) : Act Unit := do
  match i.target? with
  | none => breach .tryWithoutTarget
  | some catchIp =>
    modify fun m => { m with
      handlers := ⟨m.frames.length, m.stack.size, m.iterators.length, catchIp⟩ :: m.handlers }

def closeTry : Act Unit := do
  match (← get).handlers with
  | [] => breach .endWithoutTry
  | _ :: rest => modify fun m => { m with handlers := rest }

/-! ## Jumps and calls -/

/-- Jumps if the truth of a value is `expected`. -/
def jumpIf (expected : Bool) (v : Value) (i : Instruction) : Act Unit := do
  if (← effect v.truth) == expected then jumpTo i

def callValue (host : Host) (program : Program) (rootness : Rootness) (count : Nat) :
    Act Unit := do
  let isRoot ← root rootness
  let callee ← takeCallee count
  call host program callee count isRoot

def callStandard (host : Host) (program : Program) (page : Page) (key : UInt16) (count : Nat) : Act Unit := do
  match page.constants.get? key with
  | some (.libraryFunction index) =>
    match program.libraryFunction index with
    | .ok f => callLibrary host f count
    | .error cause => fail cause
  | _ => breach .callWithoutFunction

/-- A standard function is called, or it does not exist, or the constant names none. -/
theorem callStandard_cases {P : Act Unit → Prop} {host : Host} {program : Program} {page : Page} {key : UInt16}
    {count : Nat} (hcall : ∀ index f, program.libraryFunction index = .ok f → P (callLibrary host f count))
    (hfail : ∀ index cause, program.libraryFunction index = .error cause → P (fail cause))
    (hbreach : P (breach .callWithoutFunction)) : P (callStandard host program page key count) := by
  unfold callStandard
  cases page.constants.get? key with
  | none => exact hbreach
  | some c =>
    cases c with
    | libraryFunction index =>
      dsimp only
      cases hf : program.libraryFunction index with
      | ok f => exact hcall index f hf
      | error cause => exact hfail index cause hf
    | _ => exact hbreach

/-- Carries out an instruction of a page. -/
def perform (host : Host) (program : Program) (page : Page) (i : Instruction) : Act Unit := do
  match i.op with
  | .nop => pure ()
  | .pop => let _ ← pop
  | .popN => let _ ← popMany (i.byte 0).toNat
  | .unwind =>
    let top ← pop
    let _ ← popMany (i.byte 0).toNat
    push top
  | .const => push (← constant program page (i.word 0))
  | .load => push (← load (i.byte 0))
  | .store => store (i.byte 0)
  | .loadCapture => push (← readCell (← capture (i.byte 0)))
  | .storeCapture =>
    let v ← peek
    writeCell (← capture (i.byte 0)) v
  | .makeCell => makeCell (i.byte 0)
  | .loadCell => push (← readCell (← cell (i.byte 0)))
  | .storeCell =>
    let v ← peek
    writeCell (← cell (i.byte 0)) v
  | .captureLocal => await (← cell (i.byte 0))
  | .captureOuter => await (← capture (i.byte 0))
  | .index => index
  | .indexStore => indexStore
  | .add => binary .add
  | .sub => binary .subtract
  | .mul => binary .multiply
  | .div => binary .divide
  | .mod => binary .modulo
  | .pow => binary .power
  | .negate => unary .negate
  | .not => unary .not
  | .equal => binary .equal
  | .notEqual => binary .notEqual
  | .less => binary .less
  | .lessEqual => binary .lessEqual
  | .greater => binary .greater
  | .greaterEqual => binary .greaterEqual
  | .and => binary .and
  | .or => binary .or
  | .contains => binary .member
  | .cast => cast (i.byte 0)
  | .buildList => buildList (i.word 0).toNat
  | .buildTuple => buildTuple (i.word 0).toNat
  | .buildDict => buildDictionary (i.word 0).toNat
  | .buildSet => buildSet (i.word 0).toNat
  | .buildRange => buildRange (i.byte 0)
  | .buildString => buildString (i.word 0).toNat
  | .buildStruct => buildStruct page (i.word 0)
  | .unpack => unpack (i.byte 0).toNat
  | .makeClosure => makeClosure page (i.word 0) (i.byte 2).toNat
  | .jump | .jumpBackward => jumpTo i
  | .jumpIf => jumpIf true (← peek) i
  | .jumpIfNot => jumpIf false (← peek) i
  | .popJumpIf => jumpIf true (← pop) i
  | .popJumpIfNot => jumpIf false (← pop) i
  | .getIter => startIteration
  | .forIter => iterate i
  | .endFor => endIteration
  | .call => callValue host program (.fixed false) (i.byte 0).toNat
  | .rootCall => callValue host program (.fixed true) (i.byte 0).toNat
  | .maybeRootCall => callValue host program .inherited (i.byte 0).toNat
  | .callStd => callStandard host program page (i.word 0) (i.byte 2).toNat
  | .callProgram => callProgram (.fixed false) i
  | .rootCallProgram => callProgram (.fixed true) i
  | .maybeRootCallProgram => callProgram .inherited i
  | .ret => jump page.code.size
  | .enterTry => openTry i
  | .endTry => closeTry

end ShellVM.Act
