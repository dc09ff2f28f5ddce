import ShellVM.Job.Flags

/-!
# Opcodes

An instruction is one opcode byte and a number of operand bytes that the opcode fixes. Operands are
single bytes or words of two bytes, the high byte first. `stackEffect?` says how many values an
instruction takes from the operand stack and how many it leaves there.
-/

namespace ShellVM

inductive Op where
  | nop
  | pop
  | popN
  | unwind
  | const
  | load
  | store
  | loadCapture
  | storeCapture
  | makeCell
  | loadCell
  | storeCell
  | captureLocal
  | captureOuter
  | index
  | indexStore
  | add
  | sub
  | mul
  | div
  | mod
  | pow
  | negate
  | not
  | equal
  | notEqual
  | less
  | lessEqual
  | greater
  | greaterEqual
  | and
  | or
  | contains
  | cast
  | buildList
  | buildTuple
  | buildDict
  | buildSet
  | buildRange
  | buildString
  | buildStruct
  | unpack
  | makeClosure
  | jump
  | jumpBackward
  | jumpIf
  | jumpIfNot
  | popJumpIf
  | popJumpIfNot
  | getIter
  | forIter
  | endFor
  | call
  | rootCall
  | maybeRootCall
  | callStd
  | callProgram
  | rootCallProgram
  | maybeRootCallProgram
  | ret
  | enterTry
  | endTry
deriving DecidableEq

namespace Op

/-- Every opcode, in the order of the bytes. -/
def all : Array Op := #[
    nop, pop, popN, unwind, const, load, store, loadCapture, storeCapture, makeCell, loadCell,
    storeCell, captureLocal, captureOuter, index, indexStore, add, sub, mul, div, mod, pow,
    negate, not, equal, notEqual, less, lessEqual, greater, greaterEqual, and, or, contains, cast,
    buildList, buildTuple, buildDict, buildSet, buildRange, buildString, buildStruct, unpack,
    makeClosure, jump, jumpBackward, jumpIf, jumpIfNot, popJumpIf, popJumpIfNot, getIter, forIter,
    endFor, call, rootCall, maybeRootCall, callStd, callProgram, rootCallProgram,
    maybeRootCallProgram, ret, enterTry, endTry]

def toByte : Op → UInt8
  | nop => 0
  | pop => 1
  | popN => 2
  | unwind => 3
  | const => 4
  | load => 5
  | store => 6
  | loadCapture => 7
  | storeCapture => 8
  | makeCell => 9
  | loadCell => 10
  | storeCell => 11
  | captureLocal => 12
  | captureOuter => 13
  | index => 14
  | indexStore => 15
  | add => 16
  | sub => 17
  | mul => 18
  | div => 19
  | mod => 20
  | pow => 21
  | negate => 22
  | not => 23
  | equal => 24
  | notEqual => 25
  | less => 26
  | lessEqual => 27
  | greater => 28
  | greaterEqual => 29
  | and => 30
  | or => 31
  | contains => 32
  | cast => 33
  | buildList => 34
  | buildTuple => 35
  | buildDict => 36
  | buildSet => 37
  | buildRange => 38
  | buildString => 39
  | buildStruct => 40
  | unpack => 41
  | makeClosure => 42
  | jump => 43
  | jumpBackward => 44
  | jumpIf => 45
  | jumpIfNot => 46
  | popJumpIf => 47
  | popJumpIfNot => 48
  | getIter => 49
  | forIter => 50
  | endFor => 51
  | call => 52
  | rootCall => 53
  | maybeRootCall => 54
  | callStd => 55
  | callProgram => 56
  | rootCallProgram => 57
  | maybeRootCallProgram => 58
  | ret => 59
  | enterTry => 60
  | endTry => 61

def ofByte? (b : UInt8) : Option Op := all[b.toNat]?

def name : Op → String
  | nop => "Nop"
  | pop => "Pop"
  | popN => "PopN"
  | unwind => "Unwind"
  | const => "Const"
  | load => "Load"
  | store => "Store"
  | loadCapture => "LoadCapture"
  | storeCapture => "StoreCapture"
  | makeCell => "MakeCell"
  | loadCell => "LoadCell"
  | storeCell => "StoreCell"
  | captureLocal => "CaptureLocal"
  | captureOuter => "CaptureOuter"
  | index => "Index"
  | indexStore => "IndexStore"
  | add => "Add"
  | sub => "Sub"
  | mul => "Mul"
  | div => "Div"
  | mod => "Mod"
  | pow => "Pow"
  | negate => "Negate"
  | not => "Not"
  | equal => "Equal"
  | notEqual => "NotEqual"
  | less => "Less"
  | lessEqual => "LessEqual"
  | greater => "Greater"
  | greaterEqual => "GreaterEqual"
  | and => "And"
  | or => "Or"
  | contains => "Contains"
  | cast => "Cast"
  | buildList => "BuildList"
  | buildTuple => "BuildTuple"
  | buildDict => "BuildDict"
  | buildSet => "BuildSet"
  | buildRange => "BuildRange"
  | buildString => "BuildString"
  | buildStruct => "BuildStruct"
  | unpack => "Unpack"
  | makeClosure => "MakeClosure"
  | jump => "Jump"
  | jumpBackward => "JumpBackward"
  | jumpIf => "JumpIf"
  | jumpIfNot => "JumpIfNot"
  | popJumpIf => "PopJumpIf"
  | popJumpIfNot => "PopJumpIfNot"
  | getIter => "GetIter"
  | forIter => "ForIter"
  | endFor => "EndFor"
  | call => "Call"
  | rootCall => "RootCall"
  | maybeRootCall => "MaybeRootCall"
  | callStd => "CallStd"
  | callProgram => "CallProgram"
  | rootCallProgram => "RootCallProgram"
  | maybeRootCallProgram => "MaybeRootCallProgram"
  | ret => "Ret"
  | enterTry => "Try"
  | endTry => "EndTry"

/-- The number of operand bytes. -/
def width : Op → Nat
  | popN | unwind | load | store | loadCapture | storeCapture | makeCell | loadCell | storeCell
  | captureLocal | captureOuter | cast | buildRange | unpack | call | rootCall | maybeRootCall => 1
  | const | buildList | buildTuple | buildDict | buildSet | buildString | buildStruct | jump
  | jumpBackward | jumpIf | jumpIfNot | popJumpIf | popJumpIfNot | forIter | enterTry => 2
  | makeClosure | callStd => 3
  | callProgram | rootCallProgram | maybeRootCallProgram => 4
  | _ => 0

def isJump : Op → Bool
  | jump | jumpBackward | jumpIf | jumpIfNot | popJumpIf | popJumpIfNot | forIter | enterTry => true
  | _ => false

end Op

/-! The parts of a range that a `buildRange` operand announces. -/

namespace RangeFlag

def hasFirst : UInt8 := 1

def hasLast : UInt8 := 2

def inclusive : UInt8 := 4

end RangeFlag

/-- The word whose high byte stands at position `i`. -/
def wordAt? (bytes : List UInt8) (i : Nat) : Option UInt16 := do
  let high ← bytes[i]?
  let low ← bytes[i + 1]?
  return high.toUInt16 * 256 + low.toUInt16

/-- The two bytes of a word, the high byte first. -/
def wordBytes (w : UInt16) : List UInt8 := [(w >>> 8).toUInt8, w.toUInt8]

/-- How many values an instruction takes and leaves. It is unknown for instructions that depend on
more than their operands, and if operands are missing. -/
def Op.stackEffect? (op : Op) (operands : List UInt8) : Option (Nat × Nat) :=
  let byte (i : Nat) : Option Nat := operands[i]?.map UInt8.toNat
  let word (i : Nat) : Option Nat := (wordAt? operands i).map UInt16.toNat
  match op with
  | nop | jump | jumpBackward | jumpIf | jumpIfNot | endFor | enterTry | endTry | makeCell
  | captureLocal | captureOuter => some (0, 0)
  | pop | popJumpIf | popJumpIfNot | getIter => some (1, 0)
  | popN => do return (← byte 0, 0)
  | unwind => do return ((← byte 0) + 1, 1)
  | const | load | loadCapture | loadCell | forIter | makeClosure => some (0, 1)
  | store | storeCapture | storeCell => some (1, 1)
  | index => some (2, 1)
  | indexStore => some (3, 1)
  | add | sub | mul | div | mod | pow | equal | notEqual | less | lessEqual | greater | greaterEqual
  | and | or | contains => some (2, 1)
  | negate | not | cast => some (1, 1)
  | buildList | buildTuple | buildSet | buildString => do return (← word 0, 1)
  | buildDict => do return ((← word 0) * 2, 1)
  | buildRange => do
    let flags ← operands[0]?
    let first := if flags &&& RangeFlag.hasFirst != 0 then 1 else 0
    let last := if flags &&& RangeFlag.hasLast != 0 then 1 else 0
    return (first + last, 1)
  | unpack => do return (1, ← byte 0)
  | call | rootCall | maybeRootCall => do return ((← byte 0) + 1, 1)
  | callStd => do return (← byte 2, 1)
  | callProgram | rootCallProgram | maybeRootCallProgram => do
    let arguments ← byte 0
    let flags ← wordAt? operands 1
    let pairs ← byte 3
    let piped := if CallFlags.contains ⟨flags⟩ .piped then 1 else 0
    return (1 + arguments + piped + pairs * 2, 1)
  | buildStruct | ret => none

namespace Op

theorem ofByte?_toByte (op : Op) : ofByte? op.toByte = some op := by cases op <;> rfl

end Op

end ShellVM
