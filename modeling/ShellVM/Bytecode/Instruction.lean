import ShellVM.Bytecode.Op

/-!
# Instructions

Reading code, a row of bytes, as instructions: an opcode byte and as many operand bytes as the opcode
has. Reading stops at the first byte that is no opcode or whose operands are cut off.
-/

namespace ShellVM

structure Instruction where
  offset : Nat
  op : Op
  operands : List UInt8
deriving DecidableEq

namespace Instruction

/-- The offset after the operands. -/
def next (i : Instruction) : Nat := i.offset + 1 + i.operands.length

def byte (i : Instruction) (n : Nat) : UInt8 := (i.operands[n]?).getD 0

def word (i : Instruction) (n : Nat) : UInt16 := (wordAt? i.operands n).getD 0

/-- The offset to which a jump goes; none if that lies before the code. -/
def target? (i : Instruction) : Option Nat :=
  if !i.op.isJump then none
  else
    let distance := (i.word 0).toNat
    if i.op = .jumpBackward then
      if distance ≤ i.next then some (i.next - distance) else none
    else some (i.next + distance)

/-- The bytes of an instruction. -/
def bytes (i : Instruction) : List UInt8 := i.op.toByte :: i.operands

end Instruction

/-- A row of `count` bytes, if the code goes on that far. -/
def bytesFrom? (code : Array UInt8) : (offset count : Nat) → Option (List UInt8)
  | _, 0 => some []
  | offset, count + 1 => do
    let b ← code[offset]?
    let rest ← bytesFrom? code (offset + 1) count
    return b :: rest

/-- Why no instruction can be read. -/
inductive Unreadable where
  | unknown (byte : UInt8)
  | truncated (op : Op)

/-- Reads the instruction at an offset where the byte is `byte`. -/
def readInstruction (code : Array UInt8) (offset : Nat) (byte : UInt8) :
    Except Unreadable Instruction :=
  match Op.ofByte? byte with
  | none => .error (.unknown byte)
  | some op =>
    match bytesFrom? code (offset + 1) op.width with
    | none => .error (.truncated op)
    | some operands => .ok ⟨offset, op, operands⟩

/-- One item of reading code: an instruction, or the offset and byte where reading stopped. -/
abbrev Decoded := Except (Nat × UInt8) Instruction

/-- The items from an offset on, the latest first in front of `found`. -/
def decodeFrom (code : Array UInt8) : (fuel offset : Nat) → List Decoded → List Decoded
  | 0, _, found => found
  | fuel + 1, offset, found =>
    match code[offset]? with
    | none => found
    | some byte =>
      match readInstruction code offset byte with
      | .ok i => decodeFrom code fuel i.next (.ok i :: found)
      | .error _ => .error (offset, byte) :: found

/-- The instructions of a code, with the place of a failure at the end if there is one. Each
instruction takes a byte at least, so the size of the code bounds their number. -/
def decodeAll (code : Array UInt8) : List Decoded := (decodeFrom code code.size 0 []).reverse

/-- The instructions of a code up to a failure. -/
def instructions (code : Array UInt8) : List Instruction :=
  (decodeAll code).filterMap Except.toOption

end ShellVM
