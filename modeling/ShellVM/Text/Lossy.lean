/-!
# Bytes as texts

Programs, files and their names know bytes, not characters. A row of bytes is kept as a text with
one character below 256 for each byte, so that the operations on texts serve for both.

A row of bytes that should be UTF-8 is read as text whether it is or not: each longest start of a
character that does not go on as one is shown as one replacement character.
-/

namespace ShellVM.Raw

def ofBytes (bytes : List UInt8) : String := String.ofList (bytes.map fun b => Char.ofNat b.toNat)

/-- The bytes that a text is stored as. -/
def ofText (s : String) : String :=
  if s.toList.all fun c => c.toNat < 128 then s else ofBytes s.toUTF8.toList

def toBytes (s : String) : ByteArray := s.toList.foldl (fun out c => out.push c.toNat.toUInt8) .empty

end ShellVM.Raw

namespace ShellVM.Text

/-- What stands for bytes that are no character. -/
def replacement : Char := '\ufffd'

/-- The text so far, and the character that is open: its bits so far, the number of bytes that it
still needs, and the bounds of the next one. -/
structure LossyReader where
  text : String := ""
  bits : Nat := 0
  owed : Nat := 0
  low : Nat := 0x80
  high : Nat := 0xbf

namespace LossyReader

def push (r : LossyReader) (c : Char) : LossyReader := { text := r.text.push c }

def begin (r : LossyReader) (bits owed low high : Nat) : LossyReader := ⟨r.text, bits, owed, low, high⟩

/-- A byte where no character is open. -/
def first (r : LossyReader) (b : Nat) : LossyReader :=
  if b < 0x80 then r.push (Char.ofNat b)
  else if b < 0xc2 then r.push replacement
  else if b < 0xe0 then r.begin (b - 0xc0) 1 0x80 0xbf
  else if b = 0xe0 then r.begin 0 2 0xa0 0xbf
  else if b = 0xed then r.begin 0xd 2 0x80 0x9f
  else if b < 0xf0 then r.begin (b - 0xe0) 2 0x80 0xbf
  else if b = 0xf0 then r.begin 0 3 0x90 0xbf
  else if b < 0xf4 then r.begin (b - 0xf0) 3 0x80 0xbf
  else if b = 0xf4 then r.begin 4 3 0x80 0x8f
  else r.push replacement

def feed (r : LossyReader) (byte : UInt8) : LossyReader :=
  let b := byte.toNat
  if r.owed = 0 then r.first b
  else if r.low ≤ b ∧ b ≤ r.high then
    let bits := 64 * r.bits + (b - 0x80)
    if r.owed = 1 then r.push (Char.ofNat bits) else r.begin bits (r.owed - 1) 0x80 0xbf
  else (r.push replacement).first b

def finish (r : LossyReader) : String := if r.owed = 0 then r.text else r.text.push replacement

end LossyReader

def lossy (bytes : ByteArray) : String :=
  match String.fromUTF8? bytes with
  | some s => s
  | none => (bytes.toList.foldl LossyReader.feed {}).finish

end ShellVM.Text
