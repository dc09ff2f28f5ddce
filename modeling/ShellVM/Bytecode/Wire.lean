import ShellVM.Bytecode.Program

/-!
# Stored programs

Programs as bytes. Lengths, words and variant numbers are little-endian groups of seven bits, where
the high bit of a byte says that another follows; signed integers are folded so that small ones stay
short; floats are eight bytes, the low one first. Reading looks at the fields in order and stops at
the first problem; what follows a program is ignored.
-/

namespace ShellVM.Wire

inductive Error where
  | unexpectedEnd
  | badVarint
  | badBoolean
  | badText
  | badVariant
deriving DecidableEq

def Error.message : Error → String
  | .unexpectedEnd => "Hit the end of buffer, expected more data"
  | .badVarint => "Found a varint that didn't terminate. Is the usize too big for this platform?"
  | .badBoolean => "Found a bool that wasn't 0 or 1"
  | .badText => "Tried to parse invalid utf-8"
  | .badVariant => "Serde Deserialization Error"

/-! ## Writing -/

abbrev Bytes := List UInt8

/-- Groups of seven bits. `fuel` bounds their number. -/
def writeGroups : (fuel : Nat) → Nat → Bytes
  | 0, _ => []
  | fuel + 1, n =>
    if n < 128 then [n.toUInt8]
    else (n % 128 + 128).toUInt8 :: writeGroups fuel (n / 128)

/-- Ten groups hold every 64-bit word. -/
def writeNat (n : Nat) : Bytes := writeGroups 10 n

/-- Folds a signed word: `0, -1, 1, -2, …` become `0, 1, 2, 3, …`. -/
def fold (n : Int64) : Nat := if n.toInt < 0 then (-n.toInt).toNat * 2 - 1 else n.toInt.toNat * 2

def unfold (n : Nat) : Int64 :=
  if n % 2 = 0 then Int64.ofNat (n / 2) else Int64.ofInt (-(Int.ofNat (n / 2)) - 1)

def writeText (s : String) : Bytes :=
  let bytes := s.toUTF8.toList
  writeNat bytes.length ++ bytes

def writeMany {α : Type} (write : α → Bytes) (items : List α) : Bytes :=
  writeNat items.length ++ items.flatMap write

/-- Eight bytes, the low one first. -/
def writeBits (bits : UInt64) : Bytes := (List.range 8).map fun i => (bits >>> (8 * i).toUInt64).toUInt8

def writeConstant : Constant → Bytes
  | .nil => [0]
  | .boolean b => [1, if b then 1 else 0]
  | .integer n => 2 :: writeNat (fold n)
  | .float bits => 3 :: writeBits bits
  | .string s => 4 :: writeText s
  | .page index => 5 :: writeNat index.toNat
  | .libraryFunction index => 6 :: writeNat index.toNat
  | .shape name fields => 7 :: (writeText name ++ writeMany writeText fields)

def writeLine (line : UInt32 × UInt32) : Bytes := writeNat line.1.toNat ++ writeNat line.2.toNat

def writePage (p : Page) : Bytes :=
  writeText p.name ++ [p.arity] ++ writeMany (fun b => [b]) p.code.toList ++
    writeMany writeConstant p.constants.entries.toList ++ writeMany writeLine p.lines.toList

def encode (p : Program) : Bytes :=
  writeMany writePage p.pages.toList ++ writeMany (fun e => writeText e.name) p.library.toList

/-! ## Reading -/

/-- Takes something off the front of the bytes. -/
abbrev Reader (α : Type) := Bytes → Except Error (α × Bytes)

def readByte : Reader UInt8
  | [] => .error .unexpectedEnd
  | b :: rest => .ok (b, rest)

/-- Reads at most `groups` groups of seven bits, of which the last must not be above `last`. -/
def readGroups (last : UInt8) : (groups : Nat) → (scale acc : Nat) → Reader Nat
  | 0, _, _ => fun _ => .error .badVarint
  | groups + 1, scale, acc => fun bytes =>
    match bytes with
    | [] => .error .unexpectedEnd
    | b :: rest =>
      let acc := acc + (b.toNat % 128) * scale
      if b < 128 then
        if groups = 0 && last < b then .error .badVarint else .ok (acc, rest)
      else readGroups last groups (scale * 128) acc rest

def read16 : Reader UInt16 := fun bytes => do
  let (n, rest) ← readGroups 3 3 1 0 bytes
  return (n.toUInt16, rest)

def read32 : Reader UInt32 := fun bytes => do
  let (n, rest) ← readGroups 15 5 1 0 bytes
  return (n.toUInt32, rest)

def read64 : Reader Nat := readGroups 1 10 1 0

/-- Reads `count` bytes. -/
def readBytes (count : Nat) : Reader Bytes := fun bytes =>
  let taken := bytes.take count
  if taken.length < count then .error .unexpectedEnd else .ok (taken, bytes.drop count)

def readText : Reader String := fun bytes => do
  let (count, rest) ← read64 bytes
  let (taken, rest) ← readBytes count rest
  match String.fromUTF8? ⟨taken.toArray⟩ with
  | some s => return (s, rest)
  | none => .error .badText

/-- Reads `count` items and puts them behind `found`. -/
def readTimes {α : Type} (read : Reader α) : (count : Nat) → Array α → Reader (Array α)
  | 0, found, bytes => .ok (found, bytes)
  | count + 1, found, bytes =>
    match read bytes with
    | .error e => .error e
    | .ok (a, rest) => readTimes read count (found.push a) rest

def readMany {α : Type} (read : Reader α) : Reader (Array α) := fun bytes => do
  let (count, rest) ← read64 bytes
  readTimes read count #[] rest

def readBits : Reader UInt64 := fun bytes => do
  let (taken, rest) ← readBytes 8 bytes
  return (taken.foldr (fun b bits => bits <<< 8 ||| b.toUInt64) 0, rest)

def readBoolean : Reader Bool := fun bytes => do
  let (b, rest) ← readByte bytes
  if b = 0 then return (false, rest)
  else if b = 1 then return (true, rest)
  else .error .badBoolean

def mapReader {α β : Type} (f : α → β) (read : Reader α) : Reader β := fun bytes => do
  let (a, rest) ← read bytes
  return (f a, rest)

def readConstant : Reader Constant := fun bytes => do
  let (variant, rest) ← read32 bytes
  match variant.toNat with
  | 0 => return (.nil, rest)
  | 1 => mapReader .boolean readBoolean rest
  | 2 => mapReader (.integer ∘ unfold) read64 rest
  | 3 => mapReader .float readBits rest
  | 4 => mapReader .string readText rest
  | 5 => mapReader .page read16 rest
  | 6 => mapReader .libraryFunction read16 rest
  | 7 => do
    let (name, rest) ← readText rest
    let (fields, rest) ← readMany readText rest
    return (.shape name fields.toList, rest)
  | _ => .error .badVariant

def readLine : Reader (UInt32 × UInt32) := fun bytes => do
  let (offset, rest) ← read32 bytes
  let (line, rest) ← read32 rest
  return ((offset, line), rest)

def readPage : Reader Page := fun bytes => do
  let (name, rest) ← readText bytes
  let (arity, rest) ← readByte rest
  let (code, rest) ← readMany readByte rest
  let (constants, rest) ← readMany readConstant rest
  let (lines, rest) ← readMany readLine rest
  return (⟨name, arity, code, .ofList constants.toList, lines⟩, rest)

/-- Reads a program; its library functions are not bound. -/
def decode (bytes : Bytes) : Except Error Program := do
  let (pages, rest) ← readMany readPage bytes
  let (names, _) ← readMany readText rest
  return ⟨pages, names.map fun name => ⟨name, none⟩⟩

end ShellVM.Wire
