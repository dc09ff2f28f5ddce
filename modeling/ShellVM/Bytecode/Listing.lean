import ShellVM.Bytecode.Instruction
import ShellVM.Bytecode.Program
import ShellVM.Number.Layout

/-!
# Listings

Programs in a form for people: every page instruction by instruction with source lines and marked
jump targets, and the statistics of a program.
-/

namespace ShellVM.Listing

def padLeft (width : Nat) (fill : Char) (s : String) : String :=
  "".pushn fill (width - s.length) ++ s

def padRight (width : Nat) (s : String) : String := s.pushn ' ' (width - s.length)

def trimRight (s : String) : String :=
  String.ofList (s.toList.reverse.dropWhile (· == ' ')).reverse

/-- Capital letters with an underscore before each but the first: `FOR_ITER`. -/
def opName (op : Op) : String :=
  match op.name.toList with
  | [] => ""
  | first :: rest =>
    rest.foldl (fun s c => if c.isUpper then (s.push '_').push c else s.push c.toUpper)
      first.toUpper.toString

def offsetText (n : Nat) : String := padLeft 4 '0' n.repr

def constantText (page : Page) (key : UInt16) : String :=
  match page.constants.get? key with
  | some c => c.render
  | none => "<missing constant " ++ key.toNat.repr ++ ">"

/-- How a library call names its function: by name if the program is at hand. -/
def functionText (page : Page) (program? : Option Program) (key : UInt16) : String :=
  match page.constants.get? key, program? with
  | some (.libraryFunction index), some program =>
    match program.library[index.toNat]? with
    | some entry => entry.name
    | none => constantText page key
  | _, _ => constantText page key

def jumpText (i : Instruction) : String :=
  let distance := (i.word 0).toNat.repr
  let target := (i.target?.map offsetText).getD "????"
  if i.op = .jumpBackward then "-" ++ distance ++ " ↑ (→ " ++ target ++ ")"
  else "+" ++ distance ++ " ↓ (→ " ++ target ++ ")"

/-- What stands behind the name of an instruction. -/
def detail (page : Page) (program? : Option Program) (i : Instruction) : String :=
  let byte (n : Nat) : String := (i.byte n).toNat.repr
  match i.op with
  | .const => (i.word 0).toNat.repr ++ " (" ++ constantText page (i.word 0) ++ ")"
  | .popN | .unwind | .unpack => byte 0
  | .load | .store => "slot " ++ byte 0
  | .loadCapture | .storeCapture | .captureOuter => "capture " ++ byte 0
  | .makeCell | .loadCell | .storeCell | .captureLocal => "cell " ++ byte 0
  | .cast =>
    match Kind.ofTag? (i.byte 0) with
    | some k => k.name
    | none => "<bad type " ++ byte 0 ++ ">"
  | .buildList | .buildTuple | .buildDict | .buildSet | .buildString => (i.word 0).toNat.repr
  | .buildStruct => constantText page (i.word 0)
  | .buildRange =>
    let has (flag : UInt8) (s : String) : String := if i.byte 0 &&& flag != 0 then s else ""
    has RangeFlag.hasFirst "from" ++ ".." ++ has RangeFlag.inclusive "=" ++
      has RangeFlag.hasLast "to"
  | .makeClosure => constantText page (i.word 0) ++ " (" ++ byte 2 ++ " captures)"
  | .jump | .jumpBackward | .jumpIf | .jumpIfNot | .popJumpIf | .popJumpIfNot | .forIter
  | .enterTry => jumpText i
  | .call | .rootCall | .maybeRootCall => byte 0 ++ " args"
  | .callStd => functionText page program? (i.word 0) ++ " (" ++ byte 2 ++ " args)"
  | .callProgram | .rootCallProgram | .maybeRootCallProgram =>
    byte 0 ++ " args, " ++ byte 3 ++ " env [" ++
      " ".intercalate (CallFlags.names ⟨i.word 1⟩) ++ "]"
  | _ => ""

def instructionText (page : Page) (program? : Option Program) (i : Instruction) : String :=
  let name := padRight 14 (opName i.op)
  let d := detail page program? i
  if d.isEmpty then trimRight name else name ++ d

/-- Lists the items of a page; `last?` is the line of the item before. -/
def items (page : Page) (program? : Option Program) (isTarget : Nat → Bool) :
    List Decoded → (last? : Option UInt32) → String → String
  | [], _, out => out
  | .error (offset, byte) :: _, _, out =>
    out ++ offsetText offset ++ "   <bad opcode 0x" ++ hexByte byte.toNat ++ ">\n"
  | .ok i :: rest, last?, out =>
    let line? := page.lineAt? i.offset
    let column := match line? with
      | some n => if line? = last? then "   |" else padLeft 4 ' ' n.toNat.repr
      | none => "   |"
    let marked := isTarget i.offset
    let out := if marked then out ++ "      ┌──────────────────────────────────\n" else out
    items page program? isTarget rest line?
      (out ++ offsetText i.offset ++ " " ++ column ++ " " ++ (if marked then "► " else "  ") ++
        instructionText page program? i ++ "\n")

/-- The listing of a page. With the program at hand library functions are named. -/
def page (p : Page) (program? : Option Program) : String :=
  let targets := Std.HashMap.ofList
    (((instructions p.code).filterMap Instruction.target?).map fun t => (t, ()))
  items p program? targets.contains (decodeAll p.code) none ""

def rule : String := "════════════════════════════════════════\n"

def pages (program : Program) : (index : Nat) → List Page → String
  | _, [] => ""
  | index, p :: rest =>
    rule ++ " [" ++ index.repr ++ "] " ++ p.name ++ " (arity " ++ p.arity.toNat.repr ++ ")\n" ++
      " " ++ p.code.size.repr ++ " bytes, " ++ p.constants.size.repr ++ " constants\n" ++ rule ++
      page p (some program) ++ "\n" ++ pages program (index + 1) rest

/-- The listing of a program. -/
def program (p : Program) : String :=
  "=== BYTECODE PROGRAM ===\n\n" ++ pages p 0 p.pages.toList

/-! ## Statistics -/

/-- How often each opcode occurs, the most frequent first; equally frequent ones in the order of
their bytes. -/
def frequencies (p : Program) : List (Op × Nat) :=
  let ops := p.pages.toList.flatMap fun page => (instructions page.code).map Instruction.op
  let counts := ops.foldl (fun (m : Std.HashMap UInt8 Nat) op =>
    m.insert op.toByte (m.getD op.toByte 0 + 1)) ∅
  (Op.all.toList.filterMap fun op => (counts[op.toByte]?).map fun n => (op, n)).mergeSort
    fun a b => b.2 ≤ a.2

def frequencyLine (total : Nat) (entry : Op × Nat) : String :=
  let percent := entry.2.toFloat / total.toFloat * 100.0
  "  " ++ padRight 14 (opName entry.1) ++ " " ++ padLeft 4 ' ' entry.2.repr ++ " (" ++
    padLeft 5 ' ' (Number.fixed 1 percent) ++ "%)\n"

/-- The statistics of a program. -/
def statistics (p : Program) : String :=
  let counts := frequencies p
  let total := counts.foldl (fun n entry => n + entry.2) 0
  let bytes := p.pages.foldl (fun n page => n + page.code.size) 0
  "=== BYTECODE STATISTICS ===\n\n" ++
    "Pages:            " ++ p.pages.size.repr ++ "\n" ++
    "Library entries:  " ++ p.library.size.repr ++ "\n" ++
    "Code bytes:       " ++ bytes.repr ++ "\n\n" ++
    "Op frequency:\n" ++ String.join ((counts.take 10).map (frequencyLine total))

end ShellVM.Listing
