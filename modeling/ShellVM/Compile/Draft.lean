import ShellVM.Bytecode.Program
import ShellVM.Bytecode.Instruction
import ShellVM.Compile.Error

/-!
# Drafts of pages

The page that is being written, with what the compiler knows about the machine at its end: which
locals are in scope, how high the operand stack is, which loops and regions are open. `Emit` is the
activity of writing; `Emit.op` appends an instruction and follows its stack effect.
-/

namespace ShellVM

structure Local where
  name : String
  depth : Nat
  slot : UInt8
  /-- The local lives in a cell because a closure captures it. -/
  boxed : Bool

/-- A stretch of code that has to be closed when control leaves it. -/
inductive Region where
  | attempt
  | each
deriving DecidableEq

def Region.closing : Region → Op
  | .attempt => .endTry
  | .each => .endFor

structure LoopContext where
  /-- Where the loop goes on. -/
  start : Nat
  /-- The height of the stack between two rounds. -/
  height : Nat
  /-- The number of regions that are open when the body starts. -/
  regions : Nat
  /-- The jumps out of the loop that wait for its end, the latest first. -/
  breaks : List Nat

/-- The page at hand. Lists of what is open have the innermost first. -/
structure Draft where
  page : Page
  locals : List Local
  captures : List String
  /-- The names that closures created in this page capture. -/
  captured : List String
  height : Nat
  depth : Nat
  loops : List LoopContext
  regions : List Region
  isEntry : Bool

namespace Draft

def new (page : Page) (isEntry : Bool) : Draft := ⟨page, [], [], [], 0, 0, [], [], isEntry⟩

def size (d : Draft) : Nat := d.page.code.size

def append (d : Draft) (bytes : List UInt8) : Draft :=
  { d with page := { d.page with code := bytes.foldl Array.push d.page.code } }

/-- Writes a word over the two bytes at `site`. -/
def patch (d : Draft) (site : Nat) (w : UInt16) : Draft :=
  { d with page := { d.page with
    code := (d.page.code.setIfInBounds site (w >>> 8).toUInt8).setIfInBounds (site + 1) w.toUInt8 } }

end Draft

/-- Everything the compiler works on. -/
structure Workbench where
  program : Program
  /-- The page reserved for each function that was seen. -/
  functions : List (Nat × UInt16)
  /-- The functions whose definition was compiled. -/
  defined : List Nat
  /-- The pages that definitions in this entry replaced, as they were before, the latest first. -/
  replaced : List (UInt16 × Page)
  draft : Draft
  /-- The drafts of the pages around the one at hand, the innermost first. -/
  enclosing : List Draft

/-- Adds a constant to the page at hand. -/
def Workbench.addConstant (s : Workbench) (c : Constant) : Option UInt16 × Workbench :=
  let (key?, constants) := s.draft.page.constants.add c
  (key?, { s with draft := { s.draft with page := { s.draft.page with constants } } })

abbrev Emit := EStateM CompileError Workbench

namespace Emit

def draft : Emit Draft := do return (← get).draft

def modifyDraft (f : Draft → Draft) : Emit Unit := modify fun s => { s with draft := f s.draft }

def size : Emit Nat := do return (← get).draft.size

def height : Emit Nat := do return (← get).draft.height

def setHeight (height : Nat) : Emit Unit := modifyDraft fun d => { d with height }

/-! ## Instructions -/

def popHeight (count : Nat) : Emit Unit := do
  let s ← get
  if s.draft.height < count then
    throw (.internal (.stackUnderflow s.draft.page.name))
  setHeight (s.draft.height - count)

/-- Appends an instruction and follows its stack effect. -/
def op (o : Op) (operands : List UInt8) : Emit Unit := do
  modifyDraft (·.append (o.toByte :: operands))
  match o.stackEffect? operands with
  | some (pops, pushes) =>
    popHeight pops
    modifyDraft fun d => { d with height := d.height + pushes }
  | none => pure ()

/-- An instruction with a number of things as its operand, which has to fit into a byte. -/
def byte (o : Op) (value : Nat) (what : String) : Emit Unit := do
  if 255 < value then throw (.tooManyOperands what value 255)
  op o [value.toUInt8]

/-- An instruction with a number of things as its operand, which has to fit into a word. -/
def word (o : Op) (value : Nat) (what : String) : Emit Unit := do
  if 65535 < value then throw (.tooManyOperands what value 65535)
  op o (wordBytes value.toUInt16)

/-- The key of a constant of the page. -/
def constantKey (c : Constant) : Emit UInt16 := do
  match ← modifyGet (·.addConstant c) with
  | some key => return key
  | none => throw (.tooManyConstants (← get).draft.page.constants.size)

def constant (c : Constant) : Emit Unit := do op .const (wordBytes (← constantKey c))

def nil : Emit Unit := op .const (wordBytes ConstantTable.nilKey)

def pop : Emit Unit := op .pop []

def markLine (line : UInt32) : Emit Unit :=
  if 0 < line then modifyDraft fun d => { d with page := d.page.markLine line } else pure ()

/-! ## Jumps -/

/-- A jump forward to a place that is not known yet. Gives the place of its distance. -/
def jump (o : Op) : Emit Nat := do
  let offset ← size
  op o [0, 0]
  return offset + 1

/-- The distance of a jump, which has to fit into a word. -/
def distance (n : Nat) : Emit UInt16 := do
  if 65535 < n then throw (.jumpTooFar n (← get).draft.page.name)
  return n.toUInt16

/-- Lets the jump with its distance at `site` go to the end of the code. -/
def land (site : Nat) : Emit Unit := do
  let w ← distance ((← size) - (site + 2))
  modifyDraft (·.patch site w)

def landAll : List Nat → Emit Unit
  | [] => pure ()
  | site :: rest => do
    land site
    landAll rest

def jumpBack (target : Nat) : Emit Unit := do
  let w ← distance ((← size) + 3 - target)
  op .jumpBackward (wordBytes w)

/-! ## Regions and scopes -/

def opAll : List Op → Emit Unit
  | [] => pure ()
  | o :: rest => do
    op o []
    opAll rest

/-- Closes the regions beyond the first `count`, innermost first. -/
def closeRegions (count : Nat) : Emit Unit := do
  let regions := (← get).draft.regions
  opAll ((regions.take (regions.length - count)).map Region.closing)

def openRegion (r : Region) : Emit Unit := modifyDraft fun d => { d with regions := r :: d.regions }

def leaveRegion : Emit Unit := modifyDraft fun d => { d with regions := d.regions.drop 1 }

def beginScope : Emit Unit := modifyDraft fun d => { d with depth := d.depth + 1 }

/-- Drops the locals of the innermost scope; with `keepValue` the value on top of them stays. -/
def endScope (keepValue : Bool) : Emit Unit := do
  let d ← draft
  let count := (d.locals.takeWhile fun l => l.depth == d.depth).length
  modifyDraft fun d => { d with locals := d.locals.drop count, depth := d.depth - 1 }
  if 0 < count then
    byte (if keepValue then .unwind else .popN) count "local variables"

/-- Makes the value in a stack slot a local. A local that closures capture moves into a cell. -/
def declare (name : String) (slot : Nat) : Emit Unit := do
  if 255 < slot then throw (.tooManyLocals (slot + 1))
  let boxed := (← get).draft.captured.contains name
  if boxed then op .makeCell [slot.toUInt8]
  modifyDraft fun d => { d with locals := ⟨name, d.depth, slot.toUInt8, boxed⟩ :: d.locals }

/-- Declares names for the values from a slot on. -/
def declareAll : List String → (slot : Nat) → Emit Unit
  | [], _ => pure ()
  | name :: rest, slot => do
    declare name slot
    declareAll rest (slot + 1)

/-! ## Variables -/

/-- Where a variable lives. -/
inductive Place where
  | slot (slot : UInt8)
  | cell (slot : UInt8)
  | capture (index : UInt8)

/-- The latest local of a name, or else a capture. -/
def resolve (name : String) : Emit Place := do
  let d ← draft
  match d.locals.find? (·.name == name) with
  | some l => return if l.boxed then .cell l.slot else .slot l.slot
  | none =>
    match d.captures.findIdx? (· == name) with
    | some i =>
      if 255 < i then throw (.tooManyOperands "captures" (i + 1) 255)
      return .capture i.toUInt8
    | none => throw (.internal (.unresolvedVariable name))

def load (name : String) : Emit Unit := do
  match ← resolve name with
  | .slot slot => op .load [slot]
  | .cell slot => op .loadCell [slot]
  | .capture i => op .loadCapture [i]

def store : Place → Emit Unit
  | .slot slot => op .store [slot]
  | .cell slot => op .storeCell [slot]
  | .capture i => op .storeCapture [i]

/-! ## Pages -/

/-- Begins the page of an entry. What an earlier one may have left open is forgotten. -/
def beginEntry (d : Draft) : Emit Unit := modify fun s => { s with draft := d, enclosing := [] }

/-- Begins a page inside the one at hand. -/
def beginPage (d : Draft) : Emit Unit := modify fun s => { s with draft := d, enclosing := s.draft :: s.enclosing }

/-- Gives the page at hand, and goes back to the one around it. -/
def endPage : Emit Page := do
  let s ← get
  match s.enclosing with
  | [] => throw (.internal .noPage)
  | outer :: rest =>
    set { s with draft := outer, enclosing := rest }
    return s.draft.page

def reservePage (name : String) : Emit UInt16 := do
  let count := (← get).program.pages.size
  if 65535 < count then throw (.tooManyOperands "pages" (count + 1) 65535)
  modify fun s => { s with program := { s.program with pages := s.program.pages.push (.empty name 0) } }
  return count.toUInt16

/-- The page of a function, which is reserved when the function is first seen. -/
def functionPage (id : Nat) : Emit UInt16 := do
  match (← get).functions.lookup id with
  | some index => return index
  | none =>
    let index ← reservePage ("<function " ++ id.repr ++ ">")
    modify fun s => { s with functions := (id, index) :: s.functions }
    return index

/-- Changes a page that was reserved. -/
def modifyPage (index : UInt16) (f : Page → Page) : Emit Unit := do
  if (← get).program.pages.size ≤ index.toNat then
    throw (.internal (.notReserved index.toNat))
  modify fun s => { s with program := { s.program with pages := s.program.pages.modify index.toNat f } }

def install (index : UInt16) (page : Page) : Emit Unit := modifyPage index fun _ => page

/-- Gives a page the body of another one, and remembers it as it was. -/
def replacePage (index : UInt16) (page : Page) : Emit Unit := do
  match (← get).program.pages[index.toNat]? with
  | none => throw (.internal (.notReserved index.toNat))
  | some old =>
    modify fun s => { s with replaced := (index, old) :: s.replaced }
    modifyPage index (·.replaceBody page)

/-- The place of a library function in the program, to which it is added when first used. -/
def libraryIndex (f : LibraryFunction) : Emit UInt16 := do
  let entries := (← get).program.library
  match entries.findIdx? (fun e => e.function? = some f) with
  | some i =>
    if 65535 < i then throw (.tooManyConstants i)
    return i.toUInt16
  | none =>
    let i := entries.size
    if 65535 < i then throw (.tooManyConstants i)
    modify fun s => { s with program := { s.program with
      library := s.program.library.push ⟨f.name, some f⟩ } }
    return i.toUInt16

end Emit

end ShellVM
