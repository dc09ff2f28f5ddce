import ShellVM.Compile.Draft
import ShellVM.Expr

/-!
# Constructs

How each construct of the language is put together from the code of its parts. A part is given as
the activity that emits it; a part that is a value leaves exactly one value on the stack.
-/

namespace ShellVM.Emit

/-- Code that leaves no value is followed by nil. -/
def valued (producesValue : Bool) (e : Emit Unit) : Emit Unit := do
  if producesValue then e
  else
    beginScope
    e
    nil
    endScope true

/-- Distinguishes `and` from `or`: the right side runs only if the left one does not settle it. -/
def shortCircuit (o : Op) (left right : Emit Unit) : Emit Unit := do
  left
  let site ← jump o
  pop
  right
  land site
  op .cast [Kind.boolean.tag]

def branch (condition yes no : Emit Unit) : Emit Unit := do
  condition
  let toElse ← jump .popJumpIfNot
  let h ← height
  yes
  let toEnd ← jump .jump
  land toElse
  setHeight h
  no
  land toEnd

/-- Declares one name for the value in a slot, or several for its items. -/
def unpack (names : List String) (slot : Nat) : Emit Unit :=
  match names with
  | [name] => declare name slot
  | names => do
    byte .unpack names.length "unpacked names"
    declareAll names slot

def declaration (names : List String) (value : Emit Unit) : Emit Unit := do
  value
  unpack names ((← height) - 1)

/-- Runs the body of a loop and gives the jumps out of it. -/
def inLoop (start height : Nat) (body : Emit Unit) : Emit (List Nat) := do
  modifyDraft fun d =>
    { d with loops := ⟨start, height, d.regions.length, []⟩ :: d.loops }
  body
  match (← draft).loops with
  | context :: rest =>
    modifyDraft fun d => { d with loops := rest }
    return context.breaks.reverse
  | [] => throw (.internal .noLoop)

def loop (condition body : Emit Unit) : Emit Unit := do
  let h ← height
  let start ← size
  condition
  let exit ← jump .popJumpIfNot
  let breaks ← inLoop start h do
    body
    pop
    jumpBack start
  land exit
  landAll breaks

def each (names : List String) (iterable body : Emit Unit) : Emit Unit := do
  iterable
  op .getIter []
  let h ← height
  let exit ← jump .forIter
  let start := exit - 1
  openRegion .each
  let breaks ← inLoop start h do
    beginScope
    unpack names h
    body
    pop
    endScope false
    jumpBack start
  leaveRegion
  land exit
  landAll breaks
  op .endFor []

/-- Closes what was opened since the body of the innermost loop started, and gives that loop. -/
def unwindToLoop (keyword : String) : Emit LoopContext := do
  match (← draft).loops with
  | [] => throw (.outsideLoop keyword)
  | context :: _ =>
    closeRegions context.regions
    let extra := (← height) - context.height
    if 0 < extra then byte .popN extra "local variables"
    return context

def addBreak (site : Nat) (d : Draft) : Draft :=
  match d.loops with
  | [] => d
  | context :: rest => { d with loops := { context with breaks := site :: context.breaks } :: rest }

def leaveLoop : Emit Unit := do
  let h ← height
  let _ ← unwindToLoop "break"
  let site ← jump .jump
  modifyDraft (addBreak site)
  setHeight h

def nextRound : Emit Unit := do
  let h ← height
  let context ← unwindToLoop "continue"
  jumpBack context.start
  setHeight h

def leavePage (value : Emit Unit) : Emit Unit := do
  let h ← height
  value
  closeRegions 0
  let below := (← height) - 1
  if 0 < below then byte .unwind below "local variables"
  op .ret []
  setHeight h

/-- The constructs that take differences of heights. What becomes of a difference that would be negative is left
open. -/
structure Differences where
  declaration : List String → Emit Unit → Emit Unit
  leaveLoop : Emit Unit
  nextRound : Emit Unit
  leavePage : Emit Unit → Emit Unit

/-- A difference that would be negative is zero. -/
def Differences.plain : Differences := ⟨Emit.declaration, Emit.leaveLoop, Emit.nextRound, Emit.leavePage⟩

/-- The machine pushes the error before it goes on with the handler. -/
def attempt (body : Emit Unit) (binding? : Option String) (handler : Emit Unit) : Emit Unit := do
  let h ← height
  let toHandler ← jump .enterTry
  openRegion .attempt
  body
  leaveRegion
  op .endTry []
  let toEnd ← jump .jump
  land toHandler
  setHeight (h + 1)
  match binding? with
  | some name =>
    beginScope
    declare name h
    handler
    endScope true
  | none =>
    pop
    handler
  land toEnd

/-- The draft of the page of a function or a closure. -/
def pageDraft (name : String) (parameters captures captured : List String) : Draft :=
  { Draft.new (.empty name parameters.length.toUInt8) false with captures, captured }

/-- The body of a page. Parameters are the first locals. -/
def pageBody (parameters : List String) (body : Emit Unit) : Emit Unit := do
  declareAll parameters 0
  setHeight parameters.length
  body
  if !parameters.isEmpty then byte .unwind parameters.length "parameters"

/-- Emits a body into a page of its own, where captures are reached through the environment of the closure. Whatever
becomes of the body, the compiler goes on with the page that it had. -/
def page (name : String) (parameters captures captured : List String) (body : Emit Unit) :
    Emit Page := do
  if 255 < parameters.length then
    throw (.tooManyOperands "parameters" parameters.length 255)
  beginPage (pageDraft name parameters captures captured)
  Prod.snd <$> tryFinally' (pageBody parameters body) fun _ => endPage

/-- Compiles a function into its page. A function that is defined again keeps its page and the name
of it, so that what refers to it stays valid. -/
def define (id : Nat) (body : Emit Page) : Emit Unit := do
  let index ← functionPage id
  let page ← body
  if (← get).defined.contains id then replacePage index page
  else
    modify fun s => { s with defined := id :: s.defined }
    install index page

def capture (name : String) : Emit Unit := do
  match ← resolve name with
  | .cell slot => op .captureLocal [slot]
  | .capture i => op .captureOuter [i]
  | .slot _ => throw (.internal (.notBoxed name))

def captureAll : List String → Emit Unit
  | [] => pure ()
  | name :: rest => do
    capture name
    captureAll rest

def closure (captures : List String) (body : Emit Page) : Emit Unit := do
  captureAll captures
  if 255 < captures.length then throw (.tooManyOperands "captures" captures.length 255)
  let index ← reservePage "<closure>"
  let page ← body
  install index page
  let key ← constantKey (.page index)
  op .makeClosure (wordBytes key ++ [captures.length.toUInt8])

/-! ## Calls -/

/-- A number of arguments, which has to fit into a byte. -/
def argumentCount (count : Nat) : Emit UInt8 := do
  if 255 < count then throw (.tooManyOperands "arguments" count 255)
  return count.toUInt8

/-- Picks the variant of a call: in root position it is a root call in an entry page, and elsewhere
it depends on how the page was called. -/
def callOp (root : Bool) (plain rooted inherited : Op) : Emit Op := do
  if root then
    if (← get).draft.isEntry then return rooted else return inherited
  else return plain

/-- The callee is on the stack already. -/
def call (root : Bool) (count : Nat) (arguments : Emit Unit) : Emit Unit := do
  arguments
  let o ← callOp root .call .rootCall .maybeRootCall
  op o [← argumentCount count]

def libraryCall (f : LibraryFunction) (count : Nat) (arguments : Emit Unit) : Emit Unit := do
  let index ← libraryIndex f
  let key ← constantKey (.libraryFunction index)
  arguments
  op .callStd (wordBytes key ++ [← argumentCount count])

def programFlags (settings : ProgramSettings) : CallFlags :=
  CallFlags.none.withIf .stdout settings.captureOutput
    |>.withIf .stderr settings.captureErrors
    |>.withIf .unbuffered settings.unbuffered
    |>.withIf .autostart settings.autostart
    |>.withIf .background settings.background

/-- The operands go onto the stack in this order: name, arguments, piped value, environment. -/
def programCall (settings : ProgramSettings) (root : Bool) (count pairs : Nat)
    (name arguments : Emit Unit) (piped? : Option (Emit Unit)) (environment : Emit Unit) :
    Emit Unit := do
  name
  arguments
  let flags := (programFlags settings).withIf .piped piped?.isSome
  piped?.getD (pure ())
  environment
  if 255 < pairs then throw (.tooManyOperands "environment variables" pairs 255)
  let o ← callOp root .callProgram .rootCallProgram .maybeRootCallProgram
  op o ([← argumentCount count] ++ wordBytes flags.bits ++ [pairs.toUInt8])

end ShellVM.Emit
