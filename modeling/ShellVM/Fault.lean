import ShellVM.Value.Basic
import ShellVM.Value.Operation
import ShellVM.Bytecode.Op

/-!
# Faults

What can go wrong while a program runs. A `Cause` is what happened and `Cause.message` is its
wording; a `Fault` adds the places where the program was. Every cause can be caught by the program
itself except a `Breach`, a broken rule of the machine.
-/

namespace ShellVM

/-- The limits that keep a run from going on for ever. -/
inductive Limit where
  | step
  | stackSize
  | callDepth
  | repeatedLength
deriving DecidableEq

def Limit.name : Limit → String
  | .step => "step"
  | .stackSize => "stack size"
  | .callDepth => "call depth"
  | .repeatedLength => "repeated length"

/-- A broken rule of the machine: something that code made by the compiler does not do. -/
inductive Breach where
  | noFrame
  | stackUnderflow
  | slotOffStack (slot : Nat)
  | slotNotBoxed (slot : Nat)
  | captureOutsideClosure
  | captureOutOfRange
  | constantOutOfRange (key : Nat)
  | libraryOutOfRange (index : Nat)
  | noEntryPage (index : Nat)
  | noPage (index : Nat)
  | shapeAsValue
  | buildWithoutShape
  | closureWithoutPage
  | closureWithoutCaptures
  | nextWithoutIterator
  | endWithoutIterator
  | callWithoutFunction
  | tryWithoutTarget
  | endWithoutTry
  | jumpBeforeStart (offset : Nat)
  | unknownKind (tag : Nat)
  | unknownOpcode (byte offset : Nat)
  | truncated (op : Op) (offset : Nat)
  | notArithmetic (op : BinaryOp)
  | noExit (program : String)
  | noProcess (program : String)
deriving DecidableEq

/-- Two hexadecimal digits. -/
def hexByte (n : Nat) : String :=
  String.ofList [Nat.digitChar (n / 16 % 16), Nat.digitChar (n % 16)]

def Breach.message : Breach → String
  | .noFrame => "no active frame"
  | .stackUnderflow => "operand stack underflow"
  | .slotOffStack slot => "local slot " ++ slot.repr ++ " is not on the stack"
  | .slotNotBoxed slot => "local slot " ++ slot.repr ++ " is not boxed"
  | .captureOutsideClosure => "capture access outside a closure"
  | .captureOutOfRange => "capture index out of range"
  | .constantOutOfRange key => "constant " ++ key.repr ++ " out of range"
  | .libraryOutOfRange index => "library index " ++ index.repr ++ " out of range"
  | .noEntryPage index => "entry page " ++ index.repr ++ " does not exist"
  | .noPage index => "page " ++ index.repr ++ " does not exist"
  | .shapeAsValue => "struct shape used as a value"
  | .buildWithoutShape => "BuildStruct without a struct shape"
  | .closureWithoutPage => "MakeClosure without a page"
  | .closureWithoutCaptures => "MakeClosure without its captures"
  | .nextWithoutIterator => "ForIter without an iterator"
  | .endWithoutIterator => "EndFor without an iterator"
  | .callWithoutFunction => "CallStd without a library function"
  | .tryWithoutTarget => "Try without a target"
  | .endWithoutTry => "EndTry without a try region"
  | .jumpBeforeStart offset => "jump before page start at " ++ offset.repr
  | .unknownKind tag => "unknown type tag " ++ tag.repr
  | .unknownOpcode byte offset => "unknown opcode 0x" ++ hexByte byte ++ " at " ++ offset.repr
  | .truncated op offset => "truncated " ++ op.name ++ " instruction at " ++ offset.repr
  | .notArithmetic op => "'" ++ op.symbol ++ "' is not an arithmetic operator"
  | .noExit program => "process '" ++ program ++ "' finished without an exit status"
  | .noProcess program => "process handle for '" ++ program ++ "' has neither a child nor an exit"

inductive Cause where
  | cast (source : Kind) (target : String)
  | invalidBinary (op : BinaryOp) (left right : Kind)
  | invalidUnary (op : UnaryOp) (operand : Kind)
  | notIndexable (kind : Kind)
  | immutable (kind : Kind)
  | indexOutOfRange (index : Int64) (length : Nat)
  | fieldNotFound (name field : String)
  | unhashable (kind : Kind)
  | notIterable (kind : Kind)
  | notCallable (kind : Kind)
  | argumentCount (name expected : String) (got : Nat)
  | divisionByZero
  | integerOverflow (operation : String)
  | infiniteRange
  | unpack (expected got : Nat)
  | limitExceeded (limit : Limit) (max : Nat)
  | programNotFound (program : String)
  | nonZeroExit (program : String) (code : Int)
  | signal (program signal : String)
  | io (message : String)
  | custom (message : String)
  | internal (breach : Breach)
deriving DecidableEq

namespace Cause

def renderInt (n : Int) : String := if n < 0 then "-" ++ n.natAbs.repr else n.natAbs.repr

def message : Cause → String
  | cast source target => "cannot cast " ++ source.name ++ " to " ++ target
  | invalidBinary op left right =>
    "cannot apply '" ++ op.symbol ++ "' to " ++ left.name ++ " and " ++ right.name
  | invalidUnary op operand => "cannot apply '" ++ op.symbol ++ "' to " ++ operand.name
  | notIndexable kind => "unable to index " ++ kind.name
  | immutable kind => kind.name ++ " is immutable and cannot be assigned to by index"
  | indexOutOfRange index length =>
    "index " ++ Word.render index ++ " is out of range for length " ++ length.repr
  | fieldNotFound name field => "no field '" ++ field ++ "' on struct " ++ name
  | unhashable kind => kind.name ++ " is not hashable"
  | notIterable kind => kind.name ++ " is not iterable"
  | notCallable kind => kind.name ++ " is not callable"
  | argumentCount name expected got =>
    name ++ " expects " ++ expected ++ " argument(s), got " ++ got.repr
  | divisionByZero => "division by zero"
  | integerOverflow operation => "integer overflow in '" ++ operation ++ "'"
  | infiniteRange => "range has no end and cannot be collected"
  | unpack expected got =>
    "expected " ++ expected.repr ++ " values to unpack, got " ++ got.repr
  | limitExceeded limit max => limit.name ++ " limit of " ++ max.repr ++ " exceeded"
  | programNotFound program => "program not found: " ++ program
  | nonZeroExit program code =>
    "program '" ++ program ++ "' returned a non-zero exit code (" ++ renderInt code ++ ")"
  | signal program name => "program '" ++ program ++ "' was terminated by " ++ name
  | io message => "i/o error: " ++ message
  | custom message => message
  | internal breach => "internal error: " ++ breach.message

/-- A program can catch everything but a broken rule of the machine. -/
def isCatchable : Cause → Bool
  | internal _ => false
  | _ => true

end Cause

/-- A cause and the places where the program was, innermost first. -/
structure Fault where
  cause : Cause
  trace : List CallSite
deriving DecidableEq

namespace Fault

/-- A cause whose place is not known yet. -/
def ofCause (cause : Cause) : Fault := ⟨cause, []⟩

def ofBreach (breach : Breach) : Fault := ofCause (.internal breach)

/-- Fills in the trace of a fault that has none yet. -/
def withTrace (fault : Fault) (trace : List CallSite) : Fault :=
  if fault.trace.isEmpty then { fault with trace } else fault

/-- The lines of a trace, numbered from `i`. -/
def renderTrace : (i : Nat) → List CallSite → String
  | _, [] => ""
  | i, site :: rest => "\n    " ++ i.repr ++ ": " ++ site.render ++ renderTrace (i + 1) rest

def render (fault : Fault) : String :=
  "runtime error: " ++ fault.cause.message ++
    if fault.trace.isEmpty then "" else "\n  call stack:" ++ renderTrace 0 fault.trace

end Fault

end ShellVM
