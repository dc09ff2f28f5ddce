/-!
# Compile errors

Why an expression cannot be compiled: it asks for something that has no meaning, or for more than
the code can express. A `Defect` is a rule broken by whoever made the expression, or by the compiler.
-/

namespace ShellVM

inductive Defect where
  | unresolvedVariable (name : String)
  | undefinedFunction (id : Nat)
  | stackUnderflow (page : String)
  | notBoxed (name : String)
  | notReserved (page : Nat)
  | noLoop
  | noPage
deriving DecidableEq

def Defect.message : Defect → String
  | .unresolvedVariable name => "unresolved variable '" ++ name ++ "'"
  | .undefinedFunction id => "function " ++ id.repr ++ " is called but never defined"
  | .stackUnderflow page => "stack underflow in '" ++ page ++ "'"
  | .notBoxed name => "captured variable '" ++ name ++ "' was not boxed"
  | .notReserved page => "page " ++ page.repr ++ " was never reserved"
  | .noLoop => "loop context stack is empty"
  | .noPage => "page builder stack is empty"

inductive CompileError where
  | invalidAssignment (target : String) (line : UInt32)
  | jumpTooFar (distance : Nat) (page : String)
  | tooManyConstants (count : Nat)
  | tooManyOperands (what : String) (count max : Nat)
  | tooManyLocals (count : Nat)
  | outsideLoop (keyword : String)
  | internal (defect : Defect)
deriving DecidableEq

namespace CompileError

def hint? : CompileError → Option String
  | invalidAssignment .. => some "only variables, indexers and field accesses can be assigned to"
  | jumpTooFar .. => some "split the body into smaller functions"
  | tooManyConstants _ => some "a page can hold at most 65536 constants"
  | tooManyLocals _ => some "move part of the body into a separate function"
  | _ => none

def cause : CompileError → String
  | invalidAssignment target line =>
    "invalid assignment to " ++ target ++ " on line " ++ line.toNat.repr
  | jumpTooFar distance page =>
    "jump of " ++ distance.repr ++ " bytes in '" ++ page ++ "' is too far"
  | tooManyConstants count => "too many constants (" ++ count.repr ++ ") in one page"
  | tooManyOperands what count max =>
    "too many " ++ what ++ " (" ++ count.repr ++ ", at most " ++ max.repr ++ ")"
  | tooManyLocals count => "too many local variables (" ++ count.repr ++ ", at most 255)"
  | outsideLoop keyword => "'" ++ keyword ++ "' can only be used inside a loop"
  | internal defect => "internal error: " ++ defect.message

def message (e : CompileError) : String :=
  "compile error: " ++ e.cause ++ (e.hint?.map ("\n  hint: " ++ ·)).getD ""

end CompileError

end ShellVM
