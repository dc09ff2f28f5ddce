import ShellVM.Compile.Compiler

/-!
# The definitions in an expression

An entry may define functions anywhere in it, also inside the bodies of functions and closures. `Expr.definitions` is
the row of all of them, in the order in which their pages are completed: what is defined inside a body comes before the
definition that the body belongs to.
-/

namespace ShellVM

/-- The definition of a function. -/
structure Definition where
  id : Nat
  name : String
  parameters : List String
  body : Expr

/-- What emits the page of a definition. -/
def Definition.page (d : Definition) : Emit Page :=
  Emit.page d.name d.parameters [] d.body.captured d.body.emitValue

mutual

/-- The definitions in an expression, the last one to be compiled at the end. -/
def Expr.definitions : Expr → List Definition
  | .mk _ node => node.definitions

def Node.definitions : Node → List Definition
  | .literal _ | .variable _ | .break | .continue => []
  | .interpolation items | .list items | .tuple items | .set items | .block items => definitionsIn items
  | .dictionary entries => definitionsInEntries entries
  | .range first? last? _ => definitionsIn? first? ++ definitionsIn? last?
  | .struct _ fields => definitionsInFields fields
  | .declare _ value => value.definitions
  | .assign (.mk _ target) value =>
    match target with
    | .index container index => value.definitions ++ (container.definitions ++ index.definitions)
    | .field container _ => value.definitions ++ container.definitions
    | _ => value.definitions
  | .binary _ left right => left.definitions ++ right.definitions
  | .unary _ operand => operand.definitions
  | .cast value _ => value.definitions
  | .index target index => target.definitions ++ index.definitions
  | .field target _ => target.definitions
  | .branch condition yes no? => condition.definitions ++ (yes.definitions ++ definitionsIn? no?)
  | .loop condition body => condition.definitions ++ body.definitions
  | .each _ iterable body => iterable.definitions ++ body.definitions
  | .return value? => definitionsIn? value?
  | .attempt body _ handler => body.definitions ++ handler.definitions
  | .define id name parameters body => body.definitions ++ [⟨id, name, parameters, body⟩]
  | .closure _ _ body => body.definitions
  | .call target arguments _ => target.definitions (definitionsIn arguments)

/-- The definitions in a call, given those in its arguments. -/
def Target.definitions : Target → List Definition → List Definition
  | .function _, arguments => arguments
  | .value callee, arguments => callee.definitions ++ arguments
  | .library _, arguments => arguments
  | .program name piped? environment _, arguments =>
    name.definitions ++ (arguments ++ (definitionsIn? piped? ++ definitionsInFields environment))

def definitionsIn? : Option Expr → List Definition
  | none => []
  | some e => e.definitions

def definitionsIn : List Expr → List Definition
  | [] => []
  | e :: rest => e.definitions ++ definitionsIn rest

def definitionsInEntries : List (Expr × Expr) → List Definition
  | [] => []
  | (k, v) :: rest => k.definitions ++ (v.definitions ++ definitionsInEntries rest)

def definitionsInFields : List (String × Expr) → List Definition
  | [] => []
  | (_, v) :: rest => v.definitions ++ definitionsInFields rest

end

end ShellVM
