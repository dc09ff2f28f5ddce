import ShellVM.Compile.Expression

/-!
# Compilers

A compiler holds a program that grows entry by entry: each entry gets a page of its own, can call
the functions of earlier entries and can define them anew. What an entry that fails has changed is taken back.
-/

namespace ShellVM

structure Compiler where
  program : Program
  /-- The page of each function. -/
  functions : List (Nat × UInt16)
  /-- The functions whose definition was compiled. -/
  defined : List Nat

namespace Compiler

def new : Compiler := ⟨.empty, [], []⟩

instance : Inhabited Compiler := ⟨new⟩

/-- The name of entry pages. -/
def entryName : String := "<main>"

/-- The draft of an entry page for an expression. -/
def entryDraft (e : Expr) : Draft :=
  { Draft.new (.empty entryName 0) true with captured := e.captured }

/-- A function that is known but has no definition, if there is one. -/
def undefined? (functions : List (Nat × UInt16)) (defined : List Nat) : Option Nat :=
  (functions.map Prod.fst).find? fun id => !defined.contains id

/-- Emits an entry, given the constructs that take differences of heights. Its page comes before those of the
functions and closures in it. -/
def emitEntryWith (x : Emit.Differences) (e : Expr) : Emit UInt16 := do
  let index ← Emit.reservePage entryName
  Emit.beginEntry (entryDraft e)
  Emit.valued e.producesValue (x.expr e)
  let page := (← Emit.draft).page
  Emit.install index page
  let s ← get
  match undefined? s.functions s.defined with
  | some id => throw (.internal (.undefinedFunction id))
  | none => return index

abbrev emitEntry (e : Expr) : Emit UInt16 := emitEntryWith .plain e

/-- The workbench on which the compiler emits. -/
def bench (c : Compiler) (draft : Draft) : Workbench := ⟨c.program, c.functions, c.defined, [], draft, []⟩

end Compiler

/-- The compiler that is left when an entry fails: pages that definitions replaced become what they were, and all that
is beyond the given numbers of pages and of library functions is taken back. -/
def Workbench.rollBack (s : Workbench) (pages library : Nat) : Compiler :=
  let restored := s.replaced.foldl (fun ps r => ps.setIfInBounds r.1.toNat r.2) s.program.pages
  let functions := s.functions.filter fun f => f.2.toNat < pages
  ⟨⟨restored.take pages, s.program.library.take library⟩, functions,
    s.defined.filter fun id => (functions.lookup id).isSome⟩

namespace Compiler

/-- Compiles one more entry, given the constructs that take differences of heights. Gives the index of its page, or
says why it failed, and the compiler after it. -/
def enterWith (x : Emit.Differences) (c : Compiler) (e : Expr) : Except CompileError UInt16 × Compiler :=
  match emitEntryWith x e (c.bench (entryDraft e)) with
  | .ok index s => (.ok index, ⟨s.program, s.functions, s.defined⟩)
  | .error error s => (.error error, s.rollBack c.program.pages.size c.program.library.size)

/-- Compiles one more entry. -/
def enter (c : Compiler) (e : Expr) : Except CompileError UInt16 × Compiler := c.enterWith .plain e

theorem enter_eq (c : Compiler) (e : Expr) : c.enter e =
    match emitEntry e (c.bench (entryDraft e)) with
    | .ok index s => (.ok index, ⟨s.program, s.functions, s.defined⟩)
    | .error error s => (.error error, s.rollBack c.program.pages.size c.program.library.size) := rfl

/-- Compiles one more entry. Gives the index of its page and the compiler after it. -/
def add (c : Compiler) (e : Expr) : Except CompileError (UInt16 × Compiler) :=
  match c.enter e with
  | (.ok index, c) => .ok (index, c)
  | (.error error, _) => .error error

/-- Compiles entries one after the other, and gives what became of each of them. -/
def enterAll (c : Compiler) : List Expr → List (Except CompileError UInt16) × Compiler
  | [] => ([], c)
  | e :: es =>
    let (result, c) := c.enter e
    let (results, c) := enterAll c es
    (result :: results, c)

/-- The compiler after entries one after the other. -/
def addAll (c : Compiler) (es : List Expr) : Compiler := (c.enterAll es).2

end Compiler

/-- Compiles an expression into a program whose entry is page 0. -/
def compile (e : Expr) : Except CompileError Program := do
  let (_, c) ← Compiler.new.add e
  return c.program

end ShellVM
