import ShellVM.Bytecode.Listing
import ShellVM.Bytecode.Wire
import ShellVM.Machine.Run

/-!
# The command line

Runs a stored program, or lists it, or gives its statistics. `Cli.request` reads the arguments and
`Cli.answer` does the work, on the files that it is given.
-/

namespace ShellVM.Cli

/-! ## Paths of programs -/

/-- The parts of a path between slashes; empty parts and single dots say nothing. -/
def components (path : String) : List String :=
  (path.splitOn "/").filter fun part => part != "" && part != "."

/-- What follows the last dot of a file's name, unless the name begins with that dot. -/
def extension? (path : String) : Option String := do
  let name ← (components path).getLast?
  if name == ".." then failure
  match (name.splitOn ".").reverse with
  | last :: second :: rest => if rest.isEmpty && second == "" then failure else return last
  | _ => failure

/-! ## Commands -/

/-- What a command leaves behind. -/
structure Outcome where
  exit : UInt8
  output : ByteArray
  errors : ByteArray

def Outcome.ofText (exit : UInt8) (output errors : String) : Outcome := ⟨exit, output.toUTF8, errors.toUTF8⟩

/-- What the arguments ask for. -/
structure Request where
  file : String
  listing : Bool
  statistics : Bool
  maxSteps? : Option String

def usage : String :=
  "ELK VM - bytecode executor for compiled elk scripts\n\n" ++
  "Usage:\n" ++
  "  elk-vm <file.elkc>                 Run a compiled program\n" ++
  "  elk-vm --dis <file.elkc>           Disassemble every page\n" ++
  "  elk-vm --stats <file.elkc>         Show bytecode statistics\n" ++
  "  elk-vm --max-steps <n> <file>      Abort after n instructions\n" ++
  "  elk-vm --help, -h                  Show this help\n\n" ++
  "Set RUST_LOG (e.g. RUST_LOG=elk_vm=debug) to enable logging.\n"

def failed (message : String) : Outcome := .ofText 1 "" (message ++ "\n")

/-- The argument behind the first occurrence of a flag. -/
def flagValue? (flag : String) : List String → Option String
  | a :: rest => if a == flag then rest.head? else flagValue? flag rest
  | [] => none

/-- Reads the arguments. The file is the first that is neither a flag nor equal to the value of the
step limit; wherever help is asked for, there is nothing else to do. -/
def request (arguments : List String) : Except Outcome Request := do
  if arguments.contains "--help" || arguments.contains "-h" then throw (.ofText 0 usage "")
  let maxSteps? := flagValue? "--max-steps" arguments
  match arguments.find? fun a => some a != maxSteps? && !a.startsWith "-" with
  | none => throw (.ofText 1 usage "")
  | some file =>
    if extension? file != some "elkc" then
      throw (failed ("Error: expected a .elkc file, got " ++ file))
    return ⟨file, arguments.contains "--dis", arguments.contains "--stats", maxSteps?⟩

/-- A number of steps: digits, with an optional plus, that fit into 64 bits. -/
def readCount? (s : String) : Option Nat :=
  let digits := match s.toList with
    | '+' :: rest => rest
    | cs => cs
  if digits.isEmpty || !digits.all Char.isDigit then none
  else
    let n := Number.digitsValue digits
    if n < 18446744073709551616 then some n else none

/-- More turns than any run can take. -/
def endless : Nat := 1000000000000000000

/-- Runs a program from its first page. -/
def execute (files : Files) (program : Program) (limits : Limits) : Outcome :=
  match program.execute limits 0 endless { files } with
  | .ok _ w => ⟨0, w.terminal, w.errors⟩
  | .error fault w => ⟨1, w.terminal, w.errors ++ (fault.render ++ "\n").toUTF8⟩

/-- Binds a program and runs it. -/
def start (files : Files) (program : Program) (maxSteps? : Option String) : Outcome :=
  match program.bind .standard with
  | (_, some cause) => failed ("Link error: " ++ (Fault.ofCause cause).render)
  | (program, none) =>
    match maxSteps? with
    | none => execute files program {}
    | some s =>
      match readCount? s with
      | some max => execute files program { steps? := some max }
      | none => failed ("Error: --max-steps expects a number, got " ++ s)

/-- Carries out a request, given the contents of the file or why there are none. -/
def answer (files : Files) (r : Request) (contents : Except String ByteArray) : Outcome :=
  match contents with
  | .error reason => failed ("Failed to read '" ++ r.file ++ "': " ++ reason)
  | .ok bytes =>
    match Wire.decode bytes.toList with
    | .error e => failed ("Failed to decode '" ++ r.file ++ "': " ++ e.message)
    | .ok program =>
      if r.listing || r.statistics then
        .ofText 0 ((if r.listing then Listing.program program else "") ++
          (if r.statistics then Listing.statistics program else "")) ""
      else start files program r.maxSteps?

/-- Carries out a command. -/
def run (files : Files) (arguments : List String) : Outcome :=
  match request arguments with
  | .error outcome => outcome
  | .ok r => answer files r ((files.read (Raw.ofText r.file)).mapError Refusal.message)

end ShellVM.Cli
