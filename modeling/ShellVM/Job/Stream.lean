import ShellVM.Job.Exit
import ShellVM.Job.Flags

/-!
# Process streams

The output of a process, read line by line as it is asked for. Lines once read are kept. A stream
starts as `pending` (or at once as `running`) and ends as `finished`; the failure of an unsuccessful
process is raised once, by the read that runs past the end of the output.

This module is the protocol of a single stream whose process has started; `World` starts the
pending ones.
-/

namespace ShellVM

/-- What is fed to a process. -/
inductive PipedInput where
  | text (s : String)
  | lines (ls : List String)
  /-- The output of another stream. -/
  | stream (addr : Addr)

/-- Everything that is needed to start one program. -/
structure ProgramCall where
  program : String
  arguments : List String
  environment : List (String × String)
  piped? : Option PipedInput

/-- A started process: the lines still to come and how it will end. -/
structure Child where
  pending : List String
  exit : Exit
  /-- What is left of the pending lines if the process is stopped now, for a process that sleeps
  before it ends. -/
  beforeSleep? : Option (List String)

/-- Stops the process if it still runs. -/
def Child.kill (c : Child) : Child :=
  match c.beforeSleep? with
  | some lines => ⟨lines, .ofSignal 9, none⟩
  | none => c

inductive Source where
  | pending (call : ProgramCall) (withErrors : Bool)
  | running (child : Child)
  | finished (exit? : Option Exit)

structure Stream where
  program : String
  raiseOnExit : Bool
  lines : Array String
  source : Source

namespace Stream

instance : Inhabited Stream := ⟨⟨"", false, #[], .finished none⟩⟩

/-- A stream of fixed lines, without a process. -/
def ofLines (program : String) (lines : List String) : Stream :=
  ⟨program, false, lines.toArray, .finished (some (.ofCode 0))⟩

def isFinished (s : Stream) : Bool :=
  match s.source with
  | .finished _ => true
  | _ => false

/-- The text of the lines if the stream has finished. Does not read. -/
def render (s : Stream) : String :=
  if s.isFinished then "\n".intercalate s.lines.toList else "<process " ++ s.program ++ ">"

/-- Reads one more line; `false` if there is none. Running out of lines finishes the stream, and
raises the failure of the process if the stream does so. -/
def advance (s : Stream) : Except Fault Bool × Stream :=
  match s.source with
  | .running child =>
    match child.pending with
    | line :: rest =>
      (.ok true, { s with
        lines := s.lines.push line
        source := .running { child with
          pending := rest
          beforeSleep? := child.beforeSleep?.map (List.drop 1) } })
    | [] =>
      let done := { s with source := .finished (some child.exit) }
      match if s.raiseOnExit then child.exit.failure? s.program else none with
      | some cause => (.error (.ofCause cause), done)
      | none => (.ok false, done)
  | _ => (.ok false, s)

/-- A bound on the number of reads that are left. -/
def remaining (s : Stream) : Nat :=
  match s.source with
  | .running child => child.pending.length + 1
  | _ => 0

/-- Reads until the line at `index` is there or none is left. -/
def readTo (index : Nat) : (fuel : Nat) → Stream → Except Fault Unit × Stream
  | 0, s => (.ok (), s)
  | fuel + 1, s =>
    if index < s.lines.size then (.ok (), s)
    else
      match s.advance with
      | (.ok true, s) => readTo index fuel s
      | (.ok false, s) => (.ok (), s)
      | (.error fault, s) => (.error fault, s)

/-- Reads all lines. -/
def readAll : (fuel : Nat) → Stream → Except Fault Unit × Stream
  | 0, s => (.ok (), s)
  | fuel + 1, s =>
    match s.advance with
    | (.ok true, s) => readAll fuel s
    | (.ok false, s) => (.ok (), s)
    | (.error fault, s) => (.error fault, s)

/-- The line at `index`; none once the output is exhausted. -/
def pull (s : Stream) (index : Nat) : Except Fault (Option String) × Stream :=
  match readTo index s.remaining s with
  | (.ok (), s) => (.ok s.lines[index]?, s)
  | (.error fault, s) => (.error fault, s)

/-- The whole output. -/
def drain (s : Stream) : Except Fault (List String) × Stream :=
  match readAll s.remaining s with
  | (.ok (), s) => (.ok s.lines.toList, s)
  | (.error fault, s) => (.error fault, s)

/-- Reads the whole output and tells how the process ended, without raising its failure. -/
def wait (s : Stream) : Except Fault Exit × Stream :=
  let s := (readAll s.remaining s).2
  match s.source with
  | .finished (some exit) => (.ok exit, s)
  | _ => (.error (.ofBreach (.noExit s.program)), s)

/-- Kills the process, or cancels it if it has not started yet. -/
def stop (s : Stream) : Stream :=
  match s.source with
  | .pending .. => { s with source := .finished none }
  | .running child => { s with source := .running child.kill }
  | .finished _ => s

end Stream

end ShellVM
