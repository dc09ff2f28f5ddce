import ShellVM.Files
import ShellVM.Job.Exit
import ShellVM.Job.Shell.Command

/-!
# Sessions

The state of a process and of those that it starts: what its descriptors lead to, what is left of
its input, what it has written, and, for a shell, its variables and how it goes on. All texts here
are rows of bytes.
-/

namespace ShellVM.Shell

/-- What a descriptor leads to. -/
inductive Channel where
  /-- One of the inputs. -/
  | source (i : Nat)
  /-- One of the outputs. -/
  | sink (i : Nat)
  /-- The end of a file. -/
  | file (place : Place)
  /-- A directory, from which nothing can be read. -/
  | directory
  | null
deriving DecidableEq

structure Variable where
  value? : Option String := none
  exported : Bool := false
  readOnly : Bool := false

/-- How commands are left early. -/
inductive Leaving where
  | break (levels : Nat)
  | continue (levels : Nat)
  | return
deriving DecidableEq

structure Options where
  /-- A command that fails ends the shell. -/
  exitOnError : Bool := false
  /-- A variable without a value is a mistake. -/
  unsetIsError : Bool := false
  /-- Commands are shown before they run. -/
  trace : Bool := false
  /-- Words are no patterns of files. -/
  noPatterns : Bool := false

structure Session where
  files : Files
  sources : Array (List Char)
  sinks : Array ByteArray
  descriptors : List (Nat × Channel)
  /-- The output before the first sleep. -/
  beforeSleep? : Option ByteArray := none
  bindings : List (String × Variable) := []
  functions : List (String × Command) := []
  arguments : List String := []
  name : String
  options : Options := {}
  /-- What to run at a signal or at the end, by the number of the signal or 0. -/
  traps : List (Nat × String) := []
  line : Nat := 1
  /-- The command of the shell that is running. -/
  running? : Option String := none
  status : Int := 0
  /-- How the last commands whose output was put into a word ended. -/
  outputStatus : Int := 0
  /-- Is the end of the command looked at, so that a failure does not end the shell? -/
  tested : Bool := false
  loops : Nat := 0
  calls : Nat := 0
  /-- The variables that belong to the function that is running. -/
  locals : List String := []
  /-- How the shell ended, once it has. -/
  ended? : Option Exit := none
  leaving? : Option Leaving := none

namespace Session

/-- Does the shell go on with the next command? -/
def goesOn (s : Session) : Bool := s.ended?.isNone && s.leaving?.isNone

def finish (s : Session) (status : Int) : Session := { s with status }

/-- Ends the shell. -/
def leave (s : Session) (code : Int) : Session := { s with status := code, ended? := some (.ofCode code) }

/-! ## Descriptors -/

def channel? (s : Session) (fd : Nat) : Option Channel := s.descriptors.lookup fd

def setChannel (s : Session) (fd : Nat) (channel? : Option Channel) : Session :=
  let others := s.descriptors.filter (·.1 != fd)
  { s with descriptors := match channel? with
    | some c => (fd, c) :: others
    | none => others }

/-- Writes to a descriptor. -/
def put (s : Session) (fd : Nat) (text : String) : Session :=
  match s.channel? fd with
  | some (.sink i) => { s with sinks := s.sinks.modify i (· ++ Raw.toBytes text) }
  | some (.file place) => { s with files := s.files.append place (Raw.toBytes text) }
  | _ => s

/-- What can still be read from the input. -/
def pending (s : Session) : List Char :=
  match s.channel? 0 with
  | some (.source i) => s.sources.getD i []
  | _ => []

def setPending (s : Session) (rest : List Char) : Session :=
  match s.channel? 0 with
  | some (.source i) => { s with sources := s.sources.setIfInBounds i rest }
  | _ => s

/-- A new input. -/
def addSource (s : Session) (contents : List Char) : Channel × Session :=
  (.source s.sources.size, { s with sources := s.sources.push contents })

/-- A new output. -/
def addSink (s : Session) : Nat × Session := (s.sinks.size, { s with sinks := s.sinks.push .empty })

/-! ## Messages -/

/-- The start of a message: the name of the shell, the line and the command that is running. -/
def heading (s : Session) : String :=
  s.name ++ ": " ++ s.line.repr ++ ": " ++ (s.running?.elim "" (· ++ ": "))

def warn (s : Session) (message : String) : Session := s.put 2 (s.heading ++ message ++ "\n")

/-- Ends the shell with a message. -/
def abort (s : Session) (message : String) : Session := (s.warn message).leave 2

/-! ## Variables -/

def binding (s : Session) (name : String) : Variable := (s.bindings.lookup name).getD {}

def lookup? (s : Session) (name : String) : Option String := (s.binding name).value?

def lookup (s : Session) (name : String) : String := (s.lookup? name).getD ""

def bind (s : Session) (name : String) (v : Variable) : Session :=
  { s with bindings := (name, v) :: s.bindings.filter (·.1 != name) }

/-- Assigns a value, unless the variable is read-only. -/
def assign (s : Session) (name value : String) : Session :=
  let v := s.binding name
  if v.readOnly then s.abort (name ++ ": is read only") else s.bind name { v with value? := some value }

/-- The variables that programs see. -/
def environment (s : Session) : List (String × String) :=
  s.bindings.filterMap fun (name, v) => if v.exported then v.value?.map ((name, ·)) else none

/-! ## Shells within shells -/

/-- The state of a shell that goes on after another one that was split off from it: what that one
wrote, read and changed in files counts, and nothing else. -/
def resume (outer inner : Session) : Session :=
  { outer with
    files := inner.files, sources := inner.sources, sinks := inner.sinks
    beforeSleep? := inner.beforeSleep? }

/-- How a process ended, as a status. -/
def statusOf (e : Exit) : Int := e.code?.getD (128 + e.signal?.getD 0)

/-- The status of a shell that has come to its end. -/
def finalStatus (s : Session) : Int := (s.ended?.map statusOf).getD s.status

/-- Goes on after a part of the shell that ran on its own. A signal to the shell ends both. -/
def rejoin (outer inner : Session) : Session :=
  let s := { outer.resume inner with status := inner.finalStatus }
  match inner.ended? with
  | some e => if e.signal?.isSome then { s with ended? := some e } else s
  | none => s

end Session

end ShellVM.Shell
