import ShellVM.Job.Stream

/-!
# Process handles

The owner of a process. Any number of clients share a handle; each of their operations is a critical
section, which nobody interrupts and which asks the system at most once about the process. Waiting
for the end of the process is a row of such sections (`Handle.look`), between which the others get
their turn. Whoever first sees the process end records how, and disposes of it; the rest read the
record.
-/

namespace ShellVM

/-- What the system says about a process that is asked for. -/
inductive Poll where
  | running
  | exited (exit : Exit)
  | failed (message : String)

/-- What the system says when a process is to be killed. -/
inductive Kill where
  | done
  /-- The process has ended, but nobody has asked for it since. -/
  | ended
  | failed (message : String)

/-- The answers that the system has ready at one moment. -/
structure Answers where
  poll : Poll
  kill : Kill

inductive Request where
  | poll
  | kill
deriving DecidableEq

structure Handle where
  program : String
  /-- The process, until its end is recorded. -/
  child? : Option Child
  exit? : Option Exit
  /-- How often the process was disposed of. -/
  disposals : Nat

/-- A critical section of a handle: it ends at once, or makes one request and goes on by the
answer. -/
inductive Section (α : Type) where
  | plain (result : α) (after : Handle)
  | polls (next : Poll → α × Handle)
  | kills (next : Kill → α × Handle)

namespace Section

variable {α : Type}

/-- What a section comes to and the handle it leaves. -/
def run (answers : Answers) : Section α → α × Handle
  | plain result after => (result, after)
  | polls next => next answers.poll
  | kills next => next answers.kill

/-- The section with its result seen another way. -/
def map {β : Type} (f : α → β) : Section α → Section β
  | plain result after => .plain (f result) after
  | polls next => .polls fun answer => (f (next answer).1, (next answer).2)
  | kills next => .kills fun answer => (f (next answer).1, (next answer).2)

/-- What a section asks of the system. -/
def requests : Section α → List Request
  | plain .. => []
  | polls _ => [.poll]
  | kills _ => [.kill]

end Section

namespace Handle

def ofChild (program : String) (child : Child) : Handle := ⟨program, some child, none, 0⟩

/-- What one look of a waiting client comes to. -/
inductive Look where
  | ended (exit : Exit)
  | again
  | failed (cause : Cause)

/-- One look of a waiting client. The system is asked only while nothing is recorded. -/
def look (h : Handle) : Section Look :=
  match h.exit?, h.child? with
  | some exit, _ => .plain (.ended exit) h
  | none, none => .plain (.failed (.internal (.noProcess h.program))) h
  | none, some _ => .polls fun
    | .running => (.again, h)
    | .failed message => (.failed (.io message), h)
    | .exited exit =>
      (.ended exit, { h with child? := none, exit? := some exit, disposals := h.disposals + 1 })

/-- How the process ended, if that is recorded. -/
def exit (h : Handle) : Section (Option Exit) := .plain h.exit? h

def isRunning (h : Handle) : Bool := h.exit?.isNone

def running (h : Handle) : Section Bool := .plain h.isRunning h

/-- Kills the process, if it is still there. That it has ended by itself is as good. -/
def halt (h : Handle) : Section (Except Cause Unit) :=
  match h.child? with
  | none => .plain (.ok ()) h
  | some child => .kills fun
    | .done => (.ok (), { h with child? := some child.kill })
    | .ended => (.ok (), h)
    | .failed message => (.error (.io message), h)

/-! ## A handle with a single client -/

/-- What the system says in the end, when it does as it is told. -/
def answers (h : Handle) : Answers := ⟨(h.child?.map (Poll.exited ·.exit)).getD .running, .done⟩

/-- Waits for the end of the process. -/
def close (h : Handle) : Look × Handle := h.look.run h.answers

def stop (h : Handle) : Handle := (h.halt.run h.answers).2

end Handle

end ShellVM
