import ShellVM.Job.Shell.Session
import ShellVM.Number.Reader

/-!
# Signals

Their names, what becomes of a shell that gets one, and what is said of a process that one ended.
-/

namespace ShellVM.Shell

/-- The names of the signals from 1 on. -/
def signalNames : List String :=
  ["HUP", "INT", "QUIT", "ILL", "TRAP", "ABRT", "BUS", "FPE", "KILL", "USR1", "SEGV", "USR2", "PIPE", "ALRM",
    "TERM", "STKFLT", "CHLD", "CONT", "STOP", "TSTP", "TTIN", "TTOU", "URG", "XCPU", "XFSZ", "VTALRM", "PROF",
    "WINCH", "POLL", "PWR", "SYS"]

/-- A signal by its number or name; 0 is the end of the shell. -/
def signal? (s : String) : Option Nat :=
  match s.toList with
  | [] => none
  | cs =>
    if cs.all Char.isDigit then
      let n := Number.digitsValue cs
      if n ≤ 64 then some n else none
    else
      let upper := s.map Char.toUpper
      if upper == "EXIT" then some 0 else (signalNames.findIdx? (· == upper)).map (· + 1)

/-- What a shell says of a process that a signal ended. -/
def signalText? (n : Int) : Option String :=
  [(1, "Hangup"), (3, "Quit"), (4, "Illegal instruction"), (5, "Trace/breakpoint trap"), (6, "Aborted"),
    (7, "Bus error"), (8, "Floating point exception"), (9, "Killed"), (10, "User defined signal 1"),
    (11, "Segmentation fault"), (12, "User defined signal 2"), (14, "Alarm clock"), (15, "Terminated"),
    (16, "Stack fault"), (24, "CPU time limit exceeded"), (25, "File size limit exceeded"),
    (26, "Virtual timer expired"), (27, "Profiling timer expired"), (29, "I/O possible"), (30, "Power failure"),
    (31, "Bad system call")].lookup n

/-- Signals that a process does not notice unless it asks for them. -/
def isQuiet (n : Nat) : Bool := n = 0 || n = 17 || n = 18 || n = 23 || n = 28

/-- Sends a signal to the shell: it runs what is set for it, or ends. -/
def Session.receive (run : String → Session → Session) (n : Nat) (s : Session) : Session :=
  match if n = 9 || n = 0 then none else s.traps.lookup n with
  | some action =>
    if action.isEmpty then s
    else
      let after := run action s
      if after.goesOn then after.finish s.status else after
  | none => if isQuiet n then s else { s with ended? := some (.ofSignal n) }

end ShellVM.Shell
