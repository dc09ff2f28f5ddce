import ShellVM.Fault

/-!
# How a process ends

A process ends with a code or by a signal. A shell reports the signal of a process it ran by a code
above 128, so such codes count as signals too.
-/

namespace ShellVM

structure Exit where
  code? : Option Int
  signal? : Option Int
deriving DecidableEq

namespace Exit

def ofCode (code : Int) : Exit := ⟨some code, none⟩

def ofSignal (signal : Int) : Exit := ⟨none, some signal⟩

/-- Codes above this one stand for signals. -/
def signalBase : Int := 128

def signalName? (signal : Int) : Option String :=
  if signal < 1 then none
  else
    ["SIGHUP", "SIGINT", "SIGQUIT", "SIGILL", "SIGTRAP", "SIGABRT", "SIGBUS", "SIGFPE", "SIGKILL",
      "SIGUSR1", "SIGSEGV", "SIGUSR2", "SIGPIPE", "SIGALRM", "SIGTERM"][signal.toNat - 1]?

def isSuccess (e : Exit) : Bool := e.code? == some 0 && e.signal?.isNone

/-- The signal that ended the process, as reported or as read off the code. -/
def terminatingSignal? (e : Exit) : Option Int :=
  e.signal?.or (do
    let code ← e.code?
    if signalBase < code && (signalName? (code - signalBase)).isSome then some (code - signalBase)
    else none)

/-- What an unsuccessful end raises. -/
def failure? (e : Exit) (program : String) : Option Cause :=
  if e.isSuccess then none
  else
    match e.terminatingSignal? with
    | some signal =>
      some (.signal program ((signalName? signal).getD ("signal " ++ Cause.renderInt signal)))
    | none => some (.nonZeroExit program (e.code?.getD (-1)))

end Exit

end ShellVM
