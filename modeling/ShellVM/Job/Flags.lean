/-!
# Flags of program calls

A program call carries a word with one bit for each of its settings.
-/

namespace ShellVM

structure CallFlags where
  bits : UInt16
deriving DecidableEq

namespace CallFlags

def none : CallFlags := ⟨0⟩

/-- A value is fed to the program. -/
def piped : CallFlags := ⟨1⟩

/-- The output is captured even where it would go to the terminal. -/
def stdout : CallFlags := ⟨2⟩

/-- The error output is captured together with the output. -/
def stderr : CallFlags := ⟨4⟩

/-- The call does not wait for the output. -/
def unbuffered : CallFlags := ⟨8⟩

/-- The program starts with the call, not with the first look at its output. -/
def autostart : CallFlags := ⟨16⟩

/-- Nobody waits for the program or minds how it ends. -/
def background : CallFlags := ⟨32⟩

def contains (flags other : CallFlags) : Bool := flags.bits &&& other.bits == other.bits

def insert (flags other : CallFlags) : CallFlags := ⟨flags.bits ||| other.bits⟩

/-- Adds the flags of `other` if `enabled`. -/
def withIf (flags other : CallFlags) (enabled : Bool) : CallFlags :=
  if enabled then flags.insert other else flags

def named : List (CallFlags × String) :=
  [(piped, "piped"), (stdout, "stdout"), (stderr, "stderr"), (unbuffered, "unbuffered"),
    (autostart, "autostart"), (background, "background")]

/-- The names of the flags that are set. -/
def names (flags : CallFlags) : List String :=
  (named.filter (fun entry => flags.contains entry.1)).map Prod.snd

end CallFlags

end ShellVM
