import ShellVM.Job.Locate
import ShellVM.Job.Shell.Run

/-!
# Systems

What programs there are and what they do is a matter of the system that they run on.
-/

namespace ShellVM

/-- A system finds programs and runs them. It has no hand in the storage of the code that calls them: what becomes of
a call depends on nothing but the call and the files, and all that is left of it are files, output and an exit
status. -/
structure System where
  /-- The program of a name, which is looked for in a row of directories, if it starts with these arguments and
  settings. -/
  find : (files : Files) → (name path : String) → (arguments settings : List String) → Except Refusal String
  /-- Runs a program to its end. `name` is how it was called; all texts are rows of bytes. -/
  behaviour : (files : Files) → (program name : String) → (arguments : List String) →
    (environment : List (String × String)) → (input : List Char) → Shell.Behaviour

/-- A system with a shell and its utilities. -/
def System.standard : System where
  find := fun files name path arguments settings => do
    let program ← files.programFor name path
    if Files.fits (name :: arguments) settings then return program
    else throw .argumentsTooLong
  behaviour := Shell.behaviour

end ShellVM
