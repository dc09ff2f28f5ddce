import ShellVM.Files

/-!
# Finding programs

A program is named by a path, or by a name that is looked for in a row of directories. A program
that is found starts if its arguments and its environment are not too long.
-/

namespace ShellVM.Files

/-- The directories that are searched if nothing else is said. -/
def searchPath : String := "/usr/local/sbin:/usr/local/bin:/usr/sbin:/usr/bin:/sbin:/bin"

/-- The program at a path. -/
def programAt (f : Files) (path : String) : Except Refusal String := do
  match ← f.find path with
  | .program name => return name
  | _ => throw .denied

/-- Looks for a program in directories. What is missing or is no program in one of them may be found
in another; in the end the obstacle that counts is a program that may not be started, or else the
last one. -/
def search (f : Files) (name : String) : List String → (last : Refusal) → (denied : Bool) →
    Except Refusal String
  | [], last, denied => .error (if denied then .denied else last)
  | directory :: rest, _, denied =>
    match f.programAt (if directory.isEmpty then name else directory ++ "/" ++ name) with
    | .ok program => .ok program
    | .error .denied => f.search name rest .denied true
    | .error .notFound => f.search name rest .notFound denied
    | .error .notDirectory => f.search name rest .notDirectory denied
    | .error refusal => .error refusal

/-- The program that a call names. -/
def programFor (f : Files) (name path : String) : Except Refusal String :=
  if name.contains '/' then f.programAt name
  else if name.isEmpty then .error .notFound
  else if maxName < name.length then .error .nameTooLong
  else f.search name (path.splitOn ":") .notFound false

/-- The most bytes of one argument, with the mark at its end. -/
def maxArgument : Nat := 131072

/-- The most bytes of all arguments. -/
def maxArguments : Nat := 2097152

/-- What all programs find in their environment, in bytes. -/
def inherited : Nat := 1024

/-- Does the system take these arguments and settings? Each has a mark at its end and an address. -/
def fits (arguments environment : List String) : Bool :=
  let all := arguments ++ environment
  all.all (fun a => a.length < maxArgument) &&
    all.foldl (fun n a => n + a.length + 9) inherited ≤ maxArguments

end ShellVM.Files
