import ShellVM.Job.Shell.Condition
import ShellVM.Job.Shell.Format
import ShellVM.Job.Shell.Parser
import ShellVM.Job.Shell.Pattern
import ShellVM.Job.Shell.Signal
import ShellVM.Job.Shell.Utility

/-!
# Commands of the shell itself

What they do to the session once their words are expanded. Those that run other commands are given
how a script is run.
-/

namespace ShellVM.Shell

/-- The commands that the shell carries out itself. -/
def builtins : List String :=
  Parser.specialCommands ++
    ["[", "alias", "bg", "cd", "chdir", "command", "echo", "false", "fg", "getopts", "hash", "jobs", "kill",
      "local", "printf", "pwd", "read", "test", "true", "type", "ulimit", "umask", "unalias", "wait"]

namespace Session

/-- A mistake in the arguments of the command that is running. It ends the shell if the command is
a special one. -/
def mistake (s : Session) (message : String) : Session :=
  let s := s.warn message
  if Parser.specialCommands.contains (s.running?.getD "") then s.leave 2 else s.finish 2

/-- A number that is not negative. -/
def count? (a : String) : Option Nat :=
  if !a.isEmpty && a.toList.all Char.isDigit && a.length < 10 then some (Number.digitsValue a.toList) else none

/-! ## Variables -/

def splitAssignment (a : String) : String × Option String :=
  let name := a.toList.takeWhile (· != '=')
  match a.toList.drop name.length with
  | _ :: value => (String.ofList name, some (String.ofList value))
  | [] => (a, none)

/-- Marks variables, and assigns those that have a value here. -/
def declare (mark : Variable → Variable) : List String → Session → Session
  | [], s => s
  | a :: rest, s =>
    let (name, value?) := splitAssignment a
    if !s.goesOn then s
    else if !Parser.isName name then s.mistake (name ++ ": bad variable name")
    else
      let s := match value? with
        | some v => s.assign name v
        | none => s
      if s.goesOn then declare mark rest (s.bind name (mark (s.binding name))) else s

def unset : List String → Session → Session
  | [], s => s
  | name :: rest, s =>
    if !s.goesOn then s
    else if !Parser.isName name then s.mistake (name ++ ": bad variable name")
    else if (s.binding name).readOnly then s.mistake (name ++ ": is read only")
    else unset rest { s with bindings := s.bindings.filter (·.1 != name) }

/-! ## Options -/

def setOption? (s : Session) (on : Bool) (letter : Char) : Option Session :=
  match letter with
  | 'e' => some { s with options := { s.options with exitOnError := on } }
  | 'u' => some { s with options := { s.options with unsetIsError := on } }
  | 'x' => some { s with options := { s.options with trace := on } }
  | 'f' => some { s with options := { s.options with noPatterns := on } }
  | 'a' | 'b' | 'C' | 'E' | 'I' | 'i' | 'm' | 'n' | 'p' | 's' | 'v' | 'V' => some s
  | _ => none

def optionLetter? (name : String) : Option Char :=
  [("errexit", 'e'), ("nounset", 'u'), ("xtrace", 'x'), ("noglob", 'f'), ("allexport", 'a'), ("notify", 'b'),
    ("noclobber", 'C'), ("emacs", 'E'), ("ignoreeof", 'I'), ("interactive", 'i'), ("monitor", 'm'),
    ("noexec", 'n'), ("privileged", 'p'), ("stdin", 's'), ("verbose", 'v'), ("vi", 'V')].lookup name

/-- Sets options letter by letter; the first that there is not stops it. -/
def setLetters (on : Bool) : List Char → Session → Except Char Session
  | [], s => .ok s
  | c :: rest, s =>
    match s.setOption? on c with
    | some s => setLetters on rest s
    | none => .error c

/-- The command `set`. -/
def setOptions : List String → Session → Session
  | [], s => s
  | "--" :: rest, s => { s with arguments := rest }
  | "-" :: rest, s => if rest.isEmpty then s else { s with arguments := rest }
  | sign :: name :: rest, s =>
    if sign == "-o" || sign == "+o" then
      match optionLetter? name >>= s.setOption? (sign == "-o") with
      | some s => setOptions rest s
      | none => s.mistake ("Illegal option " ++ sign ++ " " ++ name)
    else setFlags (name :: rest) sign s
  | [sign], s => setFlags [] sign s
where
  /-- An argument that sets options, or the first that does not. -/
  setFlags (rest : List String) (a : String) (s : Session) : Session :=
    match a.toList with
    | sign :: letters =>
      if (sign == '-' || sign == '+') && !letters.isEmpty then
        match setLetters (sign == '-') letters s with
        | .ok s =>
          match rest with
          | [] => s
          | "--" :: more => { s with arguments := more }
          | next =>
            if (next.headD "").startsWith "-" then
              match setLetters true ((next.headD "").toList.drop 1) s with
              | .ok s => if next.length = 1 then s else { s with arguments := next.drop 1 }
              | .error c => s.mistake ("Illegal option -" ++ c.toString)
            else { s with arguments := next }
        | .error c => s.mistake ("Illegal option " ++ sign.toString ++ c.toString)
      else { s with arguments := a :: rest }
    | [] => { s with arguments := a :: rest }

/-! ## Input -/

/-- Takes a line off the input: its characters, each with whether a backslash stood before it, and
whether the line was complete. Without `isRaw` a backslash makes the next character plain, and at
the end of a line joins it to the next. -/
def takeLine (isRaw : Bool) : List Char → List Glyph → List Glyph × Bool × List Char
  | [], before => (before.reverse, false, [])
  | '\n' :: rest, before => (before.reverse, true, rest)
  | '\x00' :: rest, before => takeLine isRaw rest before
  | '\\' :: c :: rest, before =>
    if isRaw then takeLine isRaw (c :: rest) (⟨'\\', false, true⟩ :: before)
    else if c == '\n' then takeLine isRaw rest before
    else takeLine isRaw rest (⟨c, true, false⟩ :: before)
  | c :: rest, before => takeLine isRaw rest (⟨c, false, true⟩ :: before)

/-- Assigns the words of a line to variables; the last one takes the rest. -/
def assignWords (separators : List Char) : List String → List Glyph → Session → Session
  | [], _, s => s
  | name :: names, gs, s =>
    let isBlank (g : Glyph) : Bool :=
      g.splits && separators.contains g.char && (g.char == ' ' || g.char == '\t' || g.char == '\n')
    let divides (g : Glyph) : Bool := g.splits && separators.contains g.char
    let gs := gs.dropWhile isBlank
    let text (gs : List Glyph) : String := String.ofList (gs.map (·.char))
    match names with
    | [] =>
      let rest := (gs.reverse.dropWhile isBlank).reverse
      let single := rest.takeWhile (!divides ·)
      let ends := (rest.drop single.length).length = 1 && !(rest.getLast?.any isBlank)
      s.assign name (text (if ends then single else rest))
    | names =>
      let word := gs.takeWhile (!divides ·)
      let rest := (gs.drop word.length).dropWhile isBlank
      let rest := match rest with
        | g :: more => if divides g && !isBlank g then more else rest
        | [] => []
      assignWords separators names rest (s.assign name (text word))

def read (arguments : List String) (s : Session) : Session :=
  let isRaw := arguments.head? == some "-r"
  match if isRaw then arguments.drop 1 else arguments with
  | [] => s.mistake "arg count"
  | names =>
    let (gs, complete, rest) := takeLine isRaw s.pending []
    let separators := ((s.lookup? "IFS").getD " \t\n").toList
    let s := assignWords separators names gs (s.setPending rest)
    if s.goesOn then s.finish (if complete then 0 else 1) else s

/-! ## Signals and traps -/

/-- Sends a signal to processes; the shell itself is the only one there is. -/
def send (run : String → Session → Session) (n : Nat) : List String → Session → Session
  | [], s => s
  | pid :: rest, s =>
    if !s.goesOn then s
    else if pid == "1" || pid == "0" then send run n rest (s.receive run n)
    else if (count? pid).isSome then send run n rest ((s.warn "No such process\n").finish 1)
    else s.mistake ("Illegal number: " ++ pid)

def usageOfKill : String :=
  "Usage: kill [-s sigspec | -signum | -sigspec] [pid | job]... or\nkill -l [exitstatus]"

def kill (run : String → Session → Session) (arguments : List String) (s : Session) : Session :=
  let s := s.finish 0
  match arguments with
  | [] => s.mistake usageOfKill
  | "-l" :: rest =>
    match rest with
    | [] => s.put 1 (signalNames.foldl (fun text n => text ++ n ++ "\n") "0\n")
    | a :: _ =>
      match count? a with
      | some n => s.put 1 ((signalNames[(if 128 < n then n - 128 else n) - 1]?).getD "" ++ "\n")
      | none => s.mistake ("Illegal number: " ++ a)
  | "-s" :: name :: pids =>
    match signal? name with
    | some n => send run n pids s
    | none => s.mistake ("invalid signal number or name: " ++ name)
  | "--" :: pids => send run 15 pids s
  | a :: pids =>
    if a.startsWith "-" then
      match signal? (a.drop 1).toString with
      | some n => if pids.isEmpty then s.mistake usageOfKill else send run n pids s
      | none => s.mistake ("Illegal option -" ++ (((a.drop 1).take 1).toString))
    else send run 15 arguments s

/-- Sets what is to run at signals. -/
def setTraps (action? : Option String) : List String → Session → Session
  | [], s => s
  | name :: rest, s =>
    match signal? name with
    | none => (s.put 2 ("trap: " ++ name ++ ": bad trap\n")).finish 1
    | some n =>
      let others := s.traps.filter (·.1 != n)
      setTraps action? rest { s with traps := match action? with
        | some action => (n, action) :: others
        | none => others }

def trap (arguments : List String) (s : Session) : Session :=
  let s := s.finish 0
  match arguments with
  | [] => s
  | [single] => setTraps none [single] s
  | action :: names =>
    if action == "-" || (count? action).isSome && (signal? action).isSome then
      setTraps none (if action == "-" then names else arguments) s
    else setTraps (some action) names s

/-! ## The rest -/

/-- What a name stands for as a command: the text for `type`, and for `command -v`. -/
def describe (s : Session) (name : String) : Option (String × String) :=
  if Parser.keywords.contains name then some (name ++ " is a shell keyword", name)
  else if (s.functions.lookup name).isSome then some (name ++ " is a shell function", name)
  else if Parser.specialCommands.contains name then some (name ++ " is a special shell builtin", name)
  else if builtins.contains name then some (name ++ " is a shell builtin", name)
  else if name.contains '/' then
    match s.files.find name with
    | .ok (.program _) => some (name ++ " is " ++ name, name)
    | _ => none
  else
    ((s.lookup "PATH").splitOn ":").findSome? fun d =>
      let path := if d.isEmpty then name else d ++ "/" ++ name
      match s.files.find path with
      | .ok (.program _) => some (name ++ " is " ++ path, path)
      | _ => none

def changeDirectory (path : String) (s : Session) : Session :=
  match s.files.locate path with
  | .ok place =>
    if s.files.isDirectory place then
      let s := { s with files := { s.files with here := place }, status := 0 }
      s.bind "PWD" { s.binding "PWD" with value? := some ("/" ++ "/".intercalate place) }
    else s.mistake ("can't cd to " ++ path)
  | .error _ => s.mistake ("can't cd to " ++ path)

/-- How many loops a command leaves. -/
def leaveLoops (leaving : Nat → Leaving) (arguments : List String) (s : Session) : Session :=
  match arguments with
  | [] => if s.loops = 0 then s.finish 0 else { s with leaving? := some (leaving 1), status := 0 }
  | a :: _ =>
    match count? a with
    | some (n + 1) =>
      if s.loops = 0 then s.finish 0 else { s with leaving? := some (leaving (min (n + 1) s.loops)), status := 0 }
    | _ => s.mistake ("Illegal number: " ++ a)

/-- Complains if there is nowhere to write to. -/
def checkOutput (s : Session) : Session :=
  if (s.channel? 1).isNone then (s.warn (s.running?.getD "" ++ ": I/O error")).finish 1 else s

def judge (s : Session) (words : List String) : Session :=
  match Condition.eval s.files (words.length + 2) words with
  | .ok b => s.finish (if b then 0 else 1)
  | .error message => s.mistake message

/-- Carries out a command of the shell. `run` runs a script in this shell. -/
def builtin (run : String → Session → Session) (name : String) (arguments : List String) (s : Session) :
    Session :=
  match name with
  | ":" | "true" | "wait" | "times" | "hash" | "jobs" | "alias" | "unalias" | "ulimit" | "bg" | "fg" | "getopts" =>
    s.finish (if name == "wait" && !arguments.isEmpty then 127 else 0)
  | "false" => s.finish 1
  | "echo" => (s.put 1 (echo .shell arguments)).finish 0 |>.checkOutput
  | "printf" =>
    match if arguments.head? == some "--" then arguments.drop 1 else arguments with
    | [] => s.mistake "usage: printf format [arg ...]"
    | format :: rest => s.writeFormatted .shell warn (printf .shell format rest) |>.checkOutput
  | "test" => s.judge arguments
  | "[" =>
    if arguments.getLast? == some "]" then s.judge arguments.dropLast else s.mistake "missing ]"
  | "cd" | "chdir" =>
    match arguments with
    | [] => s.changeDirectory ((s.lookup? "HOME").getD "/")
    | path :: _ => s.changeDirectory path
  | "pwd" => (s.put 1 ("/" ++ "/".intercalate s.files.here ++ "\n")).finish 0
  | "umask" =>
    match arguments with
    | [] => (s.put 1 "0022\n").finish 0
    | a :: _ => if a.toList.all Arithmetic.isOctalDigit then s.finish 0 else s.mistake ("Illegal number: " ++ a)
  | "exit" =>
    match arguments with
    | [] => s.leave s.status
    | a :: _ =>
      match count? a with
      | some n => s.leave (n % 256)
      | none => s.mistake ("Illegal number: " ++ a)
  | "return" =>
    match arguments with
    | [] => { s with leaving? := some .return }
    | a :: _ =>
      match count? a with
      | some n => { s with leaving? := some .return, status := n }
      | none => s.mistake ("Illegal number: " ++ a)
  | "break" => s.leaveLoops .break arguments
  | "continue" => s.leaveLoops .continue arguments
  | "eval" => if arguments.isEmpty then s.finish 0 else run (" ".intercalate arguments) (s.finish 0)
  | "." =>
    match arguments with
    | [] => s.finish 0
    | path :: _ =>
      match s.files.read path with
      | .ok bytes =>
        let after := run (Raw.ofBytes bytes.toList) (s.finish 0)
        { after with leaving? := if after.leaving? == some .return then none else after.leaving? }
      | .error _ => s.mistake ("cannot open " ++ path ++ ": No such file")
  | "shift" =>
    match (match arguments with
      | [] => some 1
      | a :: _ => count? a) with
    | none => s.mistake ("Illegal number: " ++ arguments.headD "")
    | some n =>
      if s.arguments.length < n then s.mistake "can't shift that many"
      else { s with arguments := s.arguments.drop n, status := 0 }
  | "set" => setOptions arguments (s.finish 0)
  | "export" => declare (fun v => { v with exported := true }) (arguments.filter (· != "-p")) (s.finish 0)
  | "readonly" => declare (fun v => { v with readOnly := true }) (arguments.filter (· != "-p")) (s.finish 0)
  | "local" =>
    if s.calls = 0 then { s.warn "not in a function" with status := 2, ended? := some (.ofCode 2) }
    else
      let names := arguments.map fun a => (splitAssignment a).1
      declare id arguments { s with locals := names ++ s.locals, status := 0 }
  | "unset" =>
    match arguments with
    | "-f" :: names => { s with functions := s.functions.filter fun f => !names.contains f.1, status := 0 }
    | "-v" :: names => unset names (s.finish 0)
    | names => unset names (s.finish 0)
  | "read" => s.read arguments
  | "kill" => s.kill run arguments
  | "trap" => s.trap arguments
  | "type" =>
    arguments.foldl (fun s a =>
      match s.describe a with
      | some (text, _) => s.put 1 (text ++ "\n")
      | none => (s.put 1 (a ++ ": not found\n")).finish 127) (s.finish 0)
  | _ => s.finish 0

end Session

end ShellVM.Shell
