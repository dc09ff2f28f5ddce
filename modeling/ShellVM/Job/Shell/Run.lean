import ShellVM.Job.Locate
import ShellVM.Job.Shell.Builtin
import ShellVM.Job.Shell.Expand

/-!
# Running commands

How the shell carries out the commands of a script, and how a program is run from its start to its
end. The depth of commands within commands and the rounds of loops are bounded by `Session.endless`,
which no run reaches.
-/

namespace ShellVM.Shell

namespace Session

/-! ## Redirections -/

/-- The descriptor that a name of a device stands for. -/
def device? (path : String) : Option Nat :=
  [("/dev/stdin", 0), ("/dev/stdout", 1), ("/dev/stderr", 2), ("/dev/fd/0", 0), ("/dev/fd/1", 1),
    ("/dev/fd/2", 2)].lookup path

/-- How an obstacle is called when a file is opened. -/
def openText (missing : String) : Refusal → String
  | .notFound | .notDirectory => missing
  | r => r.text

/-- Opens a file for a descriptor, or tells why not. -/
def openFile (s : Session) (fd : Nat) (opening : Opening) (path : String) : Except String Session :=
  match device? path, opening with
  | some source, _ => .ok (s.setChannel fd (s.channel? source))
  | none, .read =>
    match s.files.read path with
    | .ok bytes =>
      let (channel, s) := s.addSource (bytes.toList.map fun b => Char.ofNat b.toNat)
      .ok (s.setChannel fd (some channel))
    | .error .isDirectory => .ok (s.setChannel fd (some .directory))
    | .error r => .error ("cannot open " ++ path ++ ": " ++ openText "No such file" r)
  | none, opening =>
    match s.files.target path with
    | .error r => .error ("cannot create " ++ path ++ ": " ++ openText "Directory nonexistent" r)
    | .ok place =>
      match s.files.entry? place with
      | some .null => .ok (s.setChannel fd (some .null))
      | entry? =>
        let files := if opening == .write || entry?.isNone then s.files.put place .empty else s.files
        .ok ({ s with files }.setChannel fd (some (.file place)))

/-- Carries out redirections in order; the first that fails leaves its message. -/
def redirect (run : List Command → Session → Session) (fuel : Nat) : List Redirection → Session →
    Session × Option String
  | [], s => (s, none)
  | r :: rest, s =>
    match r with
    | .file fd opening path =>
      let (path, s) := (Expand.text run fuel path).run s
      if !s.goesOn then (s, none)
      else
        match s.openFile fd opening path with
        | .ok s => redirect run fuel rest s
        | .error message => (s, some message)
    | .duplicate fd source =>
      let (source, s) := (Expand.text run fuel source).run s
      if !s.goesOn then (s, none)
      else if source == "-" then redirect run fuel rest (s.setChannel fd none)
      else
        match count? source with
        | none => (s.abort "Syntax error: Bad fd number", none)
        | some n =>
          match s.channel? n with
          | some channel => redirect run fuel rest (s.setChannel fd (some channel))
          | none => (s, some (n.repr ++ ": Bad file descriptor"))
    | .here fd text =>
      let (text, s) := (Expand.parts run fuel text).run s
      if !s.goesOn then (s, none)
      else
        let (channel, s) := s.addSource (Expand.textOf text).toList
        redirect run fuel rest (s.setChannel fd (some channel))

/-! ## Programs -/

/-- The state in which a new shell starts that this process starts. -/
def newShell (s : Session) (name : String) (arguments : List String) : Session :=
  { files := s.files, sources := s.sources, sinks := s.sinks, descriptors := s.descriptors
    beforeSleep? := s.beforeSleep?, name, arguments
    bindings := s.environment.map fun (n, v) => (n, { value? := some v, exported := true }) }

/-- What a program does that a shell has started, seen from the shell. -/
def conclude (s inner : Session) : Session :=
  let after := { s.resume inner with status := inner.finalStatus }
  match inner.ended? with
  | some e =>
    match e.signal? >>= signalText? with
    | some text => after.put 2 (text ++ "\n")
    | none => after
  | none => after

/-- Where a shell finds its script. -/
inductive ScriptSource where
  | argument
  | input
  | file
deriving DecidableEq

/-- Reads the options of a shell: where its script is, and the other arguments. -/
def shellCall : List String → Session → Except String (ScriptSource × Session × List String)
  | [], s => .ok (.file, s, [])
  | a :: rest, s =>
    if a == "--" || a == "-" then .ok (.file, s, rest)
    else if a == "-o" then
      match rest with
      | name :: rest =>
        match optionLetter? name >>= s.setOption? true with
        | some s => shellCall rest s
        | none => .error ("Illegal option -o " ++ name)
      | [] => .ok (.file, s, [])
    else if a.startsWith "-" then
      let letters := a.toList.drop 1
      match setLetters true (letters.filter (· != 'c')) s with
      | .ok s => do
        let (source, s, rest) ← shellCall rest s
        return (if letters.contains 'c' then .argument else if letters.contains 's' then .input else source,
          s, rest)
      | .error c => .error ("Illegal option -" ++ c.toString)
    else .ok (.file, s, a :: rest)

/-- Shows a command before it runs. -/
def traceCommand (assignments : List (String × String)) (fields : List String) (s : Session) : Session :=
  if s.options.trace then
    s.put 2 ("+ " ++ " ".intercalate (assignments.map (fun (n, v) => n ++ "=" ++ v) ++ fields) ++ "\n")
  else s

/-- Ends the shell after a failure if it is set so. -/
def checkFailure (s : Session) : Session :=
  if s.options.exitOnError && !s.tested && s.status != 0 && s.goesOn then s.leave s.status else s

/-- Runs with the end of the command looked at. -/
def whileTested (f : Session → Session) (s : Session) : Session :=
  { f { s with tested := true } with tested := s.tested }

/-- Runs in the descriptors of the moment and then goes back to them. -/
def keepingDescriptors (s after : Session) : Session := { after with descriptors := s.descriptors }

/-- Assigns the values of words, in order. -/
def assignAll (run : List Command → Session → Session) (fuel : Nat) : List (String × Word) → Session →
    Session × List (String × String)
  | [], s => (s, [])
  | (name, word) :: rest, s =>
    let (value, s) := (Expand.text run fuel word).run s
    if !s.goesOn then (s, [])
    else
      let s := s.assign name value
      if !s.goesOn then (s, [])
      else
        let (s, more) := assignAll run fuel rest s
        (s, (name, value) :: more)

/-- Does a loop go on after a round? One that leaves several loops leaves this one and the rest. -/
def afterRound (s : Session) : Bool × Session :=
  if s.ended?.isSome then (false, s)
  else
    match s.leaving? with
    | none => (true, s)
    | some (.break n) => (false, { s with leaving? := if n ≤ 1 then none else some (.break (n - 1)) })
    | some (.continue n) =>
      if n ≤ 1 then (true, { s with leaving? := none }) else (false, { s with leaving? := some (.continue (n - 1)) })
    | some .return => (false, s)

mutual

/-- Runs a program that is found under a name. -/
def runProgram : (fuel : Nat) → (program name : String) → List String → Session → Session
  | 0, _, _, _, s => s.finish 2
  | fuel + 1, program, name, arguments, s =>
    if program != "sh" then s.utility program name arguments
    else
      let shell := s.newShell name []
      match shellCall arguments shell with
      | .error message => (shell.put 2 (name ++ ": 0: " ++ message ++ "\n")).leave 2
      | .ok (.argument, shell, []) => (shell.put 2 (name ++ ": 0: -c requires an argument\n")).leave 2
      | .ok (.argument, shell, text :: rest) =>
        let shell := { shell with name := rest.headD name, arguments := rest.drop 1 }
        atEnd fuel (runLines fuel { rest := text.toList } shell)
      | .ok (.input, shell, rest) => runInput fuel { shell with arguments := rest }
      | .ok (.file, shell, []) => runInput fuel shell
      | .ok (.file, shell, path :: rest) =>
        match shell.files.read path with
        | .ok bytes =>
          let text := bytes.toList.map fun b => Char.ofNat b.toNat
          atEnd fuel (runLines fuel { rest := text } { shell with name := path, arguments := rest })
        | .error r =>
          (shell.put 2 (name ++ ": 0: cannot open " ++ path ++ ": " ++ openText "No such file" r ++ "\n")).leave 2

/-- Runs the script that the input holds. -/
def runInput : (fuel : Nat) → Session → Session
  | 0, s => s.finish 2
  | fuel + 1, s =>
    let text := s.pending.filter (· != '\x00')
    atEnd fuel (runLines fuel { rest := text } (s.setPending []))

/-- Runs what is set for the end of a shell. -/
def atEnd : (fuel : Nat) → Session → Session
  | 0, s => s
  | fuel + 1, s =>
    match s.traps.lookup 0, (s.ended?.bind (·.signal?)) with
    | some action, none =>
      let code := s.finalStatus
      let after := runLines fuel { rest := action.toList }
        { s with traps := s.traps.filter (·.1 != 0), ended? := none, leaving? := none, status := code }
      if after.ended?.isSome then after else { after with ended? := some (.ofCode code) }
    | _, _ => s

/-- Runs the lines of a script one after the other. -/
def runLines : (fuel : Nat) → Cursor → Session → Session
  | 0, _, s => s.finish 2
  | fuel + 1, c, s =>
    if !s.goesOn then s
    else
      match Parser.nextLine c with
      | .error mistake => { s with line := mistake.line }.abort ("Syntax error: " ++ mistake.message)
      | .ok none => s
      | .ok (some (commands, c)) => runLines fuel c (runAll fuel commands s)

/-- Runs a script in this shell. -/
def runText : (fuel : Nat) → String → Session → Session
  | 0, _, s => s.finish 2
  | fuel + 1, text, s => runLines fuel { rest := text.toList } s

/-- Runs commands in a shell that was split off. -/
def runApart : (fuel : Nat) → List Command → Session → Session
  | 0, _, s => s.finish 2
  | fuel + 1, commands, s => atEnd fuel (runAll fuel commands s)

def runAll : (fuel : Nat) → List Command → Session → Session
  | 0, _, s => s.finish 2
  | _, [], s => s
  | fuel + 1, c :: rest, s =>
    let s := runCommand fuel c s
    if s.goesOn then runAll fuel rest s else s

def runCommand : (fuel : Nat) → Command → Session → Session
  | 0, _, s => s.finish 2
  | fuel + 1, command, s =>
    match command with
    | .simple line assignments words redirections =>
      (runSimple fuel assignments words redirections { s with line, outputStatus := 0 }).checkFailure
    | .pipeline stages =>
      (s.rejoin (runStages fuel stages none { s with loops := 0, tested := false, traps := [] })).checkFailure
    | .not c =>
      let after := whileTested (runCommand fuel c) s
      if after.goesOn then after.finish (if after.status == 0 then 1 else 0) else after
    | .and left right =>
      let after := whileTested (runCommand fuel left) s
      if after.goesOn && after.status == 0 then runCommand fuel right after else after
    | .or left right =>
      let after := whileTested (runCommand fuel left) s
      if after.goesOn && after.status != 0 then runCommand fuel right after else after
    | .background c =>
      let inner := runApart fuel [c] { s.setChannel 0 (some .null) with loops := 0, traps := [] }
      { s.rejoin inner with status := 0 }
    | .group body => runAll fuel body s
    | .subshell body =>
      (s.rejoin (runApart fuel body { s with loops := 0, traps := [] })).checkFailure
    | .branch condition yes no =>
      let after := whileTested (runAll fuel condition) s
      if !after.goesOn then after
      else if after.status == 0 then runAll fuel yes after
      else if no.isEmpty then after.finish 0
      else runAll fuel no after
    | .loop isUntil condition body =>
      { runLoop fuel isUntil condition body 0 { s with loops := s.loops + 1 } with loops := s.loops }
    | .each name words body =>
      let (values, s) := (Expand.fields (runApart fuel) fuel words).run s
      if !s.goesOn then s
      else { runEach fuel name values body { s with loops := s.loops + 1, status := 0 } with loops := s.loops }
    | .choice word clauses =>
      let (text, s) := (Expand.text (runApart fuel) fuel word).run s
      if !s.goesOn then s else runChoice fuel text.toList clauses (s.finish 0)
    | .function name body => { s with functions := (name, body) :: s.functions, status := 0 }
    | .redirected c redirections =>
      match redirect (runApart fuel) fuel redirections s with
      | (after, none) =>
        if after.goesOn then s.keepingDescriptors (runCommand fuel c after) else after
      | (after, some message) => s.keepingDescriptors ((after.warn message).finish 2)

/-- Runs a simple command. -/
def runSimple : (fuel : Nat) → List (String × Word) → List Word → List Redirection → Session → Session
  | 0, _, _, _, s => s.finish 2
  | fuel + 1, assignments, words, redirections, s =>
    let (fields, s) := (Expand.fields (runApart fuel) fuel words).run s
    if !s.goesOn then s
    else
      let isSpecial := Parser.specialCommands.contains (fields.headD "") &&
        (s.functions.lookup (fields.headD "")).isNone
      match redirect (runApart fuel) fuel redirections s with
      | (after, some message) =>
        let after := s.keepingDescriptors (after.warn message)
        if isSpecial then after.leave 2 else after.finish 2
      | (opened, none) =>
        if !opened.goesOn then opened
        else
          match fields with
          | [] =>
            let (after, values) := assignAll (runApart fuel) fuel assignments opened
            let after := after.traceCommand values []
            s.keepingDescriptors (if after.goesOn then after.finish after.outputStatus else after)
          | name :: arguments =>
            let (assigned, values) := assignAll (runApart fuel) fuel assignments opened
            if !assigned.goesOn then assigned
            else
              let ready := assigned.traceCommand values fields
              if isSpecial then
                let after := runWords fuel name arguments ready
                if name == "exec" && arguments.isEmpty then after else s.keepingDescriptors after
              else
                let ready := values.foldl (fun s (n, _) => s.bind n { s.binding n with exported := true }) ready
                let after := s.keepingDescriptors (runWords fuel name arguments ready)
                values.foldl (fun after (n, _) =>
                  match s.bindings.lookup n with
                  | some v => after.bind n v
                  | none => { after with bindings := after.bindings.filter (·.1 != n) }) after

/-- Runs a command whose words are expanded. -/
def runWords : (fuel : Nat) → (name : String) → List String → Session → Session
  | 0, _, _, s => s.finish 2
  | fuel + 1, name, arguments, s =>
    match s.functions.lookup name with
    | some body =>
      let after := runCommand fuel body
        { s with arguments, calls := s.calls + 1, loops := 0, locals := [], running? := none }
      let after := { after with
        arguments := s.arguments, calls := s.calls, loops := s.loops, locals := s.locals, running? := s.running?
        leaving? := if after.leaving? == some .return then none else after.leaving?
        bindings := after.bindings.filter (fun b => !after.locals.contains b.1) ++
          s.bindings.filter (fun b => after.locals.contains b.1) }
      after
    | none => runOwn fuel name arguments s

/-- Runs a command of the shell, or a program. -/
def runOwn : (fuel : Nat) → (name : String) → List String → Session → Session
  | 0, _, _, s => s.finish 2
  | fuel + 1, name, arguments, s =>
    let asBuiltin (f : Session → Session) : Session :=
      { f { s with running? := some name } with running? := s.running? }
    if name == "exec" then
      match arguments with
      | [] => s.finish 0
      | program :: rest =>
        asBuiltin fun s =>
          let after := runOutside fuel program rest s
          if after.goesOn then { after with ended? := some (.ofCode after.status), traps := [] } else after
    else if name == "command" then
      match arguments with
      | "-v" :: names =>
        asBuiltin fun s => names.foldl (fun s n =>
          match s.describe n with
          | some (_, text) => s.put 1 (text ++ "\n")
          | none => s.finish 127) (s.finish 0)
      | [] => s.finish 0
      | program :: rest => runOwn fuel program rest s
    else if builtins.contains name then asBuiltin (builtin (runText fuel) name arguments)
    else runOutside fuel name arguments s

/-- Runs a program from the shell. -/
def runOutside : (fuel : Nat) → (name : String) → List String → Session → Session
  | 0, _, _, s => s.finish 2
  | fuel + 1, name, arguments, s =>
    let byPath := name.contains '/'
    let found := if name.isEmpty then .error .denied
      else s.files.programFor name (s.lookup "PATH")
    match found with
    | .ok program =>
      let settings := s.environment.map fun (n, v) => n ++ "=" ++ v
      if Files.fits (name :: arguments) settings then
        s.conclude (runProgram fuel program name arguments s)
      else (s.warn (name ++ ": " ++ Refusal.argumentsTooLong.text)).finish 126
    | .error r =>
      (s.warn (name ++ ": " ++ openText "not found" r)).finish (if byPath && r == .denied then 126 else 127)

/-- Runs the stages of a pipeline in shells of their own; each but the last feeds the next. -/
def runStages : (fuel : Nat) → List Command → (input? : Option Channel) → Session → Session
  | 0, _, _, s => s.finish 2
  | _, [], _, s => s
  | fuel + 1, [stage], input?, s =>
    runApart fuel [stage] (match input? with
      | some channel => s.setChannel 0 (some channel)
      | none => s)
  | fuel + 1, stage :: rest, input?, s =>
    let (i, started) := s.addSink
    let started := match input? with
      | some channel => started.setChannel 0 (some channel)
      | none => started
    let inner := runApart fuel [stage] (started.setChannel 1 (some (.sink i)))
    let after := s.rejoin inner
    if after.ended?.isSome then after
    else
      let written := (after.sinks.getD i .empty).toList.map fun b => Char.ofNat b.toNat
      let (channel, after) := after.addSource written
      runStages fuel rest (some channel) after

/-- Runs a loop; `last` is the status of the round before. -/
def runLoop : (fuel : Nat) → (isUntil : Bool) → (condition body : List Command) → (last : Int) → Session →
    Session
  | 0, _, _, _, _, s => s.finish 2
  | fuel + 1, isUntil, condition, body, last, s =>
    let s := whileTested (runAll fuel condition) s
    match s.goesOn, afterRound s with
    | false, (again, s) => if again then runLoop fuel isUntil condition body s.status s else s
    | true, _ =>
      if (s.status == 0) == isUntil then s.finish last
      else
        match afterRound (runAll fuel body s) with
        | (true, s) => runLoop fuel isUntil condition body s.status s
        | (false, s) => s

def runEach : (fuel : Nat) → (name : String) → List String → (body : List Command) → Session → Session
  | 0, _, _, _, s => s.finish 2
  | _, _, [], _, s => s
  | fuel + 1, name, value :: rest, body, s =>
    let s := s.assign name value
    if !s.goesOn then s
    else
      match afterRound (runAll fuel body s) with
      | (true, s) => runEach fuel name rest body s
      | (false, s) => s

/-- Runs the first clause one of whose patterns matches. -/
def runChoice : (fuel : Nat) → List Char → List (List Word × List Command) → Session → Session
  | 0, _, _, s => s.finish 2
  | _, _, [], s => s
  | fuel + 1, text, (patterns, body) :: rest, s =>
    let (isChosen, s) := patterns.foldl (fun ((isChosen, s) : Bool × Session) word =>
      if isChosen || !s.goesOn then (isChosen, s)
      else
        let (items, s) := (Expand.pattern (runApart fuel) fuel word).run s
        (Pattern.isMatch items text, s)) (false, s)
    if !s.goesOn then s
    else if isChosen then runAll fuel body s
    else runChoice fuel text rest s

end

/-- More commands than scripts run in a row. -/
def endless : Nat := 1000000000

end Session

/-- All that a program does. -/
structure Behaviour where
  output : ByteArray
  errors : ByteArray
  exit : Exit
  /-- The output before the program first sleeps, if it does. -/
  beforeSleep? : Option ByteArray
  /-- The files that it leaves behind. -/
  files : Files

/-- The settings that all programs find besides those of their call. -/
def settings : List (String × String) := [("PATH", Files.searchPath), ("HOME", "/root"), ("PWD", "/tmp/work")]

/-- Runs a program to its end. `name` is how it was called; all texts are rows of bytes. -/
def behaviour (files : Files) (program name : String) (arguments : List String)
    (environment : List (String × String)) (input : List Char) : Behaviour :=
  let start : Session :=
    { files, sources := #[input], sinks := #[.empty, .empty], name
      descriptors := [(0, .source 0), (1, .sink 0), (2, .sink 1)] }
  let start := (settings ++ environment).foldl (fun (s : Session) (n, v) =>
    if Parser.isName n then s.bind n { value? := some v, exported := true } else s) start
  let s := Session.runProgram Session.endless program name arguments start
  ⟨s.sinks.getD 0 .empty, s.sinks.getD 1 .empty, s.ended?.getD (.ofCode s.status), s.beforeSleep?,
    { s.files with here := files.here }⟩

/-- Cuts bytes into lines, without the marks at their ends. -/
def cutLines (bytes : List UInt8) : List (List UInt8) :=
  let (last, done) := bytes.foldl (fun ((line, done) : List UInt8 × List (List UInt8)) b =>
    if b == 10 then ([], (if line.head? == some 13 then line.drop 1 else line).reverse :: done)
    else (b :: line, done)) ([], [])
  (if last.isEmpty then done else last.reverse :: done).reverse

/-- The lines of an output, up to the first that is no text. -/
def lines (bytes : ByteArray) : List String :=
  (((cutLines bytes.toList).map fun line => String.fromUTF8? ⟨line.toArray⟩).takeWhile
    Option.isSome).filterMap id

end ShellVM.Shell
