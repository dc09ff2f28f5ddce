import ShellVM.World

/-!
# Starting processes

A pending stream starts its program when its output is first asked for. What is piped into a program
is read in full when the program starts; if that is another stream, it is drained first, and its
failure only ends the feeding. A stream can only be fed by an older one, so the number of streams
bounds how far starting one reaches.
-/

namespace ShellVM

/-- Does a text hold the character that no argument of a program can hold? -/
def hasNul (s : String) : Bool := s.any (· == '\x00')

def ProgramCall.hasNul (call : ProgramCall) : Bool :=
  ShellVM.hasNul call.program || call.arguments.any ShellVM.hasNul ||
    call.environment.any fun (k, v) => ShellVM.hasNul k || ShellVM.hasNul v

namespace Job

def joinLines (ls : List String) : String := ls.foldl (fun text l => text ++ l ++ "\n") ""

/-- The program that a call starts, or why it does not. A search path among the settings of the call
counts already for finding it. -/
def programFor (system : System) (files : Files) (call : ProgramCall) : Except Cause String :=
  let name := Raw.ofText call.program
  let path := ((call.environment.reverse.lookup "PATH").map Raw.ofText).getD Files.searchPath
  let settings := call.environment.map fun (k, v) => Raw.ofText (k ++ "=" ++ v)
  if call.hasNul then .error (.io "nul byte found in provided data")
  else
    match system.find files name path (call.arguments.map Raw.ofText) settings with
    | .error .notFound => .error (.programNotFound call.program)
    | .error refusal => .error (.io refusal.message)
    | .ok program => .ok program

/-- The settings of a call as programs see them: a name ends at the first equals sign. -/
def settings (call : ProgramCall) : List (String × String) :=
  call.environment.map fun (k, v) =>
    let text := (Raw.ofText (k ++ "=" ++ v)).toList
    let name := text.takeWhile (· != '=')
    (String.ofList name, String.ofList (text.drop (name.length + 1)))

/-- Runs the program of a call to its end. `feed` reads another stream. -/
def behaviour (feed : Addr → Effect (List String)) (call : ProgramCall) : Effect Shell.Behaviour := do
  let w ← get
  let program ← Effect.ofExcept (programFor w.system w.files call)
  let input ← match call.piped? with
    | none => pure ""
    | some (.text s) => pure (s ++ "\n")
    | some (.lines ls) => pure (joinLines ls)
    | some (.stream a) => joinLines <$> feed a
  let w ← get
  let b := w.system.behaviour w.files program (Raw.ofText call.program) (call.arguments.map Raw.ofText)
    (settings call) (Raw.ofText input).toList
  modify fun w => { w with files := b.files }
  return b

/-- Starts a program whose output is captured. -/
def startWith (feed : Addr → Effect (List String)) (call : ProgramCall) (withErrors : Bool) :
    Effect Child := do
  let b ← behaviour feed call
  if withErrors then
    return ⟨Shell.lines b.output ++ Shell.lines b.errors, b.exit, b.beforeSleep?.map Shell.lines⟩
  else
    modify (·.writeErrors b.errors)
    return ⟨Shell.lines b.output, b.exit, b.beforeSleep?.map Shell.lines⟩

/-- Starts the program of a stream that is still pending. -/
def wakeWith (feed : Addr → Effect (List String)) (a : Addr) : Effect Unit := do
  let s := (← get).stream a
  match s.source with
  | .pending call withErrors =>
    let child ← startWith feed call withErrors
    modify (·.setStream a { s with source := .running child })
  | _ => pure ()

/-- Carries out one step of the protocol of a stream. -/
def onStream {α : Type} (a : Addr) (f : Stream → Except Fault α × Stream) : Effect α := do
  let (result, s) := f ((← get).stream a)
  modify (·.setStream a s)
  match result with
  | .ok v => pure v
  | .error fault => throw fault

/-- The lines that a stream has to feed to another program. -/
def feed : (depth : Nat) → Addr → Effect (List String)
  | 0, _ => pure []
  | depth + 1, a => do
    try
      wakeWith (feed depth) a
      let _ ← onStream a Stream.drain
    catch _ => pure ()
    return (← get).stream a |>.lines.toList

def feeder (a : Addr) : Effect (List String) := do
  feed (← get).streams.size a

def wake (a : Addr) : Effect Unit := wakeWith feeder a

def start (call : ProgramCall) (withErrors : Bool) : Effect Child := startWith feeder call withErrors

/-! ## Operations on a stream -/

/-- The line at `index`, reading as far as needed. -/
def pull (a : Addr) (index : Nat) : Effect (Option String) := do
  match ((← get).stream a).lines[index]? with
  | some line => pure (some line)
  | none =>
    wake a
    onStream a (·.pull index)

def lines (a : Addr) : Effect (List String) := do
  wake a
  onStream a Stream.drain

def wait (a : Addr) : Effect Exit := do
  wake a
  onStream a Stream.wait

def succeeded (a : Addr) : Effect Bool := do
  try return (← wait a).isSuccess
  catch _ => return false

def stop (a : Addr) : Effect Unit := modify fun w => w.setStream a (w.stream a).stop

/-! ## Program calls -/

/-- Carries out a program call. In root position the program writes to the terminal and the call
gives nil; elsewhere the call gives a stream of the output. Unless it is told not to, the call reads
the stream to its end, so that an unsuccessful program fails here. -/
def run (call : ProgramCall) (flags : CallFlags) (root : Bool) : Effect Value := do
  let background := flags.contains .background
  let withErrors := flags.contains .stderr
  if root && !flags.contains .stdout then
    let b ← behaviour feeder call
    modify fun w => (w.write b.output).writeErrors b.errors
    if background then return .nil
    match b.exit.failure? call.program with
    | some cause => Effect.fail cause
    | none => return .nil
  else if !flags.contains .autostart && !background then
    let a ← Effect.newStream ⟨call.program, true, #[], .pending call withErrors⟩
    return .stream a
  else
    let child ← start call withErrors
    let a ← Effect.newStream ⟨call.program, !background, #[], .running child⟩
    if !background && !flags.contains .unbuffered then
      let _ ← lines a
    return .stream a

end Job

end ShellVM
