import ShellVM.Proofs.Job.Effect

/-!
# Uses of a stream

What a client can do with a stream (`Usage`), and the row of occasions that come of it (`occasions`): each use finds
the world as the one before has left it, also after a use that failed. All reading wakes the stream and then carries
out one step of its protocol (`wake_onStream`).
-/

namespace ShellVM

namespace Stream

/-! ## Uses and occasions -/

inductive Usage where
  | pull (index : Nat)
  | lines
  | wait
  | succeeded
  | isFinished
  | display
  | stop
deriving DecidableEq

/-- What a use gives. -/
inductive Answer where
  | line (line? : Option String)
  | lines (lines : List String)
  | exit (exit : Exit)
  | flag (flag : Bool)
  | text (text : String)
  | done
deriving DecidableEq

/-- One use, and the worlds that it found and left. -/
structure Occasion where
  use : Usage
  before : World
  answer : Except Fault Answer
  after : World

/-- How far a stream has come: not started, running or finished. -/
def stage (s : Stream) : Nat :=
  match s.source with
  | .pending .. => 0
  | .running _ => 1
  | .finished _ => 2

theorem stage_le (s : Stream) : s.stage ≤ if s.isFinished then 2 else 1 := by
  obtain ⟨program, raiseOnExit, lines, source⟩ := s
  cases source with
  | pending call withErrors => exact Nat.zero_le _
  | running child => exact Nat.le_refl 1
  | finished exit? => exact Nat.le_refl 2

namespace Usage

def on (a : Addr) : Usage → Effect Answer
  | pull index => do return .line (← Job.pull a index)
  | lines => do return .lines (← Job.lines a)
  | wait => do return .exit (← Job.wait a)
  | succeeded => do return .flag (← Job.succeeded a)
  | isFinished => do return .flag ((← get).stream a).isFinished
  | display => do return .text ((← get).stream a).render
  | stop => do
    Job.stop a
    return .done

def occur (a : Addr) (w : World) (use : Usage) : Occasion :=
  match use.on a w with
  | .ok answer w' => ⟨use, w, .ok answer, w'⟩
  | .error fault w' => ⟨use, w, .error fault, w'⟩

end Usage

/-- The occasions of a row of uses. -/
def occasions (a : Addr) : World → List Usage → List Occasion
  | _, [] => []
  | w, use :: uses => use.occur a w :: occasions a (use.occur a w).after uses

end Stream

/-! ## The stream at an address -/

namespace World

variable {w : World} {a : Addr} {s : Stream}

theorem stream_setStream (h : a < w.streams.size) (s : Stream) : (w.setStream a s).stream a = s := by
  simp [stream, setStream, h]

theorem setStream_stream (w : World) (a : Addr) : w.setStream a (w.stream a) = w := by
  have hsame : w.streams.setIfInBounds a (w.stream a) = w.streams := by
    by_cases h : a < w.streams.size
    · simp [stream, Array.getD, Array.setIfInBounds, h]
    · exact Array.setIfInBounds_eq_of_size_le (Nat.le_of_not_lt h)
  exact congrArg (fun streams => { w with streams }) hsame

theorem size_setStream (w : World) (a : Addr) (s : Stream) : (w.setStream a s).streams.size = w.streams.size :=
  Array.size_setIfInBounds

end World

namespace Job

variable {α : Type} {a : Addr} {w : World} {call : ProgramCall} {withErrors : Bool}

/-- The outcome of a step that came to `result` and left the world `w`. -/
def outcome (w : World) : Except Fault α → EStateM.Result Fault World α
  | .ok v => .ok v w
  | .error fault => .error fault w

theorem onStream_eq (a : Addr) (f : Stream → Except Fault α × Stream) (w : World) :
    onStream a f w = outcome (w.setStream a (f (w.stream a)).2) (f (w.stream a)).1 := by
  unfold onStream
  rw [get_bind_run]
  cases f (w.stream a) with
  | mk result s =>
    cases result with
    | ok v => rfl
    | error fault => rfl

/-- A stream that has left its pending state needs no waking. -/
theorem wake_eq (h : ∀ call withErrors, (w.stream a).source ≠ .pending call withErrors) : wake a w = .ok () w := by
  unfold wake wakeWith
  rw [get_bind_run]
  cases hsource : (w.stream a).source with
  | pending call withErrors => exact absurd hsource (h call withErrors)
  | running child => rfl
  | finished exit? => rfl

/-- A line that has been read is there without waking the stream. -/
theorem pull_read {index : Nat} {line : String} (h : (w.stream a).lines[index]? = some line) :
    pull a index w = outcome w (.ok (some line)) := by
  unfold pull
  rw [get_bind_run, h]
  rfl

theorem pull_unread {index : Nat} (h : (w.stream a).lines[index]? = none) :
    pull a index w = (do wake a; onStream a (·.pull index) : Effect (Option String)) w := by
  unfold pull
  rw [get_bind_run, h]

theorem wake_pending (h : (w.stream a).source = .pending call withErrors) : wake a w =
    match start call withErrors w with
    | .ok child w' => .ok () (w'.setStream a { w.stream a with source := .running child })
    | .error fault w' => .error fault w' := by
  unfold wake wakeWith
  rw [get_bind_run]
  rw [h]
  show EStateM.bind (start call withErrors) _ w = _
  unfold EStateM.bind
  cases start call withErrors w with
  | ok child w' => rfl
  | error fault w' => rfl

/-- Starting a program makes no stream. -/
theorem start_size {child : Child} {w' : World} (h : start call withErrors w = .ok child w') :
    w'.streams.size = w.streams.size := by
  have hsize := start_preserves World.size_apart call withErrors w
  rwa [h] at hsize

end Job

namespace Stream.Usage

variable {α : Type} {a : Addr} {w w' : World}

/-- A use that does what `m` does, and gives the result of `m` seen by `g`. -/
theorem occur_of {use : Usage} {m : Effect α} {g : α → Answer} (hon : use.on a = do return g (← m)) {r : Except Fault α}
    (h : m w = Job.outcome w' r) : use.occur a w = ⟨use, w, r.map g, w'⟩ := by
  have hw : use.on a w = Job.outcome w' (r.map g) := by
    rw [hon]
    show EStateM.bind m _ w = _
    unfold EStateM.bind
    rw [h]
    cases r with
    | ok v => rfl
    | error fault => rfl
  unfold occur
  rw [hw]
  cases r with
  | ok v => rfl
  | error fault => rfl

theorem occur_before (a : Addr) (w : World) (use : Usage) : (use.occur a w).before = w := by
  unfold occur
  cases use.on a w with
  | ok answer w' => rfl
  | error fault w' => rfl

theorem occur_use (a : Addr) (w : World) (use : Usage) : (use.occur a w).use = use := by
  unfold occur
  cases use.on a w with
  | ok answer w' => rfl
  | error fault w' => rfl

theorem occur_pull {index : Nat} {r : Except Fault (Option String)} (h : Job.pull a index w = Job.outcome w' r) :
    (pull index).occur a w = ⟨pull index, w, r.map .line, w'⟩ := occur_of rfl h

theorem occur_lines {r : Except Fault (List String)} (h : Job.lines a w = Job.outcome w' r) :
    lines.occur a w = ⟨lines, w, r.map .lines, w'⟩ := occur_of rfl h

theorem occur_wait {r : Except Fault Exit} (h : Job.wait a w = Job.outcome w' r) :
    wait.occur a w = ⟨wait, w, r.map .exit, w'⟩ := occur_of rfl h

theorem occur_succeeded {r : Except Fault Bool} (h : Job.succeeded a w = Job.outcome w' r) :
    succeeded.occur a w = ⟨succeeded, w, r.map .flag, w'⟩ := occur_of rfl h

end Stream.Usage

end ShellVM
