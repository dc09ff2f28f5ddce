import ShellVM.Proofs.Alike.Job
import ShellVM.Proofs.Computation

/-!
# Programs outside and the rest of the world

A program outside has a hand in the files, in the streams that there are and in what is written; everything else in
the world is as it was, however an operation on processes ends (`World.Apart`, `run_preserves`).
-/

namespace ShellVM

variable {τ α : Type} {part : World → τ}

/-- A part of the world that the files, the errors that programs write and the states of streams have no bearing on. -/
structure World.Apart (part : World → τ) : Prop where
  files (w : World) (files : Files) : part { w with files := files } = part w
  writeErrors (w : World) (bytes : ByteArray) : part (w.writeErrors bytes) = part w
  setStream (w : World) (a : Addr) (s : Stream) : part (w.setStream a s) = part w

/-- The number of streams has no part in how they are. -/
theorem World.size_apart : World.Apart fun w => w.streams.size :=
  ⟨fun _ _ => rfl, fun _ _ => rfl, fun _ _ _ => Array.size_setIfInBounds⟩

theorem Effect.ofExcept_preserves (e : Except Cause α) : Preserves part (ofExcept e) := by
  cases e with
  | ok a => exact .pure a
  | error cause => exact .throw _

namespace Job

variable (hpart : World.Apart part)

include hpart

theorem onStream_preserves (a : Addr) (f : Stream → Except Fault α × Stream) : Preserves part (onStream a f) := by
  refine .get fun w => ?_
  cases f (w.stream a) with
  | mk result s =>
    dsimp only
    refine Preserves.bind (.modify fun w => hpart.setStream w a s) fun _ => ?_
    cases result with
    | ok v => exact .pure v
    | error fault => exact .throw fault

section Feed

variable {feed : Addr → Effect (List String)}

theorem behaviour_preserves (hfeed : ∀ a, Preserves part (feed a)) (call : ProgramCall) :
    Preserves part (behaviour feed call) := by
  refine .get fun w => (Effect.ofExcept_preserves _).bind fun program => ?_
  have hrun (input : String) : Preserves part (show Effect Shell.Behaviour from do
      let w ← get
      let b := w.system.behaviour w.files program (Raw.ofText call.program) (call.arguments.map Raw.ofText)
        (settings call) (Raw.ofText input).toList
      modify fun w => { w with files := b.files }
      return b) := .get fun _ => Preserves.bind (.modify fun w => hpart.files w _) fun _ => .pure _
  dsimp only
  split
  · exact (Preserves.pure _).bind hrun
  · exact (Preserves.pure _).bind hrun
  · exact (Preserves.pure _).bind hrun
  · exact (hfeed _).map.bind hrun

theorem startWith_preserves (hfeed : ∀ a, Preserves part (feed a)) (call : ProgramCall) (withErrors : Bool) :
    Preserves part (startWith feed call withErrors) := by
  refine (behaviour_preserves hpart hfeed call).bind fun b => ?_
  split
  · exact .pure _
  · exact Preserves.bind (.modify fun w => hpart.writeErrors w _) fun _ => .pure _

theorem wakeWith_preserves (hfeed : ∀ a, Preserves part (feed a)) (a : Addr) : Preserves part (wakeWith feed a) := by
  refine .get fun w => ?_
  dsimp only
  split
  · exact (startWith_preserves hpart hfeed _ _).bind fun _ => .modify fun w => hpart.setStream w a _
  · exact .pure _

end Feed

theorem feed_preserves (depth : Nat) (a : Addr) : Preserves part (feed depth a) := by
  induction depth generalizing a with
  | zero => exact .pure _
  | succ depth ih =>
    have hread : Preserves part (show Effect Unit from do wakeWith (feed depth) a; let _ ← onStream a Stream.drain) :=
      (wakeWith_preserves hpart ih a).bind fun _ => (onStream_preserves hpart a _).bind fun _ => .pure _
    exact (Preserves.tryCatch hread fun _ => .pure ()).bind fun _ => .get fun _ => .pure _

theorem feeder_preserves (a : Addr) : Preserves part (feeder a) := .get fun _ => feed_preserves hpart _ a

theorem start_preserves (call : ProgramCall) (withErrors : Bool) : Preserves part (start call withErrors) :=
  startWith_preserves hpart (feeder_preserves hpart) call withErrors

theorem wake_preserves (a : Addr) : Preserves part (wake a) := wakeWith_preserves hpart (feeder_preserves hpart) a

theorem pull_preserves (a : Addr) (index : Nat) : Preserves part (pull a index) := by
  refine .get fun w => ?_
  split
  · exact .pure _
  · exact (wake_preserves hpart a).bind fun _ => onStream_preserves hpart a _

theorem lines_preserves (a : Addr) : Preserves part (lines a) :=
  (wake_preserves hpart a).bind fun _ => onStream_preserves hpart a _

theorem succeeded_preserves (a : Addr) : Preserves part (succeeded a) := by
  have hwait : Preserves part (wait a) := (wake_preserves hpart a).bind fun _ => onStream_preserves hpart a _
  intro w
  have hw := hwait w
  rw [succeeded_eq]
  cases hresult : wait a w with
  | ok exit w' => rwa [hresult] at hw
  | error e w' => rwa [hresult] at hw

/-- A program call makes a stream at most, and writes to the terminal only in root position. -/
theorem run_preserves {call : ProgramCall} {flags : CallFlags} {root : Bool}
    (hnew : ∀ w s, part { w with streams := w.streams.push s } = part w)
    (hwrite : (root && !flags.contains .stdout) = true → ∀ w bytes, part (w.write bytes) = part w) :
    Preserves part (run call flags root) := by
  have hstream (s : Stream) : Preserves part (Effect.newStream s) := .modifyGet fun w => hnew w s
  unfold run
  dsimp only
  split
  · next hroot =>
    refine (behaviour_preserves hpart (feeder_preserves hpart) call).bind fun b =>
      Preserves.bind (.modify fun w => ?_) fun _ => ?_
    · exact (hpart.writeErrors _ _).trans (hwrite hroot w _)
    · split
      · exact .pure _
      · split
        · exact .throw _
        · exact .pure _
  · split
    · exact (hstream _).bind fun _ => .pure _
    · refine (start_preserves hpart call _).bind fun child => (hstream _).bind fun a => ?_
      split
      · exact (lines_preserves hpart a).bind fun _ => .pure _
      · exact .pure _

end Job

end ShellVM
