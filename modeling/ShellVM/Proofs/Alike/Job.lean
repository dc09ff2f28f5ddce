import ShellVM.Proofs.Alike.Effect
import ShellVM.Proofs.Computation
import ShellVM.Job.Start

/-!
# Processes and worlds that are alike

Programs outside see the files and the streams only, which alike worlds share. So every operation on processes does the
same on both. Waiting for a process may break a rule of the machine, but nothing sees that: whoever waits asks only
whether the process succeeded.
-/

namespace ShellVM

variable {V : View}

/-! ## Streams -/

namespace Stream


theorem failure?_plain {e : Exit} {program : String} {cause : Cause} (h : e.failure? program = some cause) :
    cause.isPlain := by
  unfold Exit.failure? at h
  split at h
  · cases h
  · split at h
    all_goals
      cases h
      rfl

theorem advance_plain {s : Stream} {fault : Fault} (h : s.advance.1 = .error fault) : fault.cause.isPlain := by
  unfold advance at h
  split at h
  · split at h
    · cases h
    · dsimp only at h
      split at h
      · next hc =>
        cases h
        split at hc
        · exact failure?_plain hc
        · cases hc
      · cases h
  · cases h

theorem readTo_plain {index : Nat} {fault : Fault} : ∀ {fuel : Nat} {s : Stream},
    (readTo index fuel s).1 = .error fault → fault.cause.isPlain
  | 0, s, h => by cases h
  | fuel + 1, s, h => by
    unfold readTo at h
    split at h
    · cases h
    · split at h
      · exact readTo_plain h
      · cases h
      · next hs =>
        cases h
        exact advance_plain (congrArg Prod.fst hs)

theorem readAll_plain {fault : Fault} : ∀ {fuel : Nat} {s : Stream},
    (readAll fuel s).1 = .error fault → fault.cause.isPlain
  | 0, s, h => by cases h
  | fuel + 1, s, h => by
    unfold readAll at h
    split at h
    · exact readAll_plain h
    · cases h
    · next hs =>
      cases h
      exact advance_plain (congrArg Prod.fst hs)

theorem pull_plain {s : Stream} {index : Nat} {fault : Fault} (h : (s.pull index).1 = .error fault) :
    fault.cause.isPlain := by
  unfold pull at h
  split at h
  · cases h
  · next hs =>
    cases h
    exact readTo_plain (congrArg Prod.fst hs)

theorem drain_plain {s : Stream} {fault : Fault} (h : s.drain.1 = .error fault) : fault.cause.isPlain := by
  unfold drain at h
  split at h
  · cases h
  · next hs =>
    cases h
    exact readAll_plain (congrArg Prod.fst hs)

end Stream

namespace Job

/-- A step of the protocol of a stream, whatever its failures are. -/
theorem onStream_lockstep {α : Type} (a : Addr) (f : Stream → Except Fault α × Stream) :
    Lockstep (World.Alike V) (onStream a f) (onStream a f) (fun x y w w' => y = x ∧ w.Alike V w')
      fun e e' w w' => (e' = e ∧ ∃ s, (f s).1 = .error e) ∧ w.Alike V w' := by
  intro w w' hw
  have hmodify (g : World → World) (u : World) : (modify g : Effect PUnit) u = .ok ⟨⟩ (g u) := rfl
  unfold onStream
  rw [get_bind_run, get_bind_run, hw.stream]
  cases hf : f (w.stream a) with
  | mk result s =>
    dsimp only
    rw [bind_run_ok (hmodify _ _), bind_run_ok (hmodify _ _)]
    cases result with
    | ok x => exact ⟨rfl, hw.setStream a s⟩
    | error e => exact ⟨⟨rfl, _, by rw [hf]⟩, hw.setStream a s⟩

theorem onStream_agrees {α : Type} (a : Addr) {f : Stream → Except Fault α × Stream}
    (hf : ∀ s e, (f s).1 = .error e → e.cause.isPlain) : Agrees V Eq (onStream a f) (onStream a f) :=
  (onStream_lockstep a f).weaken (fun _ _ hw => hw) (fun _ _ _ _ h => ⟨h.1.symm, h.2⟩)
    fun _ _ _ _ ⟨⟨h, s, hs⟩, hw⟩ => ⟨⟨h, hf s _ hs⟩, hw⟩

/-! ## Starting programs -/

theorem programFor_plain (system : System) (files : Files) (call : ProgramCall) :
    Plainly (programFor system files call) := by
  intro cause h
  unfold programFor at h
  dsimp only at h
  split at h
  · cases h
    rfl
  · split at h
    · cases h
      rfl
    · cases h
      rfl
    · cases h

section Feed

variable {feed : Addr → Effect (List String)}

theorem behaviour_agrees (hfeed : ∀ a, Agrees V Eq (feed a) (feed a)) (call : ProgramCall) :
    Agrees V Eq (behaviour feed call) (behaviour feed call) := by
  unfold behaviour
  refine .get fun w w' hw => ?_
  rw [hw.files, hw.system]
  refine (Agrees.ofExcept (programFor_plain _ _ _)).bind ?_
  rintro program _ rfl
  have hrest : ∀ input input', input = input' → Agrees V Eq
      (do
        let w ← get
        let b := w.system.behaviour w.files program (Raw.ofText call.program) (call.arguments.map Raw.ofText)
          (settings call) (Raw.ofText input).toList
        modify fun w => { w with files := b.files }
        return b)
      (do
        let w ← get
        let b := w.system.behaviour w.files program (Raw.ofText call.program) (call.arguments.map Raw.ofText)
          (settings call) (Raw.ofText input').toList
        modify fun w => { w with files := b.files }
        return b) := by
    rintro input _ rfl
    refine .get fun w w' hw => ?_
    rw [hw.files, hw.system]
    refine (Agrees.modify fun w w' hw => ?_).bind fun _ _ _ => .pure rfl
    exact { hw with files := rfl }
  dsimp only
  split
  · exact (Agrees.pure rfl).bind hrest
  · exact (Agrees.pure rfl).bind hrest
  · exact (Agrees.pure rfl).bind hrest
  · exact ((hfeed _).map fun _ _ h => by rw [h]).bind hrest

theorem startWith_agrees (hfeed : ∀ a, Agrees V Eq (feed a) (feed a)) (call : ProgramCall) (withErrors : Bool) :
    Agrees V Eq (startWith feed call withErrors) (startWith feed call withErrors) := by
  unfold startWith
  refine (behaviour_agrees hfeed call).bind ?_
  rintro b _ rfl
  split
  · exact .pure rfl
  · exact (Agrees.modify fun w w' hw => hw.writeErrors _).bind fun _ _ _ => .pure rfl

theorem wakeWith_agrees (hfeed : ∀ a, Agrees V Eq (feed a) (feed a)) (a : Addr) :
    Agrees V Eq (wakeWith feed a) (wakeWith feed a) := by
  unfold wakeWith
  refine .get fun w w' hw => ?_
  rw [hw.stream]
  dsimp only
  split
  · refine (startWith_agrees hfeed _ _).bind ?_
    rintro child _ rfl
    exact .modify fun w w' hw => hw.setStream a _
  · exact .pure rfl

end Feed

theorem feed_agrees : ∀ (depth : Nat) (a : Addr), Agrees V Eq (feed depth a) (feed depth a)
  | 0, _ => .pure rfl
  | depth + 1, a => by
    unfold feed
    have hread : Agrees V Eq (do wakeWith (feed depth) a; let _ ← onStream a Stream.drain)
        (do wakeWith (feed depth) a; let _ ← onStream a Stream.drain) :=
      (wakeWith_agrees (feed_agrees depth) a).bind fun _ _ _ =>
        (onStream_agrees a fun _ _ => Stream.drain_plain).bind fun _ _ _ => .pure rfl
    -- a failure of the stream only ends the feeding
    have hcaught : Agrees V Eq
        (tryCatch (do wakeWith (feed depth) a; let _ ← onStream a Stream.drain) fun _ => Pure.pure ())
        (tryCatch (do wakeWith (feed depth) a; let _ ← onStream a Stream.drain) fun _ => Pure.pure ()) :=
      Lockstep.tryCatch hread fun e f => Lockstep.pure fun w w' hw => ⟨rfl, hw.2⟩
    refine hcaught.bind fun _ _ _ => .get fun w w' hw => ?_
    rw [hw.stream]
    exact .pure rfl

theorem feeder_agrees (a : Addr) : Agrees V Eq (feeder a) (feeder a) := by
  unfold feeder
  refine .get fun w w' hw => ?_
  rw [hw.streams]
  exact feed_agrees _ a

theorem wake_agrees (a : Addr) : Agrees V Eq (wake a) (wake a) := wakeWith_agrees feeder_agrees a

/-! ## Operations on a stream -/

theorem pull_agrees (a : Addr) (index : Nat) : Agrees V Eq (pull a index) (pull a index) := by
  unfold pull
  refine .get fun w w' hw => ?_
  rw [hw.stream]
  split
  · exact .pure rfl
  · exact (wake_agrees a).bind fun _ _ _ => onStream_agrees a fun _ _ => Stream.pull_plain

theorem lines_agrees (a : Addr) : Agrees V Eq (lines a) (lines a) :=
  (wake_agrees a).bind fun _ _ _ => onStream_agrees a fun _ _ => Stream.drain_plain

/-- What is asked of a process that is waited for. -/
theorem succeeded_eq (a : Addr) (w : World) : succeeded a w = match wait a w with
    | .ok exit w => .ok exit.isSuccess w
    | .error _ w => .ok false w := by
  show EStateM.bind (EStateM.tryCatch (wait a >>= _) _) _ w = _
  unfold EStateM.bind EStateM.tryCatch
  cases hwait : wait a w with
  | ok exit w' =>
    rw [bind_run_ok hwait]
    rfl
  | error e w' =>
    rw [bind_run_error hwait]
    rfl

theorem succeeded_agrees (a : Addr) : Agrees V Eq (succeeded a) (succeeded a) := by
  have hwait : Lockstep (World.Alike V) (wait a) (wait a) (fun x y w w' => y = x ∧ w.Alike V w')
      fun _ _ w w' => w.Alike V w' := by
    have hwake := (wake_agrees (V := V) a).weaken (fun _ _ hw => hw) (fun _ _ _ _ h => h.2) fun _ _ _ _ h => h.2
    exact hwake.bind fun _ _ =>
      (onStream_lockstep a Stream.wait).weaken (fun _ _ hw => hw) (fun _ _ _ _ h => h) fun _ _ _ _ h => h.2
  intro w w' hw
  rw [succeeded_eq, succeeded_eq]
  rcases hwait.cases hw with ⟨x, _, w₁, w₂, h₁, h₂, rfl, hw'⟩ | ⟨e, f, w₁, w₂, h₁, h₂, hw'⟩
  · rw [h₁, h₂]
    exact ⟨rfl, hw'⟩
  · rw [h₁, h₂]
    exact ⟨rfl, hw'⟩

/-! ## Program calls -/

theorem run_agrees (call : ProgramCall) (flags : CallFlags) (root : Bool) :
    Agrees V (Value.Alike V) (run call flags root) (run call flags root) := by
  unfold run
  dsimp only
  split
  · refine (behaviour_agrees feeder_agrees call).bind ?_
    rintro b _ rfl
    refine (Agrees.modify fun w w' hw => (hw.write _).writeErrors _).bind fun _ _ _ => ?_
    split
    · exact .pure rfl
    · split
      · next h => exact .fail (Stream.failure?_plain h)
      · exact .pure rfl
  · split
    · refine (Agrees.newStream _).bind ?_
      rintro a _ rfl
      exact .pure rfl
    · refine (startWith_agrees feeder_agrees call _).bind ?_
      rintro child _ rfl
      refine (Agrees.newStream _).bind ?_
      rintro a _ rfl
      split
      · exact (lines_agrees a).bind fun _ _ _ => .pure rfl
      · exact .pure rfl

end Job

end ShellVM
