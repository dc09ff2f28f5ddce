import Mathlib.Logic.Function.Basic
import ShellVM.Job.Handle

/-!
# Many clients of one handle

Any number of clients share a handle. A turn of a client is one critical section of what it does (`Turn`); a client
that waits for the end of the process looks again and again, and the others take their turns in between. A handle has
a process (`Turn.of_child`) until somebody records its end, and from then on nothing changes it (`Turn.of_record`). So
the process is disposed of once, whatever the order of the turns (`disposed_exactly_once`).
-/

namespace ShellVM.Handle

/-! ## Turns of the clients -/

inductive Operation where
  | close
  | exit
  | isRunning
  | stop
deriving DecidableEq

/-- What one critical section of an operation comes to. -/
inductive Outcome where
  | looked (look : Look)
  | exit (exit? : Option Exit)
  | running (running : Bool)
  | stopped (result : Except Cause Unit)

/-- Does the operation need another critical section? -/
def Outcome.waits : Outcome → Bool
  | looked .again => true
  | _ => false

def Operation.on (h : Handle) : Operation → Section Outcome
  | close => h.look.map .looked
  | exit => h.exit.map .exit
  | isRunning => h.running.map .running
  | stop => h.halt.map .stopped

structure Shared where
  handle : Handle
  /-- The clients that are between two looks. -/
  waiting : Nat → Bool

/-- A handle that no client has used yet. -/
def Shared.start (h : Handle) : Shared := ⟨h, fun _ => false⟩

/-- What a turn shows. -/
structure Event where
  client : Nat
  operation : Operation
  requests : List Request
  outcome : Outcome

/-- A client takes its turn. One that waits goes on waiting. The system may answer anything. -/
inductive Turn (s : Shared) : Event → Shared → Prop where
  | take (client : Nat) (operation : Operation) (answers : Answers)
      (goesOn : s.waiting client = true → operation = .close) :
      Turn s
        ⟨client, operation, (operation.on s.handle).requests, ((operation.on s.handle).run answers).1⟩
        ⟨((operation.on s.handle).run answers).2,
          Function.update s.waiting client ((operation.on s.handle).run answers).1.waits⟩

/-- Turns in any order, and what they show. -/
inductive Interleaving (s : Shared) : List Event → Shared → Prop where
  | start : Interleaving s [] s
  | turn {events : List Event} {event : Event} {t u : Shared} (before : Interleaving s events t)
      (next : Turn t event u) : Interleaving s (events ++ [event]) u

/-! ## What a turn can do -/

/-- A handle after the end of its process was recorded. -/
def ofExit (program : String) (exit : Exit) : Handle := ⟨program, none, some exit, 1⟩

variable {program : String} {child : Child} {exit : Exit} {s t u : Shared} {event : Event} {events later : List Event}

/-- What an operation can come to while there is a process, and the handle it leaves. -/
inductive Finds (program : String) (child : Child) : Outcome → Handle → Prop where
  | again : Finds program child (.looked .again) (ofChild program child)
  | ended (exit : Exit) : Finds program child (.looked (.ended exit)) (ofExit program exit)
  | failed (message : String) : Finds program child (.looked (.failed (.io message))) (ofChild program child)
  | exit : Finds program child (.exit none) (ofChild program child)
  | running : Finds program child (.running true) (ofChild program child)
  | killed : Finds program child (.stopped (.ok ())) (ofChild program child.kill)
  | endedByItself : Finds program child (.stopped (.ok ())) (ofChild program child)
  | unkilled (message : String) : Finds program child (.stopped (.error (.io message))) (ofChild program child)

theorem Operation.finds (operation : Operation) (answers : Answers) : Finds program child
    ((operation.on (ofChild program child)).run answers).1 ((operation.on (ofChild program child)).run answers).2 := by
  obtain ⟨poll, kill⟩ := answers
  cases operation with
  | close =>
    cases poll with
    | running => exact .again
    | exited exit => exact .ended exit
    | failed message => exact .failed message
  | exit => exact .exit
  | isRunning => exact .running
  | stop =>
    cases kill with
    | done => exact .killed
    | ended => exact .endedByItself
    | failed message => exact .unkilled message

/-- What an operation reads off a record. -/
def Operation.read (exit : Exit) : Operation → Outcome
  | close => .looked (.ended exit)
  | .exit => .exit (some exit)
  | isRunning => .running false
  | stop => .stopped (.ok ())

theorem Operation.on_ofExit (operation : Operation) :
    operation.on (ofExit program exit) = .plain (operation.read exit) (ofExit program exit) := by
  cases operation <;> rfl

theorem Operation.looked_of_read {operation : Operation} {look : Look} (h : operation.read exit = .looked look) :
    look = .ended exit := by
  cases operation <;> cases h
  rfl

theorem Turn.of_child (turn : Turn s event t) (h : s.handle = ofChild program child) :
    Finds program child event.outcome t.handle := by
  obtain ⟨client, operation, answers, -⟩ := turn
  rw [h]
  exact operation.finds answers

/-- Once the end is recorded, a turn changes nothing and asks nothing, and every look reads the record. -/
theorem Turn.of_record (turn : Turn s event t) (h : s.handle = ofExit program exit) :
    t.handle = ofExit program exit ∧ event.requests = [] ∧ ∀ look, event.outcome = .looked look →
    look = .ended exit := by
  obtain ⟨client, operation, answers, -⟩ := turn
  rw [h, operation.on_ofExit]
  exact ⟨rfl, rfl, fun _ => Operation.looked_of_read⟩

/-- As long as there is a process, a turn keeps it or sees it end. -/
theorem Finds.cases {outcome : Outcome} {h : Handle} (finds : Finds program child outcome h) :
    (∃ child', h = ofChild program child' ∧ ∀ exit, outcome ≠ .looked (.ended exit)) ∨
      ∃ exit, h = ofExit program exit ∧ outcome = .looked (.ended exit) := by
  cases finds with
  | ended exit => exact .inr ⟨exit, rfl, rfl⟩
  | killed => exact .inl ⟨child.kill, rfl, nofun⟩
  | _ => exact .inl ⟨child, rfl, nofun⟩

/-- A look that fails has met a failure of the system, and leaves the handle as it is. -/
theorem Finds.of_failed {cause : Cause} {h : Handle} (finds : Finds program child (.looked (.failed cause)) h) :
    h = ofChild program child ∧ ∃ message, cause = .io message := by
  cases finds with
  | failed message => exact ⟨rfl, message, rfl⟩

/-! ## What an interleaving comes to -/

/-- A record lasts, and what comes after it neither asks nor sees anything else. -/
theorem Interleaving.of_record (run : Interleaving s events t) (h : s.handle = ofExit program exit) :
    t.handle = ofExit program exit ∧ ∀ event ∈ events, event.requests = [] := by
  induction run with
  | start => exact ⟨h, by simp⟩
  | turn _ next ih =>
    obtain ⟨hhandle, hrequests, -⟩ := next.of_record ih.1
    refine ⟨hhandle, fun event hevent => ?_⟩
    rcases List.mem_append.1 hevent with hbefore | hlast
    · exact ih.2 event hbefore
    · exact List.mem_singleton.1 hlast ▸ hrequests

/-- There is the process, and nobody has seen it end, or there is a record, and nobody has seen another end. -/
theorem Interleaving.of_child (run : Interleaving (.start (ofChild program child)) events s) :
    (∃ child', s.handle = ofChild program child' ∧ ∀ event ∈ events, ∀ exit, event.outcome ≠ .looked (.ended exit)) ∨
      ∃ exit, s.handle = ofExit program exit ∧
        ∀ event ∈ events, ∀ exit', event.outcome = .looked (.ended exit') → exit' = exit := by
  induction run with
  | start => exact .inl ⟨child, rfl, by simp⟩
  | turn _ next ih =>
    rcases ih with ⟨child', hhandle, hunseen⟩ | ⟨exit, hhandle, hseen⟩
    · rcases (next.of_child hhandle).cases with ⟨child'', hafter, hnot⟩ | ⟨exit, hafter, hended⟩
      · refine .inl ⟨child'', hafter, fun event hevent => ?_⟩
        rcases List.mem_append.1 hevent with hbefore | hlast
        · exact hunseen event hbefore
        · exact List.mem_singleton.1 hlast ▸ hnot
      · -- The first to see the end: nobody before has.
        refine .inr ⟨exit, hafter, fun event hevent exit' hexit => ?_⟩
        rcases List.mem_append.1 hevent with hbefore | hlast
        · exact absurd hexit (hunseen event hbefore exit')
        · rw [List.mem_singleton.1 hlast, hended] at hexit
          cases hexit
          rfl
    · obtain ⟨hafter, -, hlook⟩ := next.of_record hhandle
      refine .inr ⟨exit, hafter, fun event hevent exit' hexit => ?_⟩
      rcases List.mem_append.1 hevent with hbefore | hlast
      · exact hseen event hbefore exit' hexit
      · rw [List.mem_singleton.1 hlast] at hexit
        cases hlook _ hexit
        rfl

/-- However the clients of a handle interleave, it has either its process or the record of how that ended, and has
disposed of the process once just if there is the record. A record lasts: nobody asks the system any more, and whoever
waited for the end read that record. A look that fails leaves the handle as it is. -/
theorem disposed_exactly_once (run : Interleaving (.start (ofChild program child)) events s)
    (rest : Interleaving s later t) : (s.handle.child?.isSome = true ∧ s.handle.exit? = none ∧ s.handle.disposals = 0 ∨
      s.handle.child? = none ∧ s.handle.exit?.isSome = true ∧ s.handle.disposals = 1) ∧
    (∀ exit, s.handle.exit? = some exit → t.handle.exit? = some exit ∧ ∀ event ∈ later, event.requests = []) ∧
    (∀ event ∈ events, ∀ exit, event.outcome = .looked (.ended exit) → s.handle.exit? = some exit) ∧
    ∀ event u, Turn s event u → ∀ cause, event.outcome = .looked (.failed cause) →
      u.handle = s.handle ∧ ∃ message, cause = .io message := by
  rcases run.of_child with ⟨child', hhandle, hunseen⟩ | ⟨exit, hhandle, hseen⟩
  · refine ⟨?_, ?_, fun event hevent exit hexit => absurd hexit (hunseen event hevent exit), ?_⟩
    · rw [hhandle]
      exact .inl ⟨rfl, rfl, rfl⟩
    · rw [hhandle]
      exact nofun
    · intro event u turn cause hfailed
      have hfinds := turn.of_child hhandle
      rw [hfailed] at hfinds
      rw [hhandle]
      exact hfinds.of_failed
  · refine ⟨?_, ?_, ?_, ?_⟩
    · rw [hhandle]
      exact .inr ⟨rfl, rfl, rfl⟩
    · obtain ⟨hafter, hrequests⟩ := rest.of_record hhandle
      rw [hhandle, hafter]
      exact fun exit' hexit => ⟨hexit, hrequests⟩
    · intro event hevent exit' hexit
      rw [hhandle, hseen event hevent exit' hexit]
      rfl
    · intro event u turn cause hfailed
      obtain ⟨-, -, hlook⟩ := turn.of_record hhandle
      cases hlook _ hfailed

/-- A client waits for a process that another one kills, and who comes later reads the same record. -/
theorem disposed_exactly_once_killed : ∃ s t : Shared,
    Interleaving (.start (ofChild "sleep" ⟨[], .ofCode 0, some []⟩))
      [⟨0, .close, [.poll], .looked .again⟩, ⟨1, .stop, [.kill], .stopped (.ok ())⟩,
        ⟨0, .close, [.poll], .looked (.ended (.ofSignal 9))⟩] s ∧
    Interleaving s [⟨1, .close, [], .looked (.ended (.ofSignal 9))⟩] t ∧
    s.handle.exit? = some (.ofSignal 9) ∧ t.handle.exit? = some (.ofSignal 9) := by
  obtain ⟨waiting, ended⟩ : ∃ waiting, Interleaving (.start (ofChild "sleep" ⟨[], .ofCode 0, some []⟩))
      [⟨0, .close, [.poll], .looked .again⟩, ⟨1, .stop, [.kill], .stopped (.ok ())⟩,
        ⟨0, .close, [.poll], .looked (.ended (.ofSignal 9))⟩] ⟨ofExit "sleep" (.ofSignal 9), waiting⟩ := by
    have look := Interleaving.start.turn (s := .start (ofChild "sleep" ⟨[], .ofCode 0, some []⟩))
      (.take 0 .close ⟨.running, .done⟩ fun _ => rfl)
    have kill := look.turn (.take 1 .stop ⟨.running, .done⟩ (by decide))
    exact ⟨_, kill.turn (.take 0 .close ⟨.exited (.ofSignal 9), .done⟩ fun _ => rfl)⟩
  obtain ⟨t, read⟩ : ∃ t, Interleaving ⟨ofExit "sleep" (.ofSignal 9), waiting⟩
      [⟨1, .close, [], .looked (.ended (.ofSignal 9))⟩] t :=
    ⟨_, .turn .start (.take 1 .close ⟨.running, .done⟩ fun _ => rfl)⟩
  obtain ⟨-, hlasts, hseen, -⟩ := disposed_exactly_once ended read
  have hexit := hseen _ (List.mem_of_getLast? rfl) (.ofSignal 9) rfl
  exact ⟨_, t, ended, read, hexit, (hlasts _ hexit).1⟩

end ShellVM.Handle
