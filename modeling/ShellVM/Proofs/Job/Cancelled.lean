import ShellVM.Proofs.Job.Protocol

/-!
# Streams that are stopped

Stopping a running process changes how its script ends, and a finished stream stays as it is (`Script.Underway.stop`).
A stream that is stopped before its process starts is cancelled: it has no record of how it ended, so that whoever
waits for it breaks a rule of the machine (`cancelled_occur`). No other use of a stream does
(`breaks_iff_waits_for_cancelled`).
-/

namespace ShellVM

open ShellVM.Stream (Usage Answer Occasion occasions)

variable {S : Script} {s : Stream} {a : Addr} {w : World}

/-! ## What uses do when a stream may be stopped -/

namespace Stream

namespace Occasion

/-- The use breaks a rule of the machine. -/
def Breaks (o : Occasion) : Prop := ∃ fault breach, o.answer = .error fault ∧ fault.cause = .internal breach

/-- The stream is stopped before its process has started. -/
def Cancels (a : Addr) (o : Occasion) : Prop := o.use = .stop ∧ ∃ call withErrors,
    (o.before.stream a).source = .pending call withErrors

theorem not_breaks_of_ok {o : Occasion} {v : Answer} (h : o.answer = .ok v) : ¬o.Breaks := by
  rintro ⟨fault, breach, hfault, -⟩
  rw [h] at hfault
  cases hfault

end Occasion

/-- The streams that programs get: the process runs, or the first read will start it, or the lines are given. -/
inductive Made (a : Addr) (w : World) : Prop where
  | started {program : String} {raises : Bool} {child : Child}
      (stream : w.stream a = ⟨program, raises, #[], .running child⟩)
  | deferred {program : String} {raises : Bool} {call : ProgramCall} {withErrors : Bool} {child : Child} {w' : World}
      (stream : w.stream a = ⟨program, raises, #[], .pending call withErrors⟩)
      (starts : Job.start call withErrors w = .ok child w')
  | ofLines {program : String} {lines : List String} (stream : w.stream a = .ofLines program lines)

theorem Made.plays (h : Made a w) : ∃ S : Script, S.Plays a w := by
  cases h with
  | @started program raises child stream =>
    exact ⟨⟨program, raises, child.pending, child.exit⟩, (Script.Begins.started stream rfl rfl).plays⟩
  | @deferred program raises call withErrors child w' stream starts =>
    exact ⟨⟨program, raises, child.pending, child.exit⟩, .deferred stream starts rfl rfl⟩
  | @ofLines program lines stream => exact ⟨⟨program, false, lines, .ofCode 0⟩, .underway (stream ▸ .finished)⟩

end Stream

namespace Script

/-- The failure of a process breaks no rule. -/
theorem Obeys.not_breaks {o : Occasion} (h : S.Obeys a o) : ¬o.Breaks := by
  rintro ⟨fault, breach, hfault, hbreach⟩
  have hanswer := h.answer.symm.trans hfault
  have hends (v : Answer) : S.atEnd (o.before.stream a).isFinished v ≠ .error fault := by
    intro hv
    unfold atEnd at hv
    split at hv
    · next cause hcause =>
      split at hcause
      · cases hcause
      · unfold failure? at hcause
        split at hcause
        · have hplain := Stream.failure?_plain hcause
          cases hv
          rw [show (Fault.ofCause cause).cause = cause from rfl] at hbreach
          rw [hbreach] at hplain
          cases hplain
        · cases hcause
    · cases hv
  revert hanswer
  cases o.use with
  | pull index =>
    unfold Script.answer
    dsimp only
    split
    · exact nofun
    · exact hends _
  | lines => exact hends _
  | _ => exact nofun

/-- A process that is killed ends another way, and a finished stream stays as it is. -/
theorem Underway.stop (h : S.Underway s) : ∃ S' : Script, S'.Underway s.stop := by
  cases h with
  | @running read child lines exit =>
    exact ⟨⟨S.program, S.raises, read.toList ++ child.kill.pending, child.kill.exit⟩, .running rfl rfl⟩
  | finished => exact ⟨S, .finished⟩

end Script

namespace Stream

/-! ## Cancelled streams -/

/-- Reading a cancelled stream leaves everything as it is. -/
theorem cancelled_reads {α : Type} (h : (w.stream a).source = .finished none) {f : Stream → Except Fault α × Stream}
    {r : Except Fault α} (hf : f (w.stream a) = (r, w.stream a)) :
    (do Job.wake a; Job.onStream a f : Effect α) w = Job.outcome w r := by
  rw [bind_run_ok (Job.wake_eq (by rw [h]; exact nofun))]
  rw [Job.onStream_eq, hf, World.setStream_stream]

theorem readAll_finished {exit? : Option Exit} (h : s.source = .finished exit?) (n : Nat) :
    readAll n s = (.ok (), s) := by
  cases n with
  | zero => rfl
  | succ n =>
    unfold readAll advance
    rw [h]

theorem remaining_finished {exit? : Option Exit} (h : s.source = .finished exit?) : s.remaining = 0 := by
  unfold remaining
  rw [h]

/-- A cancelled stream stays as it is, and only waiting for it breaks a rule. -/
theorem cancelled_occur (h : (w.stream a).source = .finished none) (use : Usage) :
    (use.occur a w).after = w ∧ ((use.occur a w).Breaks ↔ use = .wait) := by
  have hwait : (w.stream a).wait = (.error (.ofBreach (.noExit (w.stream a).program)), w.stream a) := by
    unfold wait
    rw [readAll_finished h]
    dsimp only
    rw [h]
  have hquiet {use : Usage} {v : Answer} (huse : use ≠ .wait) (hoccur : use.occur a w = ⟨use, w, .ok v, w⟩) :
      (use.occur a w).after = w ∧ ((use.occur a w).Breaks ↔ use = .wait) := by
    rw [hoccur]
    exact ⟨rfl, fun hbreaks => absurd hbreaks (Occasion.not_breaks_of_ok rfl), fun hwaits => absurd hwaits huse⟩
  cases use with
  | pull index =>
    cases hline : (w.stream a).lines[index]? with
    | some line => exact hquiet nofun (Usage.occur_pull (Job.pull_read hline))
    | none =>
      have hpull : (w.stream a).pull index = (.ok (w.stream a).lines[index]?, w.stream a) := by
        unfold pull
        rw [remaining_finished h]
        rfl
      refine hquiet nofun (Usage.occur_pull (r := .ok (w.stream a).lines[index]?) ?_)
      rw [Job.pull_unread hline]
      exact cancelled_reads h hpull
  | lines =>
    have hdrain : (w.stream a).drain = (.ok (w.stream a).lines.toList, w.stream a) := by
      unfold drain
      rw [readAll_finished h]
    exact hquiet nofun (Usage.occur_lines (cancelled_reads h hdrain))
  | wait =>
    rw [Usage.occur_wait (cancelled_reads h hwait)]
    exact ⟨rfl, fun _ => rfl, fun _ => ⟨_, _, rfl, rfl⟩⟩
  | succeeded =>
    refine hquiet nofun (Usage.occur_succeeded (r := .ok false) ?_)
    rw [Job.succeeded_eq, show Job.wait a w = _ from cancelled_reads h hwait]
    rfl
  | isFinished => exact hquiet nofun rfl
  | display => exact hquiet nofun rfl
  | stop =>
    have hstop : (w.stream a).stop = w.stream a := by
      unfold stop
      rw [h]
    refine hquiet (v := .done) nofun ?_
    show (⟨.stop, w, .ok .done, w.setStream a (w.stream a).stop⟩ : Occasion) = _
    rw [hstop, World.setStream_stream]

theorem cancelled_occasions (h : (w.stream a).source = .finished none) {uses : List Usage} :
    ∀ o ∈ occasions a w uses, o.Breaks ↔ o.use = .wait := by
  induction uses with
  | nil => exact fun _ ho => absurd ho List.not_mem_nil
  | cons use uses ih =>
    obtain ⟨hafter, hbreaks⟩ := cancelled_occur h use
    intro o ho
    rcases List.mem_cons.1 ho with rfl | ho
    · rw [hbreaks, Usage.occur_use]
    · rw [hafter] at ho
      exact ih o ho

/-! ## Rows of uses -/

/-- A use of a stream that is not cancelled breaks no rule. It cancels the stream, or leaves one that is not
cancelled. -/
theorem plays_occur (h : S.Plays a w) (ha : a < w.streams.size) (use : Usage) : ¬(use.occur a w).Breaks ∧
    ((use.occur a w).Cancels a ∧ ((use.occur a w).after.stream a).source = .finished none ∨
      ¬(use.occur a w).Cancels a ∧ a < (use.occur a w).after.streams.size ∧
        ∃ S' : Script, S'.Plays a (use.occur a w).after) := by
  by_cases huse : use = .stop
  · subst huse
    have hoccur : Usage.stop.occur a w = ⟨.stop, w, .ok .done, w.setStream a (w.stream a).stop⟩ := rfl
    rw [hoccur]
    refine ⟨Occasion.not_breaks_of_ok rfl, ?_⟩
    rw [World.stream_setStream ha]
    cases h with
    | @deferred call withErrors child w' stream starts lines exit =>
      exact .inl ⟨⟨rfl, call, withErrors, by rw [stream]⟩, by rw [stream]; rfl⟩
    | underway stream =>
      obtain ⟨S', hstop⟩ := stream.stop
      refine .inr ⟨?_, by rwa [World.size_setStream], S', .underway ?_⟩
      · rintro ⟨-, call, withErrors, hsource⟩
        exact stream.not_pending call withErrors hsource
      · rwa [World.stream_setStream ha]
  · obtain ⟨hobeys, hplays, ha'⟩ := h.occur ha huse
    refine ⟨hobeys.not_breaks, .inr ⟨?_, ha', S, hplays⟩⟩
    rintro ⟨hstop, -⟩
    exact huse ((Usage.occur_use a w use).symm.trans hstop)

theorem plays_occasions (h : S.Plays a w) (ha : a < w.streams.size) {uses : List Usage}
    {earlier later : List Occasion} {o : Occasion} (hsplit : occasions a w uses = earlier ++ o :: later) :
    o.Breaks ↔ o.use = .wait ∧ ∃ o' ∈ earlier, o'.Cancels a := by
  induction uses generalizing S w earlier with
  | nil => simp [occasions] at hsplit
  | cons use uses ih =>
    obtain ⟨hbreaks, hnext⟩ := plays_occur h ha use
    cases earlier with
    | nil =>
      obtain rfl : use.occur a w = o := (List.cons.inj hsplit).1
      exact ⟨fun hbreaks' => absurd hbreaks' hbreaks, fun ⟨_, _, hnone, _⟩ => absurd hnone List.not_mem_nil⟩
    | cons first earlier =>
      obtain ⟨rfl, hrest⟩ : use.occur a w = first ∧ occasions a (use.occur a w).after uses = earlier ++ o :: later :=
        List.cons.inj hsplit
      rcases hnext with ⟨hcancels, hcancelled⟩ | ⟨hgoes, ha', S', hplays⟩
      · rw [cancelled_occasions hcancelled o (hrest ▸ List.mem_append_right _ List.mem_cons_self)]
        exact ⟨fun hwait => ⟨hwait, _, List.mem_cons_self, hcancels⟩, And.left⟩
      · rw [ih hplays ha' hrest]
        refine and_congr_right fun _ => ⟨fun ⟨o', ho', hcancels⟩ => ⟨o', List.mem_cons_of_mem _ ho', hcancels⟩, ?_⟩
        rintro ⟨o', ho', hcancels⟩
        rcases List.mem_cons.1 ho' with rfl | ho'
        · exact absurd hcancels hgoes
        · exact ⟨o', ho', hcancels⟩

/-- In every row of uses of a stream, a use breaks a rule of the machine just if it waits for the stream and that was
cancelled before. -/
theorem breaks_iff_waits_for_cancelled (h : Made a w) (ha : a < w.streams.size) {uses : List Usage}
    {earlier later : List Occasion} {o : Occasion} (hsplit : occasions a w uses = earlier ++ o :: later) :
    o.Breaks ↔ o.use = .wait ∧ ∃ o' ∈ earlier, o'.Cancels a := by
  obtain ⟨S, hplays⟩ := h.plays
  exact plays_occasions hplays ha hsplit

/-- A process is stopped while it sleeps, and waiting for it tells the signal. -/
theorem breaks_iff_waits_for_cancelled_killed : ∃ (w : World) (first last : Occasion),
    occasions 0 w [.stop, .wait] = [first] ++ [last] ∧ last.answer = .ok (.exit (.ofSignal 9)) ∧ ¬last.Breaks := by
  let w : World := { streams := #[⟨"sleep", true, #[], .running ⟨[], .ofCode 0, some []⟩⟩] }
  have hsplit : occasions 0 w [.stop, .wait] = [Usage.stop.occur 0 w] ++
      [Usage.wait.occur 0 (Usage.stop.occur 0 w).after] := rfl
  refine ⟨w, _, _, hsplit, rfl, fun hbreaks => ?_⟩
  obtain ⟨-, first, hfirst, -, call, withErrors, hsource⟩ :=
    (breaks_iff_waits_for_cancelled (.started rfl) Nat.one_pos hsplit).1 hbreaks
  obtain rfl := List.mem_singleton.1 hfirst
  cases hsource

/-- A stream is stopped before its process starts, and waiting for it breaks a rule. -/
theorem wait_after_stop_breaks :
    (occasions 0 { streams := #[⟨"sh", true, #[], .pending ⟨"sh", ["-c", "echo never"], [], none⟩ false⟩] }
      [.stop, .wait]).map (·.answer) = [.ok .done, .error (.ofBreach (.noExit "sh"))] := rfl

end Stream

end ShellVM
