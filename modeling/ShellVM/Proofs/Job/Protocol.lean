import ShellVM.Proofs.Job.Uses

/-!
# The protocol of a stream

A `Script` is what the process of a stream does: the lines it writes and how it ends. Reading follows the script
(`Script.Underway`): what has been read and what is still to come make up its lines, and the failure of the process is
raised by the read that runs past them and by no other. So a client gets the same answers from a stream that has
started and from one that starts when it is first read, in whatever order it uses the stream
(`stream_follows_script`).
-/

namespace ShellVM

/-- What the process of a stream does, and whether the stream raises its failure. -/
structure Script where
  program : String
  raises : Bool
  lines : List String
  exit : Exit

open ShellVM.Stream (Usage Answer Occasion occasions)

namespace Script

variable {S : Script} {s : Stream} {α : Type}

/-- The failure that the read past the last line raises. -/
def failure? (S : Script) : Option Cause := if S.raises then S.exit.failure? S.program else none

/-- A read past the last line gives `v`, but for the one that finishes the stream if that raises the failure. -/
def atEnd (S : Script) (finished : Bool) (v : α) : Except Fault α :=
  match if finished then none else S.failure? with
  | some cause => .error (.ofCause cause)
  | none => .ok v

/-- The stream when all is read. -/
def done (S : Script) : Stream := ⟨S.program, S.raises, S.lines.toArray, .finished (some S.exit)⟩

/-- A stream between two uses, after it has started. -/
inductive Underway (S : Script) : Stream → Prop where
  | running {read : Array String} {child : Child} (lines : read.toList ++ child.pending = S.lines)
      (exit : child.exit = S.exit) : Underway S ⟨S.program, S.raises, read, .running child⟩
  | finished : Underway S S.done

/-! ## Reading -/

theorem advance_last {read : Array String} {child : Child} (hpending : child.pending = [])
    (hread : read.toList = S.lines) (hexit : child.exit = S.exit) :
    (⟨S.program, S.raises, read, .running child⟩ : Stream).advance = (S.atEnd false false, S.done) := by
  have hlines : read = S.lines.toArray := by rw [← hread]
  subst hlines
  unfold Stream.advance atEnd failure?
  simp only [hpending, hexit]
  cases (if S.raises = true then S.exit.failure? S.program else none) with
  | some cause => rfl
  | none => rfl

theorem readAll_running : ∀ {pending : List String} {read : Array String} (child : Child), child.pending = pending →
    read.toList ++ pending = S.lines → child.exit = S.exit →
    Stream.readAll (pending.length + 1) ⟨S.program, S.raises, read, .running child⟩ = (S.atEnd false (), S.done)
  | [], _, child, hpending, hlines, hexit => by
    unfold Stream.readAll
    rw [advance_last hpending (by simpa using hlines) hexit]
    unfold atEnd
    cases S.failure? with
    | some cause => rfl
    | none => rfl
  | line :: rest, _, child, hpending, hlines, hexit => by
    unfold Stream.readAll Stream.advance
    simp only [hpending]
    exact readAll_running { child with pending := rest, beforeSleep? := _ } rfl (by simpa using hlines) hexit

/-- Reading up to a line of the script leaves the stream running. -/
theorem readTo_running {index : Nat} (hindex : index < S.lines.length) : ∀ {pending : List String} (read : Array String)
    (child : Child), child.pending = pending → read.toList ++ pending = S.lines → child.exit = S.exit →
    ∃ (read' : Array String) (child' : Child), read'.toList ++ child'.pending = S.lines ∧ child'.exit = S.exit ∧
      index < read'.size ∧ Stream.readTo index (pending.length + 1) ⟨S.program, S.raises, read, .running child⟩ =
        (.ok (), ⟨S.program, S.raises, read', .running child'⟩)
  | [], read, child, hpending, hlines, hexit => by
    have hread : index < read.size := by
      rw [← hlines] at hindex
      simpa using hindex
    refine ⟨read, child, by rw [hpending, hlines], hexit, hread, ?_⟩
    unfold Stream.readTo
    exact if_pos hread
  | line :: rest, read, child, hpending, hlines, hexit => by
    unfold Stream.readTo
    by_cases hread : index < read.size
    · exact ⟨read, child, by rw [hpending, hlines], hexit, hread, if_pos hread⟩
    · obtain ⟨read', child', hlines', hexit', hread', hto⟩ := readTo_running hindex (read.push line)
        { child with pending := rest, beforeSleep? := child.beforeSleep?.map (List.drop 1) } rfl
          (by simpa using hlines) hexit
      refine ⟨read', child', hlines', hexit', hread', ?_⟩
      rw [if_neg hread]
      simp only [Stream.advance, hpending]
      exact hto

/-- Reading past the lines of the script finishes the stream. -/
theorem readTo_past {index : Nat} (hindex : S.lines.length ≤ index) : ∀ {pending : List String} {read : Array String}
    (child : Child), child.pending = pending → read.toList ++ pending = S.lines → child.exit = S.exit →
    Stream.readTo index (pending.length + 1) ⟨S.program, S.raises, read, .running child⟩ = (S.atEnd false (), S.done)
  | pending, read, child, hpending, hlines, hexit => by
    have hread : ¬index < read.size := by
      rw [← hlines] at hindex
      simp at hindex
      omega
    unfold Stream.readTo
    rw [if_neg hread]
    cases pending with
    | nil =>
      rw [advance_last hpending (by simpa using hlines) hexit]
      unfold atEnd
      cases S.failure? with
      | some cause => rfl
      | none => rfl
    | cons line rest =>
      simp only [Stream.advance, hpending]
      exact readTo_past hindex { child with pending := rest, beforeSleep? := _ } rfl (by simpa using hlines) hexit

/-! ## Steps of the protocol -/

theorem atEnd_map {β : Type} (finished : Bool) (v : α) (g : α → β) :
    (S.atEnd finished v).map g = S.atEnd finished (g v) := by
  unfold atEnd
  cases (if finished = true then none else S.failure?) with
  | some cause => rfl
  | none => rfl

namespace Underway

theorem drain (h : S.Underway s) : s.drain = (S.atEnd s.isFinished S.lines, S.done) := by
  cases h with
  | @running read child lines exit =>
    have hall := readAll_running (S := S) child rfl lines exit
    unfold Stream.drain
    rw [show Stream.remaining ⟨S.program, S.raises, read, .running child⟩ = child.pending.length + 1 from rfl, hall]
    show _ = (S.atEnd false S.lines, S.done)
    unfold atEnd
    cases S.failure? with
    | some cause => rfl
    | none => rfl
  | finished => rfl

theorem wait (h : S.Underway s) : s.wait = (.ok S.exit, S.done) := by
  cases h with
  | @running read child lines exit =>
    have hall := readAll_running (S := S) child rfl lines exit
    unfold Stream.wait
    rw [show Stream.remaining ⟨S.program, S.raises, read, .running child⟩ = child.pending.length + 1 from rfl, hall]
    rfl
  | finished => rfl

theorem pull (h : S.Underway s) {index : Nat} (hindex : index < S.lines.length) :
    ∃ s', s.pull index = (.ok S.lines[index]?, s') ∧ S.Underway s' ∧ s'.isFinished = s.isFinished := by
  cases h with
  | @running read child lines exit =>
    obtain ⟨read', child', lines', exit', hread, hto⟩ := readTo_running hindex read child rfl lines exit
    refine ⟨_, ?_, .running lines' exit', rfl⟩
    unfold Stream.pull
    rw [show Stream.remaining ⟨S.program, S.raises, read, .running child⟩ = child.pending.length + 1 from rfl, hto]
    have hline : read'[index]? = S.lines[index]? := by
      rw [← lines', List.getElem?_append_left (by simpa using hread), Array.getElem?_toList]
    exact congrArg (fun line? => (Except.ok line?, _)) hline
  | finished => exact ⟨S.done, by simp [Stream.pull, Stream.remaining, done, Stream.readTo], .finished, rfl⟩

theorem pull_past (h : S.Underway s) {index : Nat} (hindex : S.lines.length ≤ index) :
    s.pull index = (S.atEnd s.isFinished none, S.done) := by
  have hnone : S.lines[index]? = none := List.getElem?_eq_none hindex
  cases h with
  | @running read child lines exit =>
    have hpast := readTo_past hindex child rfl lines exit
    unfold Stream.pull
    rw [show Stream.remaining ⟨S.program, S.raises, read, .running child⟩ = child.pending.length + 1 from rfl, hpast]
    show _ = (S.atEnd false none, S.done)
    unfold atEnd
    cases S.failure? with
    | some cause => rfl
    | none => simpa [done] using hnone
  | finished => simpa [Stream.pull, Stream.remaining, done, Stream.readTo, atEnd, Stream.isFinished] using hnone

/-- What has been read begins the lines of the script. -/
theorem prefix_lines (h : S.Underway s) : s.lines.toList <+: S.lines := by
  cases h with
  | running lines exit => exact ⟨_, lines⟩
  | finished => exact List.prefix_rfl

theorem stage_eq (h : S.Underway s) : s.stage = if s.isFinished then 2 else 1 := by
  cases h <;> rfl

theorem not_pending (h : S.Underway s) (call : ProgramCall) (withErrors : Bool) :
    s.source ≠ .pending call withErrors := by
  cases h <;> exact nofun

theorem render (h : S.Underway s) :
    s.render = if s.isFinished then "\n".intercalate S.lines else "<process " ++ S.program ++ ">" := by
  cases h <;> rfl

end Underway

/-! ## Uses -/

/-- Does a use read past the lines of the script? -/
def exhausts (S : Script) : Usage → Bool
  | .pull index => S.lines.length ≤ index
  | .lines | .wait | .succeeded => true
  | .isFinished | .display | .stop => false

/-- What a use of a stream gives that has or has not finished before. -/
def answer (S : Script) (finished : Bool) : Usage → Except Fault Answer
  | .pull index => if index < S.lines.length then .ok (.line S.lines[index]?) else S.atEnd finished (.line none)
  | .lines => S.atEnd finished (.lines S.lines)
  | .wait => .ok (.exit S.exit)
  | .succeeded => .ok (.flag S.exit.isSuccess)
  | .isFinished => .ok (.flag finished)
  | .display => .ok (.text (if finished then "\n".intercalate S.lines else "<process " ++ S.program ++ ">"))
  | .stop => .ok .done

/-- The stream at `a` follows the script: it has started, or its start will give a process that does what the script
says. -/
inductive Plays (S : Script) (a : Addr) (w : World) : Prop where
  | deferred {call : ProgramCall} {withErrors : Bool} {child : Child} {w' : World}
      (stream : w.stream a = ⟨S.program, S.raises, #[], .pending call withErrors⟩)
      (starts : Job.start call withErrors w = .ok child w') (lines : child.pending = S.lines)
        (exit : child.exit = S.exit)
  | underway (stream : S.Underway (w.stream a))

/-- What every use does. -/
structure Obeys (S : Script) (a : Addr) (o : Occasion) : Prop where
  forward : (o.before.stream a).stage ≤ (o.after.stream a).stage
  /-- Once the stream has started, only the stream changes: nothing is started again. -/
  alone : 0 < (o.before.stream a).stage → o.after = o.before.setStream a (o.after.stream a)
  buffer : (o.after.stream a).lines.toList <+: S.lines
  finishes : (o.after.stream a).isFinished = ((o.before.stream a).isFinished || S.exhausts o.use)
  answer : o.answer = S.answer (o.before.stream a).isFinished o.use

variable {a : Addr} {w : World}

/-- A stream follows the script when it has been woken. -/
theorem Plays.wake (h : S.Plays a w) (ha : a < w.streams.size) : ∃ w', Job.wake a w = .ok () w' ∧ a < w'.streams.size ∧
    S.Underway (w'.stream a) ∧ (w'.stream a).isFinished = (w.stream a).isFinished ∧
    (0 < (w.stream a).stage → w' = w) := by
  cases h with
  | @deferred call withErrors child w' stream starts lines exit =>
    have hsize : a < w'.streams.size := by rwa [Job.start_size starts]
    refine ⟨w'.setStream a { w.stream a with source := .running child }, ?_, by rwa [World.size_setStream], ?_, ?_, ?_⟩
    · rw [Job.wake_pending (by rw [stream]), starts]
    · rw [World.stream_setStream hsize, stream]
      exact .running (by simpa using lines) exit
    · rw [World.stream_setStream hsize, stream]
      rfl
    · rw [stream]
      exact fun h => absurd h (Nat.lt_irrefl 0)
  | underway stream =>
    exact ⟨w, Job.wake_eq stream.not_pending, ha, stream, rfl, fun _ => rfl⟩

/-- Reading wakes the stream and carries out one step of its protocol. -/
theorem Plays.reads (h : S.Plays a w) (ha : a < w.streams.size) (f : Stream → Except Fault α × Stream) : ∃ s w',
    S.Underway s ∧ s.isFinished = (w.stream a).isFinished ∧ a < w'.streams.size ∧ w'.stream a = (f s).2 ∧
    (0 < (w.stream a).stage → w' = w.setStream a (f s).2) ∧
    (do Job.wake a; Job.onStream a f : Effect α) w = Job.outcome w' (f s).1 := by
  obtain ⟨w₁, hwake, ha₁, hs, hfinished, halone⟩ := h.wake ha
  refine ⟨w₁.stream a, w₁.setStream a (f (w₁.stream a)).2, hs, hfinished, by rwa [World.size_setStream],
    World.stream_setStream ha₁ _, ?_, ?_⟩
  · intro hstage
    obtain rfl := halone hstage
    rfl
  · rw [bind_run_ok hwake]
    exact Job.onStream_eq a f w₁

theorem Plays.prefix_lines (h : S.Plays a w) : (w.stream a).lines.toList <+: S.lines := by
  cases h with
  | deferred stream starts lines exit =>
    rw [stream]
    exact List.nil_prefix
  | underway stream => exact stream.prefix_lines

theorem Plays.render (h : S.Plays a w) : (w.stream a).render =
    if (w.stream a).isFinished then "\n".intercalate S.lines else "<process " ++ S.program ++ ">" := by
  cases h with
  | deferred stream starts lines exit =>
    rw [stream]
    rfl
  | underway stream => exact stream.render

/-- A use that leaves the world as it is. -/
theorem Plays.obeys_same (h : S.Plays a w) {use : Usage} {r : Except Fault Answer} (hexhausts : S.exhausts use = false)
    (hanswer : r = S.answer (w.stream a).isFinished use) : S.Obeys a ⟨use, w, r, w⟩ where
  forward := Nat.le_refl _
  alone _ := (World.setStream_stream w a).symm
  buffer := h.prefix_lines
  finishes := by rw [hexhausts, Bool.or_false]
  answer := hanswer

/-- A use that leaves the stream `s`. -/
theorem Underway.obeys (hs : S.Underway s) {use : Usage} {w' : World} {r : Except Fault Answer}
    (hstream : w'.stream a = s) (halone : 0 < (w.stream a).stage → w' = w.setStream a s)
    (hfinishes : s.isFinished = ((w.stream a).isFinished || S.exhausts use))
    (hanswer : r = S.answer (w.stream a).isFinished use) : S.Obeys a ⟨use, w, r, w'⟩ := by
  subst hstream
  refine ⟨?_, halone, hs.prefix_lines, hfinishes, hanswer⟩
  show (w.stream a).stage ≤ (w'.stream a).stage
  have hbefore := (w.stream a).stage_le
  rw [hs.stage_eq, hfinishes]
  cases hfinished : (w.stream a).isFinished with
  | true => simpa [hfinished] using hbefore
  | false =>
    rw [hfinished] at hbefore
    refine Nat.le_trans hbefore (show 1 ≤ _ from ?_)
    split
    · exact Nat.le_succ 1
    · exact Nat.le_refl 1

/-- What every use of a stream does that follows the script, but for stopping it: the next one finds such a stream
again. -/
theorem Plays.occur (h : S.Plays a w) (ha : a < w.streams.size) {use : Usage} (huse : use ≠ .stop) :
    S.Obeys a (use.occur a w) ∧ S.Plays a (use.occur a w).after ∧ a < (use.occur a w).after.streams.size := by
  cases use with
  | lines =>
    obtain ⟨s, w', hs, hfinished, ha', hstream, halone, hrun⟩ := h.reads ha Stream.drain
    rw [hs.drain, hfinished] at hrun
    rw [hs.drain] at hstream halone
    rw [Usage.occur_lines hrun]
    refine ⟨Underway.finished.obeys hstream halone ?_ (atEnd_map _ _ _), .underway (hstream ▸ .finished), ha'⟩
    exact (Bool.or_true _).symm
  | wait =>
    obtain ⟨s, w', hs, hfinished, ha', hstream, halone, hrun⟩ := h.reads ha Stream.wait
    rw [hs.wait] at hrun hstream halone
    rw [Usage.occur_wait hrun]
    exact ⟨Underway.finished.obeys hstream halone (Bool.or_true _).symm rfl, .underway (hstream ▸ .finished), ha'⟩
  | succeeded =>
    obtain ⟨s, w', hs, hfinished, ha', hstream, halone, hrun⟩ := h.reads ha Stream.wait
    rw [hs.wait] at hrun hstream halone
    have hsucceeded : Job.succeeded a w = Job.outcome w' (.ok S.exit.isSuccess) := by
      have hwait : Job.wait a w = Job.outcome w' (.ok S.exit) := hrun
      rw [Job.succeeded_eq, hwait]
      rfl
    rw [Usage.occur_succeeded hsucceeded]
    exact ⟨Underway.finished.obeys hstream halone (Bool.or_true _).symm rfl, .underway (hstream ▸ .finished), ha'⟩
  | isFinished => exact ⟨h.obeys_same rfl rfl, h, ha⟩
  | display => exact ⟨h.obeys_same rfl (congrArg (Except.ok <| Answer.text ·) h.render), h, ha⟩
  | stop => exact absurd rfl huse
  | pull index =>
    cases hline : (w.stream a).lines[index]? with
    | some line =>
      have hscript : S.lines[index]? = some line := by
        obtain ⟨rest, hrest⟩ := h.prefix_lines
        have hread := (Array.getElem?_eq_some_iff.1 hline).1
        rw [← hrest, List.getElem?_append_left (by simpa using hread), Array.getElem?_toList, hline]
      have hindex : index < S.lines.length := (List.getElem?_eq_some_iff.1 hscript).1
      rw [Usage.occur_pull (Job.pull_read hline)]
      refine ⟨h.obeys_same (by simpa [exhausts] using hindex) ?_, h, ha⟩
      rw [answer, if_pos hindex, hscript]
      rfl
    | none =>
      obtain ⟨s, w', hs, hfinished, ha', hstream, halone, hrun⟩ := h.reads ha (·.pull index)
      rw [← Job.pull_unread hline] at hrun
      rw [Usage.occur_pull hrun]
      by_cases hindex : index < S.lines.length
      · obtain ⟨s', hpull, hs', hfinished'⟩ := hs.pull hindex
        rw [hpull] at hstream halone ⊢
        refine ⟨hs'.obeys hstream halone ?_ ?_, .underway (hstream ▸ hs'), ha'⟩
        · have hexhausts : S.exhausts (.pull index) = false := by simpa [exhausts] using hindex
          rw [hfinished', hfinished, hexhausts, Bool.or_false]
        · rw [answer, if_pos hindex]
          rfl
      · rw [hs.pull_past (Nat.le_of_not_lt hindex), hfinished] at hstream halone ⊢
        refine ⟨Underway.finished.obeys hstream halone ?_ ?_, .underway (hstream ▸ .finished), ha'⟩
        · have hexhausts : S.exhausts (.pull index) = true := by simpa [exhausts] using Nat.le_of_not_lt hindex
          rw [hexhausts, Bool.or_true]
          rfl
        · rw [answer, if_neg hindex]
          exact atEnd_map _ _ _

/-! ## Failures -/

theorem failure?_eq_some {cause : Cause} (h : S.failure? = some cause) :
    S.raises = true ∧ S.exit.isSuccess = false := by
  unfold failure? at h
  split at h
  · next hraises =>
    refine ⟨hraises, Bool.eq_false_iff.2 fun hsuccess => ?_⟩
    rw [Exit.failure?, if_pos hsuccess] at h
    cases h
  · cases h

theorem exists_failure (hraises : S.raises = true) (hexit : S.exit.isSuccess = false) :
    ∃ cause, S.failure? = some cause := by
  unfold failure? Exit.failure?
  rw [if_pos hraises, if_neg (by simp [hexit])]
  split
  · exact ⟨_, rfl⟩
  · exact ⟨_, rfl⟩

theorem atEnd_isOk (finished : Bool) (v : α) : (S.atEnd finished v).isOk = (finished || S.failure?.isNone) := by
  unfold atEnd
  cases finished with
  | true => rfl
  | false =>
    cases hcause : S.failure? with
    | some cause => simp [Except.isOk, Except.toBool]
    | none => simp [Except.isOk, Except.toBool]

/-- Reading as such raises the failure of the process; waiting for it does not. -/
def Raising : Usage → Prop
  | .pull _ | .lines => True
  | _ => False

/-- The answers that fail: reads past the lines of the script that finish the stream. -/
theorem answer_fails_iff {finished : Bool} {use : Usage} : (S.answer finished use).isOk = false ↔
    finished = false ∧ S.exhausts use = true ∧ Raising use ∧ S.raises = true ∧ S.exit.isSuccess = false := by
  have hends : (finished || S.failure?.isNone) = false ↔
      finished = false ∧ S.raises = true ∧ S.exit.isSuccess = false := by
    rw [Bool.or_eq_false_iff]
    refine and_congr_right fun _ => ⟨fun h => ?_, fun h => ?_⟩
    · cases hcause : S.failure? with
      | some cause => exact failure?_eq_some hcause
      | none =>
        rw [hcause] at h
        cases h
    · obtain ⟨cause, hcause⟩ := exists_failure h.1 h.2
      rw [hcause]
      rfl
  cases use with
  | pull index =>
    by_cases hindex : index < S.lines.length
    · simp [answer, exhausts, Raising, hindex, Nat.not_le.2 hindex, Except.isOk, Except.toBool]
    · rw [show S.answer finished (.pull index) = S.atEnd finished (.line none) from if_neg hindex, atEnd_isOk, hends]
      simp [exhausts, Raising, Nat.le_of_not_lt hindex]
  | lines =>
    show (S.atEnd finished (Answer.lines S.lines)).isOk = false ↔ _
    rw [atEnd_isOk, hends]
    simp [exhausts, Raising]
  | _ => simp [answer, exhausts, Raising, Except.isOk, Except.toBool]

/-! ## Rows of uses -/

/-- A use that starts the process. -/
def Starts (a : Addr) (o : Occasion) : Prop := (o.before.stream a).stage = 0 ∧ 0 < (o.after.stream a).stage

/-- The use that finishes the stream. -/
def Finishes (a : Addr) (o : Occasion) : Prop := (o.before.stream a).isFinished = false ∧
    (o.after.stream a).isFinished = true

theorem Obeys.fails_iff {o : Occasion} (h : S.Obeys a o) : o.answer.isOk = false ↔
    Finishes a o ∧ Raising o.use ∧ S.raises = true ∧ S.exit.isSuccess = false := by
  rw [h.answer, answer_fails_iff, Finishes, h.finishes]
  constructor
  · rintro ⟨hfinished, hexhausts, hrest⟩
    exact ⟨⟨hfinished, by rw [hexhausts, Bool.or_true]⟩, hrest⟩
  · rintro ⟨⟨hfinished, hafter⟩, hrest⟩
    rw [hfinished, Bool.false_or] at hafter
    exact ⟨hfinished, hafter, hrest⟩

theorem Plays.obeys (h : S.Plays a w) (ha : a < w.streams.size) {uses : List Usage}
    (huses : ∀ use ∈ uses, use ≠ .stop) : ∀ o ∈ occasions a w uses, S.Obeys a o := by
  induction uses generalizing w with
  | nil => exact fun _ ho => absurd ho List.not_mem_nil
  | cons use uses ih =>
    obtain ⟨hobeys, hplays, ha'⟩ := h.occur ha (huses use List.mem_cons_self)
    intro o ho
    rcases List.mem_cons.1 ho with rfl | ho
    · exact hobeys
    · exact ih hplays ha' (fun use huse => huses use (List.mem_cons_of_mem _ huse)) o ho

/-- What a use does that later uses cannot do again is done once at most. -/
theorem Plays.at_most_once (marks : Occasion → Prop) (past : World → Prop)
    (hmarks : ∀ o, S.Obeys a o → marks o → past o.after)
    (hpast : ∀ o, S.Obeys a o → past o.before → past o.after ∧ ¬marks o) (h : S.Plays a w) (ha : a < w.streams.size)
    {uses : List Usage} (huses : ∀ use ∈ uses, use ≠ .stop) :
    (occasions a w uses).Pairwise (fun o o' => marks o → ¬marks o') ∧
    (past w → ∀ o ∈ occasions a w uses, ¬marks o) := by
  induction uses generalizing w with
  | nil => exact ⟨.nil, fun _ _ ho => absurd ho List.not_mem_nil⟩
  | cons use uses ih =>
    obtain ⟨hobeys, hplays, ha'⟩ := h.occur ha (huses use List.mem_cons_self)
    obtain ⟨hpairs, hlater⟩ := ih hplays ha' fun use huse => huses use (List.mem_cons_of_mem _ huse)
    refine ⟨.cons (fun o ho hmark => hlater (hmarks _ hobeys hmark) o ho) hpairs, fun hw o ho => ?_⟩
    have hbefore : (use.occur a w).before = w := Usage.occur_before ..
    obtain ⟨hafter, hnot⟩ := hpast _ hobeys (by rwa [hbefore])
    rcases List.mem_cons.1 ho with rfl | ho
    · exact hnot
    · exact hlater hafter o ho

/-- A stream that has just been made: its process runs and nothing has been read, or it waits for a first read to
start it, which will go well. -/
inductive Begins (S : Script) (a : Addr) (w : World) : Prop where
  | started {child : Child} (stream : w.stream a = ⟨S.program, S.raises, #[], .running child⟩)
      (lines : child.pending = S.lines) (exit : child.exit = S.exit)
  | deferred {call : ProgramCall} {withErrors : Bool} {child : Child} {w' : World}
      (stream : w.stream a = ⟨S.program, S.raises, #[], .pending call withErrors⟩)
      (starts : Job.start call withErrors w = .ok child w') (lines : child.pending = S.lines)
        (exit : child.exit = S.exit)

theorem Begins.plays (h : S.Begins a w) : S.Plays a w := by
  cases h with
  | started stream lines exit =>
    refine .underway ?_
    rw [stream]
    exact .running (by simpa using lines) exit
  | deferred stream starts lines exit => exact .deferred stream starts lines exit

/-- However a client uses a stream without stopping it, every use obeys the script: the stream only goes from pending
to running to finished, what has been read begins the lines of the process, and the answers are those of the script.
One use at most starts the process, and one at most fails: the one that finishes the stream, if it is a read of lines
and the failure of the process is to be raised. -/
theorem stream_follows_script (h : S.Begins a w) (ha : a < w.streams.size) {uses : List Usage}
    (huses : ∀ use ∈ uses, use ≠ .stop) : (∀ o ∈ occasions a w uses, S.Obeys a o) ∧
    (occasions a w uses).Pairwise (fun o o' => Starts a o → ¬Starts a o') ∧
    (∀ o ∈ occasions a w uses, o.answer.isOk = false ↔
      Finishes a o ∧ Raising o.use ∧ S.raises = true ∧ S.exit.isSuccess = false) ∧
    (occasions a w uses).Pairwise (fun o o' => o.answer.isOk = false → o'.answer.isOk = true) := by
  have hobeys := h.plays.obeys ha huses
  refine ⟨hobeys, ?_, fun o ho => (hobeys o ho).fails_iff, ?_⟩
  · refine (h.plays.at_most_once (Starts a) (fun w => 0 < (w.stream a).stage) ?_ ?_ ha huses).1
    · exact fun o _ hstarts => hstarts.2
    · exact fun o ho hstage => ⟨Nat.lt_of_lt_of_le hstage ho.forward, fun hstarts => Nat.ne_of_gt hstage hstarts.1⟩
  · have hpairs :=
      (h.plays.at_most_once (·.answer.isOk = false) (fun w => (w.stream a).isFinished = true) ?_ ?_ ha huses).1
    · exact hpairs.imp fun hfails hfirst => Bool.of_not_eq_false (hfails hfirst)
    · exact fun o ho hfails => (ho.fails_iff.1 hfails).1.2
    · refine fun o ho hfinished => ⟨?_, fun hfails => ?_⟩
      · rw [ho.finishes, hfinished]
        rfl
      · exact Bool.false_ne_true ((ho.fails_iff.1 hfails).1.1.symm.trans hfinished)

/-- A process that ends badly: the read that runs past its line fails, and nothing else does. -/
theorem stream_follows_script_failing : ∃ w : World,
    (∀ o ∈ occasions 0 w [.pull 0, .pull 1, .lines, .wait, .pull 1], Obeys ⟨"sh", true, ["partial"], .ofCode 2⟩ 0 o) ∧
    (occasions 0 w [.pull 0, .pull 1, .lines, .wait, .pull 1]).map (·.answer) =
      [.ok (.line (some "partial")), .error (.ofCause (.nonZeroExit "sh" 2)), .ok (.lines ["partial"]),
        .ok (.exit (.ofCode 2)), .ok (.line none)] := by
  refine ⟨{ streams := #[⟨"sh", true, #[], .running ⟨["partial"], .ofCode 2, none⟩⟩] }, ?_, rfl⟩
  exact (stream_follows_script (S := ⟨"sh", true, ["partial"], .ofCode 2⟩) (.started rfl rfl rfl)
    Nat.one_pos (by simp)).1

end Script

end ShellVM
