import ShellVM.Proofs.Limits.Bounds

/-!
# The step limit ends every run

The fault of the step limit can be caught, and then the run goes on at a handler. But no step gets past the limit
after that, so no handler is opened, and each recovery uses one up: with `max` steps and at most as many handlers a
run is over after `2 * max + 1` turns (`step_limit_ends_runs`).
-/

namespace ShellVM

variable {host : Host} {program : Program} {m s t : Machine} {max n k : Nat}

/-! ## The check -/

/-- The next step gets past the check of the limits. -/
def Machine.Passes (host : Host) (m : Machine) : Prop := ∃ s, Act.checkLimits host m = .ok () s

theorem Machine.Passes.exceeded? (h : m.Passes host) : host.exceeded? { m with steps := m.steps + 1 } = none := by
  obtain ⟨s, hs⟩ := h
  rw [Act.checkLimits_eq] at hs
  cases hexceeded : host.exceeded? { m with steps := m.steps + 1 } with
  | none => rfl
  | some l => rw [hexceeded] at hs; cases hs

theorem Host.exceeded?_step (hmax : host.steps? = some max) (h : max ≤ m.steps) :
    host.exceeded? { m with steps := m.steps + 1 } = some (.step, max) := by
  simp only [exceeded?, hmax]
  rw [if_pos (by omega)]

/-- Only so many steps get past the check. -/
theorem Machine.Passes.lt (hmax : host.steps? = some max) (h : m.Passes host) : m.steps < max := by
  by_contra hle
  have := h.exceeded?
  rw [Host.exceeded?_step hmax (Nat.not_lt.1 hle)] at this
  cases this

/-- Once the limit is reached, a step does nothing but count itself. -/
theorem Act.step_exhausted (hmax : host.steps? = some max) (h : max ≤ m.steps) :
    step host program m = .error (.ofCause (.limitExceeded .step max)) { m with steps := m.steps + 1 } := by
  rw [step_eq, Host.exceeded?_step hmax h]

/-! ## The end of a run -/

namespace Act

/-- A run takes at most so many turns, and this is what becomes of it. -/
def Ends (host : Host) (program : Program) (m : Machine) (n : Nat) (r : EStateM.Result Fault Machine Bool) : Prop :=
  (∀ s, r ≠ .ok false s) ∧ ∀ fuel, n ≤ fuel → run host program fuel m = r

namespace Ends

variable {r : EStateM.Result Fault Machine Bool}

theorem mono (h : Ends host program m n r) (hn : n ≤ k) : Ends host program m k r :=
  ⟨h.1, fun fuel hfuel => h.2 fuel (Nat.le_trans hn hfuel)⟩

theorem of_nil (h : m.frames = []) : Ends host program m 0 (.ok true m) :=
  ⟨fun _ => nofun, fun fuel _ => run_of_nil h fuel⟩

theorem of_error {e : Fault} (hactive : m.Active) (h : turn host program m = .error e s) :
    Ends host program m 1 (.error e s) := by
  refine ⟨fun _ => nofun, fun fuel hfuel => ?_⟩
  obtain ⟨fuel, rfl⟩ := Nat.exists_eq_add_of_le' hfuel
  rw [run_succ hactive, h]

theorem of_turn (hactive : m.Active) (hturn : turn host program m = .ok () s) (h : Ends host program s n r) :
    Ends host program m (n + 1) r := by
  refine ⟨h.1, fun fuel hfuel => ?_⟩
  obtain ⟨fuel, rfl⟩ := Nat.exists_eq_add_of_le' (Nat.le_trans (Nat.le_add_left 1 n) hfuel)
  rw [run_succ hactive, hturn]
  exact h.2 fuel (by omega)

/-- The end of a run is the end of what it leads to. -/
theorem eq_of_turns {r' : EStateM.Result Fault Machine Bool} (h : Ends host program m n r)
    (hs : Turns host program Machine.Active m s) (h' : Ends host program s k r') : r = r' := by
  obtain ⟨j, hj⟩ := run_of_turns hs
  rw [← h.2 (j + (n + k)) (by omega), hj, h'.2 (n + k) (by omega)]

end Ends

end Act

/-- A turn opens at most one region. -/
theorem Machine.Nested.handlers_le [host.Lawful] (hm : m.Nested) (h : Act.turn host program m = .ok () s) :
    s.handlers.length ≤ m.handlers.length + 1 := by
  rcases hm.turn_cases h with hstays | ⟨h, hopens⟩
  · exact Nat.le_succ_of_le hstays.handlers.length_le
  · rw [hopens.handlers]
    exact Nat.le_refl _

/-- A turn counts one step. -/
theorem Machine.Nested.turn_steps [host.Lawful] (hm : m.Nested) (h : Act.turn host program m = .ok () s) :
    s.steps = m.steps + 1 := by
  have hsteps := (Act.step_outgrows host program m).steps
  cases hm.turned host program with
  | stepped s' hstep hturn =>
    cases hturn.symm.trans h
    rwa [Act.after_of_ok hstep] at hsteps
  | failed e s' _ hturn => cases hturn.symm.trans h
  | caught e s' t handler hstep hturn _ _ hcaught =>
    cases hturn.symm.trans h
    rw [Act.after_of_error hstep] at hsteps
    exact hcaught.trans hsteps

/-- Once the limit is reached, handler after handler is used up. -/
theorem Machine.Nested.exhausted [host.Lawful] (hmax : host.steps? = some max) (hm : m.Nested)
    (hsteps : max ≤ m.steps) (hactive : m.Active) :
    ∃ e s, e.cause = .limitExceeded .step max ∧ Act.Ends host program m (m.handlers.length + 1) (.error e s) := by
  induction hhandlers : m.handlers generalizing m with
  | nil =>
    have hstep := @Act.step_exhausted host program m max hmax hsteps
    have hturn := (Act.turn_of_error hstep).trans (Act.recover_fails hhandlers)
    exact ⟨_, _, Fault.withTrace_cause .., .of_error hactive hturn⟩
  | cons h outer ih =>
    have hstep := @Act.step_exhausted host program m max hmax hsteps
    obtain ⟨t, hturn, houter, -, hdepth, -⟩ := hm.recovers hstep rfl hhandlers
    have hpos : 1 ≤ h.frameDepth := (hm.bounded h (hhandlers ▸ List.mem_cons_self ..)).1
    have hactive' : t.Active := fun hnil => by
      rw [hnil, List.length_nil] at hdepth
      omega
    have hcounted := hm.turn_steps hturn
    obtain ⟨e, s, hcause, hends⟩ := ih (hm.turn hturn) (by omega) hactive' houter
    exact ⟨e, s, hcause, hends.of_turn hactive hturn⟩

/-- With a step limit every run ends. -/
theorem Machine.Nested.ends [host.Lawful] (hmax : host.steps? = some max) (hm : m.Nested) (hk : max ≤ m.steps + k) :
    ∃ r, Act.Ends host program m (2 * k + m.handlers.length + 1) r := by
  induction k generalizing m with
  | zero =>
    by_cases hactive : m.Active
    · obtain ⟨e, s, -, hends⟩ := @exhausted host program m max _ hmax hm hk hactive
      exact ⟨_, hends.mono (by omega)⟩
    · exact ⟨_, (Act.Ends.of_nil (Classical.not_not.1 hactive)).mono (Nat.zero_le _)⟩
  | succ k ih =>
    by_cases hactive : m.Active
    · cases hturn : Act.turn host program m with
      | error e s => exact ⟨_, (Act.Ends.of_error hactive hturn).mono (by omega)⟩
      | ok _ s =>
        have hsteps := hm.turn_steps hturn
        have hhandlers := hm.handlers_le hturn
        obtain ⟨r, hends⟩ := ih (hm.turn hturn) (by omega)
        exact ⟨r, (hends.of_turn hactive hturn).mono (by omega)⟩
    · exact ⟨_, (Act.Ends.of_nil (Classical.not_not.1 hactive)).mono (Nat.zero_le _)⟩

/-! ## Steps that get past the check -/

/-- A run leads from `m` to `s`, and so many of its steps get past the check of the limits. -/
inductive Passing (host : Host) (program : Program) (m : Machine) : Nat → Machine → Prop where
  | start : Passing host program m 0 m
  | passed {n : Nat} {s s' : Machine} (before : Passing host program m n s) (active : s.Active) (passes : s.Passes host)
      (next : Act.turn host program s = .ok () s') : Passing host program m (n + 1) s'
  | stopped {n : Nat} {s s' : Machine} (before : Passing host program m n s) (active : s.Active)
      (fails : ¬s.Passes host) (next : Act.turn host program s = .ok () s') : Passing host program m n s'

namespace Passing

theorem turns (h : Passing host program m n s) : Turns host program Machine.Active m s := by
  induction h with
  | start => exact .refl
  | passed _ active _ next ih => exact .turn ih active next
  | stopped _ active _ next ih => exact .turn ih active next

theorem le [host.Lawful] (hmax : host.steps? = some max) (hm : m.Nested) (h : Passing host program m n s) :
    n ≤ s.steps ∧ n ≤ max := by
  induction h with
  | start => exact ⟨Nat.zero_le _, Nat.zero_le _⟩
  | passed before active passes next ih =>
    have hlt := passes.lt hmax
    have hsteps := (hm.turns before.turns).turn_steps next
    omega
  | stopped before active fails next ih =>
    have hsteps := (hm.turns before.turns).turn_steps next
    omega

end Passing

/-- With a step limit a run is over after so many turns, and at most `max` of its steps get past the check. If calls are
active after these, then the run ends with the fault of the step limit, however many regions are open and whatever their
handlers do. -/
theorem step_limit_ends_runs {host : Host} [host.Lawful] {max : Nat} (hmax : host.steps? = some max)
    {program : Program} {entry : UInt16} (hentry : (program.page? entry).isSome) (w : World) :
    ((∃ v w', ∀ fuel, 2 * max + 1 ≤ fuel → program.execute host entry fuel w = .ok (some v) w') ∨
      ∃ e w', ∀ fuel, 2 * max + 1 ≤ fuel → program.execute host entry fuel w = .error e w') ∧
    ∀ n s, Passing host program (Machine.start entry w) n s → n ≤ max ∧ (n = max → ¬s.Passes host ∧
      (s.Active → ∃ e w', e.cause = .limitExceeded .step max ∧
        ∀ fuel, 2 * max + 1 ≤ fuel → program.execute host entry fuel w = .error e w')) := by
  have hnested := Machine.Nested.start entry w
  obtain ⟨page, hpage⟩ := Option.isSome_iff_exists.1 hentry
  have hsome : ¬(some page : Option Page).isNone := by simp
  have hexecuted {fuel : Nat} {m : Machine} (h : Act.run host program fuel (Machine.start entry w) = .ok true m) :
      program.execute host entry fuel w = .ok (some (m.stack.back?.getD .nil)) m.world := by
    unfold Program.execute
    rw [hpage, if_neg hsome, h]
  have hfailed {fuel : Nat} {e : Fault} {m : Machine}
      (h : Act.run host program fuel (Machine.start entry w) = .error e m) :
      program.execute host entry fuel w = .error e m.world := by
    unfold Program.execute
    rw [hpage, if_neg hsome, h]
  obtain ⟨r, hends⟩ : ∃ r, Act.Ends host program (Machine.start entry w) (2 * max + 1) r :=
    hnested.ends hmax (Nat.le_add_left ..)
  refine ⟨?_, fun n s hpassing => ?_⟩
  · cases r with
    | ok b m =>
      cases b with
      | false => exact absurd rfl (hends.1 m)
      | true => exact .inl ⟨_, _, fun fuel hfuel => hexecuted (hends.2 fuel hfuel)⟩
    | error e m => exact .inr ⟨_, _, fun fuel hfuel => hfailed (hends.2 fuel hfuel)⟩
  · have hle := hpassing.le hmax hnested
    refine ⟨hle.2, fun hn => ⟨fun hpasses => ?_, fun hactive => ?_⟩⟩
    · have := hpasses.lt hmax
      omega
    · obtain ⟨e, t, hcause, hend⟩ := @Machine.Nested.exhausted host program s max _ hmax
        (hnested.turns hpassing.turns) (by omega) hactive
      obtain rfl := hends.eq_of_turns hpassing.turns hend
      exact ⟨e, t.world, hcause, fun fuel hfuel => hfailed (hends.2 fuel hfuel)⟩

/-- A loop that opens a region in each round, whose handler goes on with the loop. -/
theorem step_limit_ends_runs_in_loop : ∃ (program : Program) (host : Host) (s : Machine), host.steps? = some 2 ∧
    Passing host program (Machine.start 0 default) 2 s ∧ s.handlers.length = 1 ∧
    ∃ e w', e.cause = .limitExceeded .step 2 ∧
      ∀ fuel, 5 ≤ fuel → program.execute host 0 fuel default = .error e w' := by
  have hpassing : ∃ s, Passing { callDepth := 1, stackSize := 1, steps? := some 2 }
    ⟨#[⟨"", 0, #[Op.enterTry.toByte, 0, 0, Op.jumpBackward.toByte, 0, 6], .empty, #[]⟩], #[]⟩
      (Machine.start 0 default) 2 s ∧ s.handlers.length = 1 ∧ s.Active :=
    ⟨_, .passed (.passed .start nofun ⟨_, rfl⟩ rfl) nofun ⟨_, rfl⟩ rfl, rfl, nofun⟩
  obtain ⟨s, hpassing, hhandlers, hactive⟩ := hpassing
  obtain ⟨-, hends⟩ := @step_limit_ends_runs { callDepth := 1, stackSize := 1, steps? := some 2 } _ 2 rfl
    ⟨#[⟨"", 0, #[Op.enterTry.toByte, 0, 0, Op.jumpBackward.toByte, 0, 6], .empty, #[]⟩], #[]⟩ 0 rfl default
  exact ⟨_, _, s, rfl, hpassing, hhandlers, ((hends 2 s hpassing).2 rfl).2 hactive⟩

end ShellVM
