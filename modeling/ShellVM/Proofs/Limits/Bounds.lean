import ShellVM.Proofs.Limits.Trades

/-!
# Runs stay within their limits

The stack is looked at before each step only, and an instruction or a recovery may put values on it after that. Still
every machine of a run has at most 254 values more than the limit allows, no call more than it allows, and no handler
that remembers a stack above the limit (`runs_stay_within_limits`). This is so for all programs.
-/

namespace ShellVM

variable {host : Host} {program : Program} {m s t : Machine}

/-- The machine is not larger than the limits allow. The last instruction may have put 254 values too many on the
stack. -/
structure Machine.Bounded (host : Host) (m : Machine) : Prop where
  stack : m.stack.size ≤ host.stackSize + 254
  depth : m.frames.length ≤ max 1 host.callDepth
  handlers : ∀ h ∈ m.handlers, h.stackHeight ≤ host.stackSize

/-! ## What becomes of a turn -/

/-- A turn is a step, or a step that fails for good, or one that fails and goes on at the innermost handler. -/
inductive Turned (host : Host) (program : Program) (m : Machine) : Prop where
  | stepped (s : Machine) (step : Act.step host program m = .ok () s) (turn : Act.turn host program m = .ok () s)
  | failed (e : Fault) (s : Machine) (step : Act.step host program m = .error e s)
      (turn : Act.turn host program m = .error (e.withTrace (s.trace program)) s)
  | caught (e : Fault) (s t : Machine) (h : Handler) (step : Act.step host program m = .error e s)
      (turn : Act.turn host program m = .ok () t) (handlers : m.handlers = h :: t.handlers)
      (depth : t.frames.length = h.frameDepth) (steps : t.steps = s.steps)
      (size : t.stack.size = min h.stackHeight s.stack.size + 1)

/-- A recovery counts no step. -/
theorem Act.recover_steps {fault : Fault} (h : recover program fault m = .ok () s) : s.steps = m.steps := by
  obtain ⟨handler, rest, f, callers, hcatch, hhandlers, hkeep, -⟩ := recover_ok h
  obtain ⟨t, ht⟩ := @recover_eq m program fault handler rest f callers hcatch hhandlers hkeep
  cases h.symm.trans ht
  rfl

/-- A fault that cannot be caught stays, with a trace. -/
theorem Act.recover_of_breach {fault : Fault} (h : fault.cause.isCatchable = false) :
    recover program fault m = .error (fault.withTrace (m.trace program)) m := by
  rw [recover_def, h]
  rfl

theorem Machine.Nested.turned (hm : m.Nested) (host : Host) [host.Lawful] (program : Program) :
    Turned host program m := by
  cases hstep : Act.step host program m with
  | ok _ s => exact .stepped s hstep (Act.turn_of_ok hstep)
  | error e s =>
    have hturn := Act.turn_of_error hstep
    obtain ⟨-, hhandlers⟩ := step_fails hstep
    cases hcatch : e.cause.isCatchable with
    | false => exact .failed e s hstep (hturn.trans (Act.recover_of_breach hcatch))
    | true =>
      cases houter : m.handlers with
      | nil => exact .failed e s hstep (hturn.trans (Act.recover_fails (hhandlers.trans houter)))
      | cons h outer =>
        obtain ⟨t, ht, rfl, -, hdepth, -, -, trace, hstack⟩ := hm.recovers hstep hcatch houter
        refine .caught e s t h hstep ht houter hdepth (Act.recover_steps (hturn.symm.trans ht)) ?_
        rw [hstack, Array.size_push, Array.size_shrink, Nat.min_comm]

/-! ## Steps -/

/-- A step that starts with too many values on the stack is refused, and only counted. -/
theorem Act.step_overfull (h : host.stackSize < m.stack.size) (program : Program) : ∃ limit max,
    step host program m = .error (.ofCause (.limitExceeded limit max)) { m with steps := m.steps + 1 } := by
  have hexceeded : ∃ limit max, host.exceeded? { m with steps := m.steps + 1 } = some (limit, max) := by
    simp only [Host.exceeded?, if_pos h]
    cases host.steps? with
    | none => exact ⟨_, _, rfl⟩
    | some max =>
      by_cases hsteps : max < m.steps + 1
      · simp [hsteps]
      · simp [hsteps]
  obtain ⟨limit, max, hexceeded⟩ := hexceeded
  refine ⟨limit, max, ?_⟩
  rw [step_eq, hexceeded]

namespace Machine.Bounded

theorem start (host : Host) (entry : UInt16) (w : World) : (Machine.start entry w).Bounded host :=
  ⟨Nat.zero_le _, Nat.le_max_left .., nofun⟩

theorem of_steps {n : Nat} (hm : m.Bounded host) : Machine.Bounded host { m with steps := n } := { hm with }

/-- A step keeps the machine within its limits, also if it fails. -/
theorem step [host.Lawful] (hm : m.Bounded host) (hnested : m.Nested) (program : Program) :
    ((Act.step host program).after m).Bounded host := by
  by_cases hfull : host.stackSize < m.stack.size
  · obtain ⟨limit, max, hstep⟩ := Act.step_overfull hfull program
    rw [Act.after_of_error hstep]
    exact hm.of_steps
  · have hgrows := Act.step_outgrows host program m
    refine ⟨?_, ?_, ?_⟩
    · have := hgrows.size
      simp only at this
      omega
    · have := hgrows.depth
      have := hm.depth
      simp only at *
      omega
    · intro h hh
      cases hstep : Act.step host program m with
      | error e s =>
        rw [Act.after_of_error hstep, (Nested.step_fails hstep).2] at hh
        exact hm.handlers h hh
      | ok _ s =>
        rw [Act.after_of_ok hstep] at hh
        rcases hnested.step_cases hstep with hstays | ⟨h', hopens⟩
        · exact hm.handlers h (hstays.handlers.subset hh)
        · rw [hopens.handlers] at hh
          rcases List.mem_cons.1 hh with rfl | hh
          · rw [hopens.height]
            omega
          · exact hm.handlers h hh

/-- So does a turn, whether the machine goes on at a handler or not. -/
theorem turn [host.Lawful] (hm : m.Bounded host) (hnested : m.Nested) (program : Program) :
    ((Act.turn host program).after m).Bounded host := by
  have hstepped := hm.step hnested program
  cases hnested.turned host program with
  | stepped s hstep hturn =>
    rw [Act.after_of_ok hstep] at hstepped
    rwa [Act.after_of_ok hturn]
  | failed e s hstep hturn =>
    rw [Act.after_of_error hstep] at hstepped
    rwa [Act.after_of_error hturn]
  | caught e s t h hstep hturn hhandlers hdepth _ hsize =>
    have hh : h ∈ m.handlers := hhandlers ▸ List.mem_cons_self ..
    rw [Act.after_of_ok hturn]
    refine ⟨?_, ?_, fun g hg => hm.handlers g (hhandlers ▸ List.mem_cons_of_mem h hg)⟩
    · have := hm.handlers h hh
      omega
    · have := (hnested.bounded h hh).2
      have := hm.depth
      omega

end Machine.Bounded

/-! ## Runs -/

/-- All machines of a run are within its limits, just after each instruction and each recovery. With too many values
on the stack no instruction is carried out. -/
theorem runs_stay_within_limits (host : Host) [host.Lawful] (program : Program) (entry : UInt16) (w : World)
    {m : Machine} (hm : Turns host program Machine.Active (Machine.start entry w) m) :
    m.Bounded host ∧ ((Act.step host program).after m).Bounded host ∧
      ((Act.turn host program).after m).Bounded host ∧
      (host.stackSize < m.stack.size → ∃ limit max,
        Act.step host program m = .error (.ofCause (.limitExceeded limit max)) { m with steps := m.steps + 1 }) := by
  have hbounded : m.Nested ∧ m.Bounded host := by
    refine hm.keeps (I := fun m => m.Nested ∧ m.Bounded host) ⟨.start entry w, .start host entry w⟩ ?_
    intro s s' ⟨hnested, hs⟩ _ hturn
    have := hs.turn hnested program
    rw [Act.after_of_ok hturn] at this
    exact ⟨hnested.turn hturn, this⟩
  obtain ⟨hnested, hm⟩ := hbounded
  exact ⟨hm, hm.step hnested program, hm.turn hnested program, fun h => Act.step_overfull h program⟩

/-- Where no value may lie on the stack, the instruction after the first one is refused. -/
theorem runs_stay_within_limits_at_zero : ∃ (program : Program) (host : Host) (m : Machine), host.stackSize = 0 ∧
    Turns host program Machine.Active (Machine.start 0 default) m ∧ m.stack.size = 1 ∧ m.Bounded host ∧
    ∃ limit max, Act.step host program m = .error (.ofCause (.limitExceeded limit max))
      { m with steps := m.steps + 1 } := by
  have hrun : ∃ m, Act.run { callDepth := 1, stackSize := 0 } ⟨#[⟨"", 0, #[Op.const.toByte, 0, 0], .empty, #[]⟩], #[]⟩ 1
      (Machine.start 0 default) = .ok false m ∧ m.stack.size = 1 := ⟨_, rfl, rfl⟩
  obtain ⟨m, hm, hsize⟩ := hrun
  have hturns := Act.turns_of_run hm
  obtain ⟨hbounded, -, -, hrefused⟩ := runs_stay_within_limits _ _ _ _ hturns
  exact ⟨_, _, m, rfl, hturns, hsize, hbounded, hrefused (by rw [hsize]; decide)⟩

end ShellVM
