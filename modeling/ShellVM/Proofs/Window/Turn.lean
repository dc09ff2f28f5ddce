import ShellVM.Proofs.Window.Recover

/-!
# Turns

A turn of a machine on top of a context leads from shape to shape. It ends in the return of the outermost call above the
context, or in a fault that no handler above the context is there for (`turn_cases`).
-/

namespace ShellVM

variable {V : View} {k : Context} {A : Activation} {q : Nat} {σ : Shape} {m m' : Machine} {program : Program}
  {functions : List (Nat × UInt16)} {host : Host} {limits' : Limits}

/-- The limit of the run that a machine has exceeded. -/
def Host.exceeded? (host : Host) (m : Machine) : Option (Limit × Nat) :=
  let stackSize? := if host.stackSize < m.stack.size then some (.stackSize, host.stackSize) else none
  match host.steps? with
  | some max => if max < m.steps then some (.step, max) else stackSize?
  | none => stackSize?

theorem Host.exceeded?_ne {limit : Limit} {max : Nat} (h : host.exceeded? m = some (limit, max)) :
    limit ≠ .repeatedLength := by
  have hstack : (if host.stackSize < m.stack.size then some (.stackSize, host.stackSize) else none) =
      some (limit, max) → limit ≠ .repeatedLength := by
    split
    · rintro ⟨⟩
      exact nofun
    · exact nofun
  unfold Host.exceeded? at h
  cases hsteps : host.steps? with
  | none =>
    rw [hsteps] at h
    exact hstack h
  | some n =>
    rw [hsteps] at h
    simp only at h
    split at h
    · cases h
      exact nofun
    · exact hstack h

namespace Act

/-- Counting a step changes nothing else. -/
theorem checkLimits_eq (host : Host) (m : Machine) : checkLimits host m =
    match host.exceeded? { m with steps := m.steps + 1 } with
    | none => .ok () { m with steps := m.steps + 1 }
    | some (limit, max) => .error (.ofCause (.limitExceeded limit max)) { m with steps := m.steps + 1 } := by
  have hstack : (if host.stackSize < m.stack.size then fail (.limitExceeded .stackSize host.stackSize) else pure () :
      Act Unit) { m with steps := m.steps + 1 } =
      match (if host.stackSize < m.stack.size then some (.stackSize, host.stackSize) else none :
        Option (Limit × Nat)) with
      | none => .ok () { m with steps := m.steps + 1 }
      | some (limit, max) => .error (.ofCause (.limitExceeded limit max)) { m with steps := m.steps + 1 } := by
    by_cases h : host.stackSize < m.stack.size
    · rw [if_pos h, if_pos h]
      rfl
    · rw [if_neg h, if_neg h]
      rfl
  unfold checkLimits Host.exceeded?
  cases host.steps? with
  | none => exact hstack
  | some max =>
    show (if max < m.steps + 1 then _ else if host.stackSize < m.stack.size then _ else _ : Act Unit) _ =
      match (if max < m.steps + 1 then _ else _ : Option (Limit × Nat)) with
      | none => _
      | some (limit, max) => _
    by_cases h : max < m.steps + 1
    · rw [if_pos h, if_pos h]
      rfl
    · rw [if_neg h, if_neg h]
      exact hstack

/-- A step counts itself, and then the machine moves on. -/
theorem step_eq (host : Host) (program : Program) (m : Machine) : step host program m =
    match host.exceeded? { m with steps := m.steps + 1 } with
    | none => advance host program { m with steps := m.steps + 1 }
    | some (limit, max) => .error (.ofCause (.limitExceeded limit max)) { m with steps := m.steps + 1 } := by
  show EStateM.bind (checkLimits host) _ m = _
  unfold EStateM.bind
  rw [checkLimits_eq]
  cases host.exceeded? { m with steps := m.steps + 1 } <;> rfl

theorem turn_of_ok {s : Machine} (h : step host program m = .ok () s) : turn host program m = .ok () s := by
  unfold turn
  rw [h]

theorem turn_of_error {fault : Fault} {s : Machine} (h : step host program m = .error fault s) :
    turn host program m = recover program fault s := by
  unfold turn
  rw [h]

end Act

theorem Cause.isCatchable_of_isPlain {cause : Cause} (h : cause.isPlain) : cause.isCatchable := by
  cases cause with
  | internal => cases h
  | _ => rfl

theorem Alarmed.isCatchable {e f : Fault} (h : Alarmed host limits' e f) : e.cause.isCatchable := by
  rcases h with ⟨-, h⟩ | ⟨h, -⟩
  · exact Cause.isCatchable_of_isPlain h
  · rw [h]
    rfl

theorem Inside.count (hm : Inside V k A q σ m m') (n n' : Nat) :
    Inside V k A q σ { m with steps := n } { m' with steps := n' } := { hm with shaped := { hm.shaped with } }

/-- The machine is in a call of the program, at some offset with some shape. -/
def Halted (V : View) (program : Program) (functions : List (Nat × UInt16)) (k : Context) (m m' : Machine) : Prop :=
  ∃ A q σ, Stands V program functions A ∧ Inside V k A q σ m m'

theorem Going.halted (hm : Going V program functions k m m') (n n' : Nat) :
    Halted V program functions k { m with steps := n } { m' with steps := n' } := by
  obtain ⟨A, q, σ, hA, -, hm⟩ := hm
  exact ⟨A, q, σ, hA, hm.count n n'⟩

/-- A machine that has failed goes on at its innermost handler, if there is one. -/
theorem Halted.recovers {e f : Fault} (hm : Halted V program functions k m m') (hcause : f.cause = e.cause)
    (hcatch : e.cause.isCatchable) : m'.handlers = [] ∨ ∃ s s', Act.recover program e m = .ok () s ∧
      Act.recover program f m' = .ok () s' ∧ Going V program functions k s s' := by
  obtain ⟨A, q, σ, hA, hinside⟩ := hm
  cases hhandlers : m'.handlers with
  | nil => exact .inl rfl
  | cons h rest => exact .inr (recover_going hA hinside hcause hcatch hhandlers)

/-! ## Two machines side by side -/

section

variable (hserves : ∀ id index, functions.lookup id = some index → program.Hosts functions index 0)

include hserves

/-- One step of both machines, if neither has exceeded a limit. -/
theorem step_both [host.Lawful] (hroom : k.Room host limits') (hm : Going V program functions k m m')
    (hlimits : host.exceeded? { m with steps := m.steps + 1 } = none)
    (hlimits' : (host.under limits').exceeded? { m' with steps := m'.steps + 1 } = none) :
    Both (fun _ _ => Onward program functions k)
      (fun e f s s' => Alarmed host limits' e f ∧ Halted V program functions k s s')
      (Act.step host program m) (Act.step (host.under limits') program m') := by
  obtain ⟨A, q, σ, hA, hq, hm⟩ := hm
  rw [Act.step_eq, Act.step_eq, hlimits, hlimits']
  exact (advance_onward hroom hserves hA hq (hm.count (m.steps + 1) (m'.steps + 1))).imp (fun _ _ _ _ h => h)
    fun _ _ _ _ ⟨halarmed, q, σ, hs⟩ => ⟨halarmed, A, q, σ, hA, hs⟩

/-! ## One machine on top of another -/

/-- Limits that are out of reach for the next step, but leave the same room for calls. -/
def Context.ample (k : Context) (host : Host) (m : Machine) : Limits :=
  ⟨host.callDepth - k.frames.length, m.stack.size, none⟩

omit hserves in
theorem Context.room_ample (k : Context) (host : Host) (m : Machine) : k.Room host (k.ample host m) := fun n => by
  show host.callDepth ≤ n + k.frames.length ↔ host.callDepth - k.frames.length ≤ n
  omega

variable (host) [host.Lawful]

/-- A step above a context: the calls go on, or the outermost one returns, or the step fails in a call. -/
theorem step_cases (hm : Going V program functions k m m') :
    (∃ s s', Act.step host program m = .ok () s ∧ Onward program functions k s s') ∨
      ∃ e s s', Act.step host program m = .error e s ∧ e.cause.isCatchable ∧ Halted V program functions k s s' := by
  cases hlimits : host.exceeded? { m with steps := m.steps + 1 } with
  | some l =>
    have hstep := Act.step_eq host program m
    rw [hlimits] at hstep
    exact .inr ⟨_, _, _, hstep, rfl, hm.halted _ m'.steps⟩
  | none =>
    have hample : (host.under (k.ample host m')).exceeded? { m' with steps := m'.steps + 1 } = none :=
      if_neg (Nat.lt_irrefl _)
    rcases (step_both hserves (k.room_ample host m') hm hlimits hample).cases with
      ⟨_, _, s, s', hstep, -, hs⟩ | ⟨e, f, s, s', hstep, -, halarmed, hs⟩
    · exact .inl ⟨s, s', hstep, hs⟩
    · exact .inr ⟨e, s, s', hstep, halarmed.isCatchable, hs⟩

/-- A turn above a context: the calls go on, maybe at a handler, or the outermost one returns, or no handler above the
context is there for a fault. -/
theorem turn_cases (hm : Going V program functions k m m') :
    (∃ s s', Act.turn host program m = .ok () s ∧ Onward program functions k s s') ∨
      ∃ e s s', Act.step host program m = .error e s ∧ e.cause.isCatchable ∧ Halted V program functions k s s' ∧
        s'.handlers = [] := by
  obtain ⟨s, s', hstep, hs⟩ | ⟨e, s, s', hstep, hcatch, hs⟩ :
      (∃ s s', Act.step host program m = .ok () s ∧ _) ∨ _ := step_cases host hserves hm
  · exact .inl ⟨s, s', Act.turn_of_ok hstep, hs⟩
  · rcases hs.recovers (e := e) rfl hcatch with hnil | ⟨t, t', ht, -, hgoing⟩
    · exact .inr ⟨e, s, s', hstep, hcatch, hs, hnil⟩
    · exact .inl ⟨t, t', (Act.turn_of_error hstep).trans ht, V, .inl hgoing⟩

/-! ## A machine by itself -/

omit hserves [host.Lawful] in
theorem Context.room_empty : Context.empty.Room host host.toLimits := fun _ => Iff.rfl

/-- A step of a run keeps the shape, also if it fails. -/
theorem step_self (hm : Going V program functions .empty m m) :
    (∃ s, Act.step host program m = .ok () s ∧ Onward program functions .empty s s) ∨
      ∃ e s, Act.step host program m = .error e s ∧ e.cause.isCatchable ∧ Halted V program functions .empty s s := by
  cases hlimits : host.exceeded? { m with steps := m.steps + 1 } with
  | some l =>
    have hstep := Act.step_eq host program m
    rw [hlimits] at hstep
    exact .inr ⟨_, _, hstep, rfl, hm.halted _ _⟩
  | none =>
    rcases (step_both hserves (Context.room_empty host) hm hlimits hlimits).cases with
      ⟨_, _, s, s', hstep, hstep', hs⟩ | ⟨e, f, s, s', hstep, hstep', halarmed, hs⟩
    · cases hstep.symm.trans hstep'
      exact .inl ⟨s, hstep, hs⟩
    · cases hstep.symm.trans hstep'
      exact .inr ⟨e, s, hstep, halarmed.isCatchable, hs⟩

/-- A turn of a run keeps the shape, or ends the run with a fault. -/
theorem turn_self (hm : Going V program functions .empty m m) :
    (∃ s, Act.turn host program m = .ok () s ∧ Onward program functions .empty s s) ∨
      ∃ e s, Act.turn host program m = .error e s ∧ e.cause.isCatchable := by
  obtain ⟨s, hstep, hs⟩ | ⟨e, s, hstep, hcatch, hs⟩ :
      (∃ s, Act.step host program m = .ok () s ∧ _) ∨ _ := step_self host hserves hm
  · exact .inl ⟨s, Act.turn_of_ok hstep, hs⟩
  · rw [Act.turn_of_error hstep]
    rcases hs.recovers (e := e) rfl hcatch with hnil | ⟨t, t', ht, ht', hgoing⟩
    · exact .inr ⟨_, _, Act.recover_fails hnil, by rwa [Fault.withTrace_cause]⟩
    · cases ht.symm.trans ht'
      exact .inl ⟨t, ht, V, .inl hgoing⟩

end

end ShellVM
