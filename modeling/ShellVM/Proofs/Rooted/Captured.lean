import ShellVM.Proofs.Job.Operands
import ShellVM.Proofs.Rooted.Frames

/-!
# What is captured

A program call that is no root call gives a stream and writes nothing to the terminal (`Act.callProgram_captures`).
Wherever root calls nest, all program calls on top of a call that is none are such calls (`Machine.Placed.captures`).
-/

namespace ShellVM

variable {host : Host} {program : Program} {i : Instruction} {m : Machine} {f : Frame} {rest : List Frame}

theorem World.terminal_apart : World.Apart World.terminal := ⟨fun _ _ => rfl, fun _ _ => rfl, fun _ _ _ => rfl⟩

/-- Outside of root position a program call gives a stream. -/
theorem Job.run_gives_stream {call : ProgramCall} {flags : CallFlags} {v : Value} {w w' : World}
    (h : run call flags false w = .ok v w') : ∃ a, v = .stream a := by
  unfold run at h
  simp only [Bool.false_and, Bool.false_eq_true, if_false] at h
  split at h
  · obtain ⟨a, w₁, -, hpure⟩ := bind_ok.1 h
    cases hpure
    exact ⟨a, rfl⟩
  · obtain ⟨child, w₁, -, h⟩ := bind_ok.1 h
    obtain ⟨a, w₂, -, h⟩ := bind_ok.1 h
    split at h
    · obtain ⟨ls, w₃, -, hpure⟩ := bind_ok.1 h
      cases hpure
      exact ⟨a, rfl⟩
    · cases h
      exact ⟨a, rfl⟩

/-- The terminal is as it was, and if the program call does not fail, its stream is on top of the stack. -/
def Machine.Captured (m : Machine) (r : EStateM.Result Fault Machine Unit) : Prop :=
  Outcome (fun _ s => s.world.terminal = m.world.terminal ∧ ∃ a, s.stack.back? = some (.stream a))
    (fun s => s.world.terminal = m.world.terminal) r

/-- What a program call outside of root position does. -/
theorem Act.callProgram_captures (i : Instruction) (m : Machine) : m.Captured (callProgram (.fixed false) i m) := by
  have hoperands (flags : CallFlags) : Preserves (fun s : Machine => s.world.terminal)
      (programOperands (i.byte 0).toNat (i.byte 3).toNat flags) := programOperands_preserves (fun _ _ => rfl) _ _ flags
  refine (hoperands ⟨i.word 1⟩ m).bind fun operands s₁ _ h₁ => ?_
  have hrun : Preserves World.terminal (do Job.run (← programCall operands) ⟨i.word 1⟩ false) :=
    (programCall_preserves World.terminal_apart operands).bind fun call =>
      Job.run_preserves World.terminal_apart (fun _ _ => rfl) nofun
  have heffect : Outcome (fun v s => s.world.terminal = m.world.terminal ∧ ∃ a, v = .stream a)
      (fun s => s.world.terminal = m.world.terminal)
      (effect (do Job.run (← programCall operands) ⟨i.word 1⟩ false) s₁) := by
    have hw := hrun s₁.world
    unfold effect
    cases hresult : (do Job.run (← programCall operands) ⟨i.word 1⟩ false : Effect Value) s₁.world with
    | error e w =>
      rw [hresult] at hw
      exact Eq.trans hw h₁
    | ok v w =>
      rw [hresult] at hw
      obtain ⟨call, w₁, -, hcall⟩ := bind_ok.1 hresult
      exact ⟨Eq.trans hw h₁, Job.run_gives_stream hcall⟩
  refine heffect.bind fun v s₂ _ ⟨h₂, a, ha⟩ => ⟨h₂, a, ?_⟩
  rw [ha]
  exact Array.back?_push

/-- Does the instruction call a program? -/
def Op.callsProgram : Op → Bool
  | .callProgram | .rootCallProgram | .maybeRootCallProgram => true
  | _ => false

/-- A call that is no root call carries out a program call of its own or one that is left to it. -/
theorem Act.perform_callsProgram {page : Page} (hop : i.op.callsProgram = true) (hrooted : i.op.isRooted = false)
    (hf : f.isRoot = false) :
    perform host program page i (m.fetched f rest i) = callProgram (.fixed false) i (m.fetched f rest i) := by
  obtain ⟨offset, op, operands⟩ := i
  cases op with
  | callProgram => rfl
  | maybeRootCallProgram =>
    have hroot : root .inherited (m.fetched f rest ⟨offset, .maybeRootCallProgram, operands⟩) =
        .ok false (m.fetched f rest ⟨offset, .maybeRootCallProgram, operands⟩) := congrArg (EStateM.Result.ok · _) hf
    show callProgram .inherited _ _ = _
    unfold callProgram
    rw [bind_run_ok hroot]
    rfl
  | rootCallProgram => cases hrooted
  | _ => cases hop

/-- **Nothing on top of a call that is no root call is one.** -/
theorem Ranked.inner {entries : Nat → Prop} (h : Ranked entries m.calls) (hframes : m.frames = f :: rest)
    (hinner : ∃ g ∈ m.frames, g.isRoot = false) : f.isRoot = false := by
  obtain ⟨g, hg, hgroot⟩ := hinner
  have hroots := h.roots
  unfold Machine.calls at hroots
  rw [hframes] at hg hroots
  rcases List.mem_cons.1 hg with rfl | hg
  · exact hgroot
  · have := (List.pairwise_cons.1 hroots).1 g.call (List.mem_map_of_mem hg)
    cases hf : f.isRoot with
    | false => rfl
    | true => exact absurd ((this hf).symm.trans hgroot) (by decide)

/-- The next instruction makes a program call that is no root call, if no limit is exceeded. -/
structure Machine.Captures (host : Host) (program : Program) (m : Machine) (i : Instruction) : Prop where
  step : ∃ f rest, m.frames = f :: rest ∧ Act.step host program m =
    match host.exceeded? { m with steps := m.steps + 1 } with
    | none => Act.callProgram (.fixed false) i (m.fetched f rest i)
    | some (limit, max) => .error (.ofCause (.limitExceeded limit max)) { m with steps := m.steps + 1 }
  captured : m.Captured (Act.step host program m)

/-- **Program calls on top of a call that is no root call are captured.** -/
theorem Machine.Placed.captures {entries : Nat → Prop} (hprogram : program.Secludes entries) (hm : m.Placed program)
    (hranked : Ranked entries m.calls) (hnext : m.next? program = some i) (hop : i.op.callsProgram = true)
    (hinner : ∃ g ∈ m.frames, g.isRoot = false) : m.Captures host program i := by
  obtain ⟨f, rest, page, byte, hframes, hpage, -⟩ := next?_eq_some hnext
  have hroot := hranked.inner hframes hinner
  have hentry : ¬entries f.page.toNat := by
    intro he
    have := hranked.entry f.call (by unfold calls; rw [hframes]; exact List.mem_cons_self) he
    exact absurd (this.symm.trans hroot) (by decide)
  have hstep : Act.step host program m = _ := Act.step_of_next hframes hpage hnext
  have hperform : Act.perform host program page i (m.fetched f rest i) = _ :=
    Act.perform_callsProgram hop (hm.not_isRooted hprogram hframes hnext hentry) hroot
  refine ⟨⟨f, rest, hframes, ?_⟩, ?_⟩
  · rw [← hperform]
    exact hstep
  · rw [hstep]
    cases host.exceeded? { m with steps := m.steps + 1 } with
    | some l => rfl
    | none =>
      show m.Captured (Act.perform host program page i (m.fetched f rest i))
      rw [hperform]
      exact Act.callProgram_captures i (m.fetched f rest i)

end ShellVM
