import ShellVM.Proofs.Turns
import ShellVM.Proofs.Window.Turn

/-!
# Runs that reach no limit

A step that reaches no limit of the run does not depend on the limits (`Act.step_quiet`). So two runs that reach none,
one of them on top of a context, go on side by side whatever their limits are (`turn_quiet`).
-/

namespace ShellVM

/-- Is the cause a limit of the run? -/
def Cause.isRunLimit : Cause → Bool
  | .limitExceeded limit _ => limit ≠ .repeatedLength
  | _ => false

variable {V : View} {k : Context} {m m' : Machine} {program : Program} {functions : List (Nat × UInt16)}
  {host : Host} {limits' : Limits}

/-- The next step reaches no limit of the run. -/
def Machine.Quiet (host : Host) (program : Program) (m : Machine) : Prop :=
  ∀ e s, Act.step host program m = .error e s → ¬e.cause.isRunLimit

/-- So no limit is exceeded in front of it. -/
theorem Machine.Quiet.exceeded?_eq_none (h : m.Quiet host program) :
    host.exceeded? { m with steps := m.steps + 1 } = none := by
  cases hlimits : host.exceeded? { m with steps := m.steps + 1 } with
  | none => rfl
  | some l =>
    have hstep := Act.step_eq host program m
    rw [hlimits] at hstep
    exact (h _ _ hstep (decide_eq_true (Host.exceeded?_ne hlimits))).elim

namespace Act

/-- Two outcomes are the same, or the first is that there are too many calls. -/
def Unless (host : Host) {α : Type} (x y : EStateM.Result Fault Machine α) : Prop :=
  x = y ∨ ∃ s, x = .error (.ofCause (.limitExceeded .callDepth host.callDepth)) s

theorem enter_unless (hdepth : m.frames.length < limits'.callDepth) (index : UInt16) (environment? : Option Addr)
    (count : Nat) (isRoot : Bool) : Unless host (enter host program index environment? count isRoot m)
      (enter (host.under limits') program index environment? count isRoot m) := by
  unfold enter
  cases program.page? index with
  | none => exact .inl rfl
  | some page =>
    show Unless host ((if count ≠ page.arity.toNat then _ else if host.callDepth ≤ m.frames.length then _ else _ :
      Act Unit) m) ((if count ≠ page.arity.toNat then _ else if limits'.callDepth ≤ m.frames.length then _ else _ :
        Act Unit) m)
    split
    · exact .inl rfl
    · rw [if_neg (Nat.not_le.2 hdepth)]
      split
      · exact .inr ⟨m, rfl⟩
      · exact .inl rfl

theorem call_unless (hdepth : m.frames.length < limits'.callDepth) (callee : Value) (count : Nat) (isRoot : Bool) :
    Unless host (call host program callee count isRoot m)
      (call (host.under limits') program callee count isRoot m) := by
  cases callee with
  | function f =>
    cases f with
    | page index name => exact enter_unless hdepth ..
    | closure index environment => exact enter_unless hdepth ..
    | library f => exact .inl rfl
  | _ => exact .inl rfl

theorem root_eq (r : Rootness) (m : Machine) :
    (∃ b, root r m = .ok b m) ∨ root r m = .error (.ofBreach .noFrame) m := by
  cases r with
  | fixed b => exact .inl ⟨b, rfl⟩
  | inherited =>
    show (∃ b, EStateM.bind frame _ m = .ok b m) ∨ EStateM.bind frame _ m = _
    unfold EStateM.bind frame
    cases m.frames with
    | nil => exact .inr rfl
    | cons f rest => exact .inl ⟨_, rfl⟩

theorem takeCallee_frames {count : Nat} {v : Value} {s : Machine} (h : takeCallee count m = .ok v s) :
    s.frames = m.frames := by
  unfold takeCallee at h
  split at h
  · cases h
    rfl
  · cases h

theorem callValue_unless (hdepth : m.frames.length < limits'.callDepth) (r : Rootness) (count : Nat) :
    Unless host (callValue host program r count m) (callValue (host.under limits') program r count m) := by
  unfold callValue
  rcases root_eq r m with ⟨b, hb⟩ | hb
  · rw [bind_run_ok hb, bind_run_ok hb]
    cases h : takeCallee count m with
    | ok v s =>
      rw [bind_run_ok h, bind_run_ok h]
      exact call_unless (by rw [takeCallee_frames h]; exact hdepth) v count b
    | error e s =>
      rw [bind_run_error h, bind_run_error h]
      exact .inl rfl
  · rw [bind_run_error hb, bind_run_error hb]
    exact .inl rfl

/-- Only calls depend on the limits. -/
theorem perform_unless (hdepth : m.frames.length < limits'.callDepth) (page : Page) (i : Instruction) :
    Unless host (perform host program page i m) (perform (host.under limits') program page i m) := by
  obtain ⟨p, op, operands⟩ := i
  cases op with
  | call | rootCall | maybeRootCall => exact callValue_unless hdepth _ _
  | _ => exact .inl rfl

theorem advance_unless (hdepth : m.frames.length < limits'.callDepth) :
    Unless host (advance host program m) (advance (host.under limits') program m) := by
  show Unless host (EStateM.bind frame _ m) (EStateM.bind frame _ m)
  unfold EStateM.bind frame
  cases hframes : m.frames with
  | nil => exact .inl rfl
  | cons f rest =>
    simp only
    cases program.page? f.page with
    | none => exact .inl rfl
    | some page =>
      simp only
      cases page.code[f.ip]? with
      | none => exact .inl rfl
      | some byte =>
        simp only
        cases readInstruction page.code f.ip byte with
        | error u => cases u <;> exact .inl rfl
        | ok i =>
          have hjump : jump i.next m = .ok () { m with frames := { f with ip := i.next } :: rest } := by
            unfold jump modifyFrame
            rw [hframes]
          simp only [bind_run_ok hjump]
          refine perform_unless ?_ page i
          rw [hframes] at hdepth
          exact hdepth

/-- A step that reaches no limit is the same with limits that are out of reach. -/
theorem step_quiet (hquiet : m.Quiet host program) (hdepth : m.frames.length < limits'.callDepth)
    (hlimits : (host.under limits').exceeded? { m with steps := m.steps + 1 } = none) :
    step host program m = step (host.under limits') program m := by
  have hstep := step_eq host program m
  have hstep' := step_eq (host.under limits') program m
  rw [hlimits] at hstep'
  cases hexceeded : host.exceeded? { m with steps := m.steps + 1 } with
  | some l =>
    rw [hexceeded] at hstep
    exact absurd (decide_eq_true (Host.exceeded?_ne hexceeded)) (hquiet _ _ hstep)
  | none =>
    rw [hexceeded] at hstep
    have hadvance : Unless host (advance host program { m with steps := m.steps + 1 })
        (advance (host.under limits') program { m with steps := m.steps + 1 }) := advance_unless hdepth
    rcases hadvance with h | ⟨s, h⟩
    · exact hstep.trans (h.trans hstep'.symm)
    · exact absurd rfl (hquiet _ _ (hstep.trans h))

end Act

/-- Limits that are out of reach for a machine, with room for so many calls. -/
def Machine.ample (m : Machine) (calls : Nat) : Limits := ⟨calls, m.stack.size, none⟩

theorem Machine.exceeded?_ample (m : Machine) (calls : Nat) (host : Host) :
    (host.under (m.ample calls)).exceeded? { m with steps := m.steps + 1 } = none :=
  if_neg (Nat.lt_irrefl _)

/-- One step of a machine on top of a context and of the machine by itself, if neither reaches a limit. -/
theorem step_both_quiet [host.Lawful]
    (hserves : ∀ id index, functions.lookup id = some index → program.Hosts functions index 0)
    (hm : Going V program functions k m m') (hquiet : m.Quiet host program)
    (hquiet' : m'.Quiet (host.under limits') program) : Both (fun _ _ => Onward program functions k)
      (fun e f s s' => (f.cause = e.cause ∧ e.cause.isCatchable) ∧ Halted V program functions k s s')
      (Act.step host program m) (Act.step (host.under limits') program m') := by
  have hframes : m.frames.length = m'.frames.length + k.frames.length := by
    obtain ⟨A, q, σ, -, -, hinside⟩ := hm
    rw [hinside.frames, List.length_append, List.length_map]
  have hroom : k.Room (host.under (m.ample (m'.frames.length + 1 + k.frames.length)))
      (m'.ample (m'.frames.length + 1)) := fun n => by
    show m'.frames.length + 1 + k.frames.length ≤ n + k.frames.length ↔ m'.frames.length + 1 ≤ n
    omega
  have hstep :
      Act.step host program m = Act.step (host.under (m.ample (m'.frames.length + 1 + k.frames.length))) program m :=
    Act.step_quiet hquiet (by show _ < m'.frames.length + 1 + k.frames.length; omega) (m.exceeded?_ample _ host)
  have hstep' : Act.step (host.under limits') program m' =
      Act.step (host.under (m'.ample (m'.frames.length + 1))) program m' :=
    Act.step_quiet hquiet' (Nat.lt_succ_self _) (m'.exceeded?_ample _ host)
  rw [hstep, hstep']
  refine (step_both hserves hroom hm (m.exceeded?_ample _ host) (m'.exceeded?_ample _ host)).cases.elim ?_ ?_
  · rintro ⟨_, _, s, s', h, h', hs⟩
    rw [h, h']
    exact hs
  · rintro ⟨e, f, s, s', h, h', ⟨hcause, hplain⟩ | ⟨hcause, -⟩, hs⟩
    · rw [h, h']
      exact ⟨⟨hcause, Cause.isCatchable_of_isPlain hplain⟩, hs⟩
    · refine absurd ?_ (hquiet e s (hstep.trans h))
      rw [hcause]
      rfl

/-- One turn of both machines, if neither reaches a limit: the calls go on, or the outermost one returns, or both fail
for the same cause with no handler for it. -/
theorem turn_both_quiet [host.Lawful]
    (hserves : ∀ id index, functions.lookup id = some index → program.Hosts functions index 0)
    (hm : Going V program functions k m m') (hquiet : m.Quiet host program)
    (hquiet' : m'.Quiet (host.under limits') program) :
    (∃ s s' V, Act.turn host program m = .ok () s ∧ Act.turn (host.under limits') program m' = .ok () s' ∧
      Going V program functions k s s') ∨
    (∃ s s' V, Act.step host program m = .ok () s ∧ Act.step (host.under limits') program m' = .ok () s' ∧
      Done V k s s') ∨
    ∃ e f s s', Act.step host program m = .error e s ∧ Act.step (host.under limits') program m' = .error f s' ∧
      f.cause = e.cause ∧ Halted V program functions k s s' ∧ s'.handlers = [] := by
  rcases (step_both_quiet hserves hm hquiet hquiet').cases with
    ⟨_, _, s, s', hstep, hstep', V, hgoing | hdone⟩ | ⟨e, f, s, s', hstep, hstep', ⟨hcause, hcatch⟩, hs⟩
  · exact .inl ⟨s, s', V, Act.turn_of_ok hstep, Act.turn_of_ok hstep', hgoing⟩
  · exact .inr (.inl ⟨s, s', V, hstep, hstep', hdone⟩)
  · rcases hs.recovers hcause hcatch with hnil | ⟨t, t', ht, ht', hgoing⟩
    · exact .inr (.inr ⟨e, f, s, s', hstep, hstep', hcause, hs, hnil⟩)
    · exact .inl ⟨t, t', V, (Act.turn_of_error hstep).trans ht, (Act.turn_of_error hstep').trans ht', hgoing⟩

/-! ## Calm runs -/

namespace Machine

/-- No turn from here reaches a limit of the run. -/
def Calm (host : Host) (program : Program) (m : Machine) : Prop :=
  ∀ s, Turns host program Machine.Active m s → s.Quiet host program

/-- The next step reaches no limit, nor do those after it until the run is over, `fuel` steps at most. -/
def staysCalm (host : Host) (program : Program) : (fuel : Nat) → Machine → Bool
  | 0, _ => false
  | fuel + 1, m =>
    (match Act.step host program m with
      | .error e _ => !e.cause.isRunLimit
      | .ok .. => true) &&
    (m.frames.isEmpty ||
      match Act.turn host program m with
      | .ok _ m => staysCalm host program fuel m
      | .error .. => true)

theorem calm_of_staysCalm {fuel : Nat} (h : m.staysCalm host program fuel = true) : m.Calm host program := by
  induction fuel generalizing m with
  | zero => cases h
  | succ fuel ih =>
    rw [staysCalm, Bool.and_eq_true] at h
    obtain ⟨hquiet, hrest⟩ := h
    have hfirst : m.Quiet host program := fun e s hstep => by
      rw [hstep] at hquiet
      simpa using hquiet
    intro s hs
    rcases hs.first with rfl | ⟨m', hturn, hactive, hs⟩
    · exact hfirst
    · rw [hturn, Bool.or_eq_true] at hrest
      exact ih (hrest.resolve_left fun hnil => hactive (List.isEmpty_iff.1 hnil)) s hs

end Machine

end ShellVM
