import ShellVM.Proofs.Calls
import ShellVM.Proofs.Interning

/-!
# Calls from outside

A function that is called from outside does what it does when a script calls it (`Calls.same_outcome`): the machine that
the call from outside has for itself is the one on top of the context of the script's call, and as long as no limit is
reached both take the same turns.
-/

namespace ShellVM

variable {V : View} {k : Context} {m s : Machine} {program : Program} {functions : List (Nat × UInt16)} {host : Host}
  {limits' : Limits} {i : Instruction} {f : Frame} {rest : List Frame} {below arguments : Array Value}
  {callee : Value}

namespace Program

/-! ## What a call from outside gives -/

variable {m₁ t : Machine} {w : World} {fuel : Nat} {v : Value} {fault : Fault}

theorem callFunction_def (host : Host) (program : Program) (callee : Value) (arguments : Array Value) (fuel : Nat)
    (w : World) : program.callFunction host callee arguments fuel w =
      match Act.call host program callee arguments.size false (.idle arguments w) with
      | .ok _ m₁ =>
        (match Act.run host program fuel m₁ with
        | .ok true s =>
          match s.stack.back? with
          | some v => .ok (some v) s.world
          | none => .error (.ofBreach .stackUnderflow) s.world
        | .ok false s => .ok none s.world
        | .error fault s => .error fault s.world)
      | .error fault s => .error fault s.world := by
  have hdef : program.callFunction host callee arguments fuel w = Machine.within arguments
      (EStateM.bind (Act.call host program callee arguments.size false) fun _ =>
        EStateM.bind (Act.run host program fuel) fun done => if done then EStateM.map some Act.pop
        else EStateM.pure none)
      w := rfl
  rw [hdef]
  unfold Machine.within EStateM.bind
  cases Act.call host program callee arguments.size false (.idle arguments w) with
  | error fault s => rfl
  | ok _ m₁ =>
    simp only
    cases Act.run host program fuel m₁ with
    | error fault s => rfl
    | ok done s =>
      cases done with
      | false => rfl
      | true =>
        have hpop : Act.pop s = match s.stack.back? with
            | some v => .ok v { s with stack := s.stack.pop }
            | none => .error (.ofBreach .stackUnderflow) s := rfl
        simp only [if_true, EStateM.map, hpop]
        cases s.stack.back? <;> rfl

theorem callFunction_eq (h : Act.call host program callee arguments.size false (.idle arguments w) = .ok () m₁) :
    program.callFunction host callee arguments fuel w =
      match Act.run host program fuel m₁ with
      | .ok true s =>
        match s.stack.back? with
        | some v => .ok (some v) s.world
        | none => .error (.ofBreach .stackUnderflow) s.world
      | .ok false s => .ok none s.world
      | .error fault s => .error fault s.world := by
  rw [callFunction_def, h]

theorem callFunction_of_error
    (h : Act.call host program callee arguments.size false (.idle arguments w) = .error fault t) :
    program.callFunction host callee arguments fuel w = .error fault t.world := by
  rw [callFunction_def, h]

theorem callFunction_of_turns (h : Act.call host program callee arguments.size false (.idle arguments w) = .ok () m₁)
    (hturns : Turns host program Machine.Active m₁ t) (hidle : t.frames = []) (hback : t.stack.back? = some v) :
    ∃ fuel, program.callFunction host callee arguments fuel w = .ok (some v) t.world := by
  obtain ⟨n, hn⟩ := Act.run_of_turns hturns
  refine ⟨n, ?_⟩
  rw [callFunction_eq h, ← Nat.add_zero n, hn, Act.run_of_nil hidle]
  simp only [hback]

theorem callFunction_of_fault (h : Act.call host program callee arguments.size false (.idle arguments w) = .ok () m₁)
    (hturns : Turns host program Machine.Active m₁ s) (hactive : s.Active)
    (hturn : Act.turn host program s = .error fault t) :
    ∃ fuel, program.callFunction host callee arguments fuel w = .error fault t.world := by
  obtain ⟨n, hn⟩ := Act.run_of_turns hturns
  refine ⟨n + 1, ?_⟩
  rw [callFunction_eq h, hn, Act.run_succ hactive, hturn]

/-- How a call from outside ends. -/
theorem callFunction_cases (fuel : Nat)
    (h : Act.call host program callee arguments.size false (.idle arguments w) = .ok () m₁) :
    ∃ s, Turns host program Machine.Active m₁ s ∧
      (s.frames = [] ∧ program.callFunction host callee arguments fuel w =
        (match s.stack.back? with
        | some v => .ok (some v) s.world
        | none => .error (.ofBreach .stackUnderflow) s.world) ∨
      s.Active ∧ program.callFunction host callee arguments fuel w = .ok none s.world ∨
      s.Active ∧ ∃ fault t, Act.turn host program s = .error fault t ∧
        program.callFunction host callee arguments fuel w = .error fault t.world) := by
  obtain ⟨s, hturns, hrun | ⟨hactive, fault, t, hturn, hrun⟩⟩ := Act.run_cases fuel m₁
  · refine ⟨s, hturns, ?_⟩
    rw [callFunction_eq h, hrun]
    cases hframes : s.frames with
    | nil => exact .inl ⟨rfl, rfl⟩
    | cons f rest => exact .inr (.inl ⟨by unfold Machine.Active; rw [hframes]; exact nofun, rfl⟩)
  · refine ⟨s, hturns, .inr (.inr ⟨hactive, fault, t, hturn, ?_⟩)⟩
    rw [callFunction_eq h, hrun]

end Program

/-! ## Side by side -/

/-- The call from outside reaches no limit. -/
def Program.CallsQuietly (program : Program) (host : Host) (callee : Value) (arguments : Array Value) (w : World) :
    Prop :=
  match Act.call host program callee arguments.size false (.idle arguments w) with
  | .ok _ m₁ => ∀ s, Turns host program Machine.Active m₁ s → s.Active → s.Quiet host program
  | .error fault _ => ¬fault.cause.isRunLimit

/-- Does the call from outside give a value, within so many turns, and reach no limit? -/
def Program.answers (program : Program) (host : Host) (callee : Value) (arguments : Array Value) (fuel : Nat)
    (w : World) : Bool :=
  (match Act.call host program callee arguments.size false (.idle arguments w) with
  | .ok _ m₁ => m₁.staysCalm host program fuel
  | .error .. => false) &&
  match program.callFunction host callee arguments fuel w with
  | .ok (some _) _ => true
  | _ => false

theorem Program.exists_of_answers {fuel : Nat} {w : World} (h : program.answers host callee arguments fuel w = true) :
    program.CallsQuietly host callee arguments w ∧
      ∃ v w', program.callFunction host callee arguments fuel w = .ok (some v) w' := by
  obtain ⟨hcalm, hvalue⟩ := Bool.and_eq_true_iff.1 h
  constructor
  · unfold CallsQuietly
    split at hcalm
    · exact fun s hs _ => Machine.calm_of_staysCalm hcalm s hs
    · cases hcalm
  · split at hvalue
    · next v w' hcall => exact ⟨v, w', hcall⟩
    · cases hvalue

/-- What is reached during an instruction is reached by turns. -/
theorem Act.During.turns (hm : m.Active) (hs : Act.During host program m s) :
    Turns host program Machine.Active m s := by
  suffices h : Turns host program Machine.Active m s ∧ s.Active from h.1
  induction hs with
  | here => exact ⟨.refl, hm⟩
  | turn _ next deeper ih =>
    refine ⟨.turn ih.1 ih.2 next, fun hnil => ?_⟩
    rw [hnil] at deeper
    exact absurd deeper (Nat.not_lt_zero _)

/-- The value on top of the stack is this one, and the world is this one, up to the traces of errors. -/
def Machine.Leaves (m : Machine) (v : Value) (w : World) : Prop :=
  ∃ V u, m.stack.back? = some u ∧ u.Alike V v ∧ m.world.Alike V w

/-- The instruction of a machine, which calls a function, does what a call of the function from outside does. -/
structure SameOutcome (host : Host) (limits' : Limits) (program : Program) (m : Machine) (callee : Value)
    (arguments : Array Value) : Prop where
  returns : ∀ s, Act.Returns host program m s → ∃ fuel v w,
    program.callFunction (host.under limits') callee arguments fuel m.world = .ok (some v) w ∧ s.Leaves v w
  raises : ∀ e, Act.Raises host program m e → ∃ fuel e' w,
    program.callFunction (host.under limits') callee arguments fuel m.world = .error e' w ∧ e'.cause = e.cause
  returned : ∀ fuel v w, program.callFunction (host.under limits') callee arguments fuel m.world = .ok (some v) w →
    ∃ s, Act.Returns host program m s ∧ s.Leaves v w
  raised : ∀ fuel e' w, program.callFunction (host.under limits') callee arguments fuel m.world = .error e' w →
    ∃ e, Act.Raises host program m e ∧ e'.cause = e.cause

theorem Done.leaves {s' : Machine} (hs : Done V k s s') :
    ∃ v, s'.stack.back? = some v ∧ s.Leaves v s'.world := by
  obtain ⟨top, hstack, htop⟩ := hs.stack
  obtain ⟨v, hv⟩ := Array.size_eq_one_iff.1 hs.result
  obtain ⟨u, rfl⟩ := Array.size_eq_one_iff.1 (htop.size.symm.trans hs.result)
  rw [hv] at htop
  refine ⟨v, by rw [hv]; rfl, V, u, ?_, ?_, hs.world⟩
  · rw [hstack]
    simp
  · have := htop
    cases this with
    | cons h _ => exact h

section

variable (hserves : ∀ id index, functions.lookup id = some index → program.Hosts functions index 0)
  (hquiet : ∀ s, Act.During host program m s → s.Quiet host program)

/-- An instruction that fails, like the call from outside. -/
theorem SameOutcome.of_error {e e' : Fault} {t : Machine} {w : World}
    (hstep : Act.step host program m = .error e t) (hhandlers : ∀ h ∈ t.handlers, h.frameDepth ≤ m.frames.length)
    (hcause : e'.cause = e.cause)
    (hcall : ∀ fuel, program.callFunction (host.under limits') callee arguments fuel m.world = .error e' w) :
    SameOutcome host limits' program m callee arguments := by
  have hflat {s : Machine} (hs : Act.During host program m s) : s = m :=
    hs.eq fun _ hturn => Act.length_of_step_error hstep hhandlers hturn
  refine ⟨fun s ⟨s', hduring, hlast, _⟩ => ?_, fun e₁ ⟨s', t', hduring, hlast, _⟩ => ?_, fun fuel v w' h => ?_,
    fun fuel e₁ w' h => ?_⟩
  · obtain rfl := hflat hduring
    cases hstep.symm.trans hlast
  · obtain rfl := hflat hduring
    cases hstep.symm.trans hlast
    exact ⟨0, e', w, hcall 0, hcause⟩
  · cases (hcall fuel).symm.trans h
  · cases (hcall fuel).symm.trans h
    exact ⟨e, ⟨m, t, .here, hstep, hhandlers⟩, hcause⟩

/-- An instruction that gives a value at once, like the call from outside. -/
theorem SameOutcome.of_ok {s : Machine} {v : Value} {w : World} (hstep : Act.step host program m = .ok () s)
    (hlength : s.frames.length = m.frames.length) (hleaves : s.Leaves v w)
    (hcall : ∀ fuel, program.callFunction (host.under limits') callee arguments fuel m.world = .ok (some v) w) :
    SameOutcome host limits' program m callee arguments := by
  have hflat {s' : Machine} (hs : Act.During host program m s') : s' = m :=
    hs.eq fun _ hturn => by
      cases hturn.symm.trans (Act.turn_of_ok hstep)
      exact Nat.le_of_eq hlength
  refine ⟨fun s₁ ⟨s', hduring, hlast, _⟩ => ?_, fun e₁ ⟨s', t', hduring, hlast, _⟩ => ?_, fun fuel v' w' h => ?_,
    fun fuel e₁ w' h => ?_⟩
  · obtain rfl := hflat hduring
    cases hstep.symm.trans hlast
    exact ⟨0, v, w, hcall 0, hleaves⟩
  · obtain rfl := hflat hduring
    cases hstep.symm.trans hlast
  · cases (hcall fuel).symm.trans h
    exact ⟨s, ⟨m, .here, hstep, hlength⟩, hleaves⟩
  · cases (hcall fuel).symm.trans h

variable {m₁ m₁' : Machine} {index : UInt16} {environment? : Option Addr}
  (hstep : Act.step host program m = .ok () m₁)
  (hcall : Act.call (host.under limits') program callee arguments.size false (.idle arguments m.world) = .ok () m₁')
  (hquiet' : ∀ s, Turns (host.under limits') program Machine.Active m₁' s → s.Active →
    s.Quiet (host.under limits') program)
  (hgoing : Going V program functions k m₁ m₁') (hlength : k.frames.length = m.frames.length)

include hserves hquiet hstep hquiet' hgoing hlength

/-- Whatever the script's call comes to, the call from outside comes to as well. -/
theorem During.outside [host.Lawful] (hs : Act.During host program m s) :
    s = m ∨ ∃ V s', Turns (host.under limits') program Machine.Active m₁' s' ∧ Going V program functions k s s' := by
  induction hs with
  | here => exact .inl rfl
  | @turn s t hduring next deeper ih =>
    rcases ih with rfl | ⟨V', s', hturns, hs⟩
    · cases next.symm.trans (Act.turn_of_ok hstep)
      exact .inr ⟨V, m₁', .refl, hgoing⟩
    · have hactive := hs.length.2
      rcases turn_both_quiet hserves hs (hquiet s hduring) (hquiet' s' hturns hactive) with
        ⟨t₁, t', V'', hturn, hturn', hgoing'⟩ | ⟨t₁, t', V'', hlast, -, hdone⟩ |
          ⟨e, e', t₁, t', hlast, -, -, ⟨A, q, σ, -, hinside⟩, hnil⟩
      · cases next.symm.trans hturn
        exact .inr ⟨V'', t', .turn hturns hactive hturn', hgoing'⟩
      · cases next.symm.trans (Act.turn_of_ok hlast)
        rw [hdone.frames, hdone.returned, ← hlength] at deeper
        exact absurd deeper (Nat.lt_irrefl _)
      · refine absurd deeper (Nat.not_lt.2 (Act.length_of_step_error hlast (fun h hh => ?_) next))
        rw [hinside.handlers, hnil] at hh
        rw [← hlength]
        exact k.bounded h hh

/-- Whatever the call from outside comes to, the script's call comes to as well. -/
theorem Turns.inside [host.Lawful] {s' : Machine} (hs : Turns (host.under limits') program Machine.Active m₁' s')
    (hactive : s'.Active) : ∃ V s, Act.During host program m s ∧ Going V program functions k s s' := by
  induction hs with
  | refl => exact ⟨V, m₁, .turn .here (Act.turn_of_ok hstep) (hlength ▸ hgoing.deeper), hgoing⟩
  | @turn s' t' hturns here next ih =>
    obtain ⟨V', s, hduring, hs⟩ := ih here
    rcases turn_both_quiet hserves hs (hquiet s hduring) (hquiet' s' hturns here) with
      ⟨t, t₁, V'', hturn, hturn', hgoing'⟩ | ⟨t, t₁, V'', -, hlast, hdone⟩ | ⟨e, e', t, t₁, -, hlast, -, -, hnil⟩
    · cases next.symm.trans hturn'
      exact ⟨V'', t, .turn hduring hturn (hlength ▸ hgoing'.deeper), hgoing'⟩
    · cases next.symm.trans (Act.turn_of_ok hlast)
      exact absurd hdone.returned hactive
    · rw [Act.turn_of_error hlast, Act.recover_fails hnil] at next
      cases next

/-- When the call from outside has returned, so has the script's call. -/
theorem Turns.returned [host.Lawful] {t' : Machine} (hs : Turns (host.under limits') program Machine.Active m₁' t')
    (hidle : t'.frames = []) : ∃ V t, Act.Returns host program m t ∧ Done V k t t' := by
  cases hs with
  | refl => exact absurd hidle hgoing.length.2
  | @turn s' _ hturns here next =>
    obtain ⟨V', s, hduring, hs⟩ := Turns.inside hserves hquiet hstep hquiet' hgoing hlength hturns here
    rcases turn_both_quiet hserves hs (hquiet s hduring) (hquiet' s' hturns here) with
      ⟨t, t₁, V'', -, hturn', hgoing'⟩ | ⟨t, t₁, V'', hlast, hlast', hdone⟩ | ⟨e, e', t, t₁, -, hlast, -, -, hnil⟩
    · cases next.symm.trans hturn'
      exact absurd hidle hgoing'.length.2
    · cases next.symm.trans (Act.turn_of_ok hlast')
      refine ⟨V'', t, ⟨s, hduring, hlast, ?_⟩, hdone⟩
      rw [hdone.frames, hdone.returned, ← hlength]
      rfl
    · rw [Act.turn_of_error hlast, Act.recover_fails hnil] at next
      cases next

include hcall

/-- A function that is entered, like by the call from outside. -/
theorem SameOutcome.of_enter [host.Lawful] : SameOutcome host limits' program m callee arguments := by
  have hdeeper : m.frames.length < m₁.frames.length := hlength ▸ hgoing.deeper
  refine ⟨fun s ⟨s₀, hduring, hlast, hs⟩ => ?_, fun e ⟨s₀, t, hduring, hlast, hhandlers⟩ => ?_, fun fuel v w h => ?_,
    fun fuel e w h => ?_⟩
  · rcases During.outside hserves hquiet hstep hquiet' hgoing hlength hduring with rfl | ⟨V', s', hturns, hs'⟩
    · cases hlast.symm.trans hstep
      omega
    · have hactive := hs'.length.2
      rcases turn_both_quiet hserves hs' (hquiet s₀ hduring) (hquiet' s' hturns hactive) with
        ⟨t, t', V'', hturn, -, hgoing'⟩ | ⟨t, t', V'', hend, hend', hdone⟩ | ⟨e, e', t, t', hend, -⟩
      · cases hturn.symm.trans (Act.turn_of_ok hlast)
        have := hgoing'.deeper
        omega
      · cases hend.symm.trans hlast
        obtain ⟨v, hback, hleaves⟩ := hdone.leaves
        obtain ⟨fuel, hfuel⟩ := Program.callFunction_of_turns hcall (.turn hturns hactive (Act.turn_of_ok hend'))
          hdone.returned hback
        exact ⟨fuel, v, t'.world, hfuel, hleaves⟩
      · cases hend.symm.trans hlast
  · rcases During.outside hserves hquiet hstep hquiet' hgoing hlength hduring with rfl | ⟨V', s', hturns, hs'⟩
    · cases hlast.symm.trans hstep
    · have hactive := hs'.length.2
      rcases turn_both_quiet hserves hs' (hquiet s₀ hduring) (hquiet' s' hturns hactive) with
        ⟨t₁, t', V'', hturn, -, hgoing'⟩ | ⟨t₁, t', V'', hend, -⟩ | ⟨e₁, e', t₁, t', hend, hend', hcause, -, hnil⟩
      · have := Act.length_of_step_error hlast hhandlers hturn
        have := hgoing'.deeper
        omega
      · cases hend.symm.trans hlast
      · cases hend.symm.trans hlast
        obtain ⟨fuel, hfuel⟩ := Program.callFunction_of_fault hcall hturns hactive
          ((Act.turn_of_error hend').trans (Act.recover_fails hnil))
        exact ⟨fuel, _, _, hfuel, (e'.withTrace_cause _).trans hcause⟩
  · obtain ⟨t', hturns, ⟨hidle, hend⟩ | ⟨-, hend⟩ | ⟨-, fault, t, -, hend⟩⟩ :=
      Program.callFunction_cases fuel hcall
    · obtain ⟨V', t, hreturns, hdone⟩ := Turns.returned hserves hquiet hstep hquiet' hgoing hlength hturns hidle
      obtain ⟨v', hback, hleaves⟩ := hdone.leaves
      rw [hback] at hend
      cases hend.symm.trans h
      exact ⟨t, hreturns, hleaves⟩
    · cases hend.symm.trans h
    · cases hend.symm.trans h
  · obtain ⟨s', hturns, ⟨hidle, hend⟩ | ⟨-, hend⟩ | ⟨hactive, fault, t', hturn, hend⟩⟩ :=
      Program.callFunction_cases fuel hcall
    · obtain ⟨V', t, -, hdone⟩ := Turns.returned hserves hquiet hstep hquiet' hgoing hlength hturns hidle
      obtain ⟨v', hback, -⟩ := hdone.leaves
      rw [hback] at hend
      cases hend.symm.trans h
    · cases hend.symm.trans h
    · cases hend.symm.trans h
      obtain ⟨V', s, hduring, hs⟩ := Turns.inside hserves hquiet hstep hquiet' hgoing hlength hturns hactive
      rcases turn_both_quiet hserves hs (hquiet s hduring) (hquiet' s' hturns hactive) with
        ⟨t, t₁, V'', -, hturn', -⟩ | ⟨t, t₁, V'', -, hlast', -⟩ |
          ⟨e₁, e', t, t₁, hlast, hlast', hcause, ⟨A, q, σ, -, hinside⟩, hnil⟩
      · cases hturn.symm.trans hturn'
      · cases hturn.symm.trans (Act.turn_of_ok hlast')
      · cases hturn.symm.trans ((Act.turn_of_error hlast').trans (Act.recover_fails hnil))
        refine ⟨e₁, ⟨s, t, hduring, hlast, fun h hh => ?_⟩, (e'.withTrace_cause _).trans hcause⟩
        rw [hinside.handlers, hnil] at hh
        rw [← hlength]
        exact k.bounded h hh

end

/-- The window of a machine that goes on, or has returned. -/
theorem Onward.window {m' : Machine} (h : Onward program functions k m m') : ∃ V, Window V k m m' := by
  obtain ⟨V, ⟨A, q, σ, -, -, hinside⟩ | hdone⟩ := h
  · exact ⟨V, hinside.toWindow⟩
  · exact ⟨V, hdone.toWindow⟩

/-- If no limit is reached, a call does what a call of the same function from outside does, with the same arguments
and in the same world. -/
theorem Calls.same_outcome [host.Lawful]
    (hserves : ∀ id index, functions.lookup id = some index → program.Hosts functions index 0)
    (hm : Going V program functions .empty m m) (h : Calls V program functions m i f rest below arguments callee false)
    (hquiet : ∀ s, Act.During host program m s → s.Quiet host program)
    (hquiet' : program.CallsQuietly (host.under limits') callee arguments m.world) :
    SameOutcome host limits' program m callee arguments := by
  obtain ⟨A, q, σ, hA, -⟩ := h.inside
  have hlimit {l : Limit} {max : Nat} {t : Machine} (hl : l ≠ .repeatedLength)
      (hstep : Act.step host program m = .error (.ofCause (.limitExceeded l max)) t) : False :=
    hquiet m .here _ _ hstep (decide_eq_true hl)
  have hidle : (Machine.idle arguments m.world).stack = #[] ++ arguments := (Array.empty_append ..).symm
  rcases h.step_cases host with ⟨l, max, hl, hstep⟩ | hstep
  · exact (hlimit hl hstep).elim
  cases callOutcome hA.hosts h.alike arguments m.world with
  | fails e hcall =>
    obtain ⟨t, -, hhandlers, ht⟩ := hcall host.toLimits false below (m.calling i f rest below arguments) rfl rfl
    obtain ⟨t', -, -, ht'⟩ := hcall limits' false #[] (.idle arguments m.world) hidle rfl
    refine .of_error (hstep.trans ht) (fun h' hh => ?_) rfl fun fuel => Program.callFunction_of_error ht'
    rw [hhandlers] at hh
    exact h.bounded h' hh
  | gives v world hcall =>
    have hgives := hstep.trans (hcall host.toLimits false below (m.calling i f rest below arguments) rfl rfl)
    have hcall' := hcall limits' false #[] (.idle arguments m.world) hidle rfl
    have hleaves :
        Machine.Leaves { m.calling i f rest below arguments with stack := below.push v, world := world } v world := by
      obtain ⟨s, hs, honward⟩ | ⟨e, s, hs, -⟩ : (∃ s, Act.step host program m = .ok () s ∧ _) ∨
          _ := step_self host hserves hm
      · cases hs.symm.trans hgives
        obtain ⟨V', hwindow⟩ := honward.window
        obtain ⟨top, hstack, htop⟩ := hwindow.stack
        obtain rfl : below.push v = top := hstack.trans (Array.empty_append ..)
        obtain ⟨u, u', hu, hu', huv⟩ := htop.back? (by simp)
        simp only [Array.back?_push, Option.some.injEq] at hu hu'
        subst hu hu'
        exact ⟨V', v, Array.back?_push, huv, hwindow.world⟩
      · cases hs.symm.trans hgives
    refine .of_ok hgives h.length hleaves fun fuel => ?_
    rw [Program.callFunction_eq hcall', Act.run_of_nil rfl]
    rfl
  | enters index environment? page hsupplies hfound harity hcall =>
    have hcall' := hcall limits' false #[] (.idle arguments m.world) hidle
    rw [hcall host.toLimits false below (m.calling i f rest below arguments) rfl] at hstep
    unfold Program.CallsQuietly at hquiet'
    split at hstep
    · exact (hlimit (l := .callDepth) nofun hstep).elim
    · split at hcall'
      · rw [hcall'] at hquiet'
        exact (hquiet' rfl).elim
      · rw [hcall'] at hquiet'
        exact .of_enter hserves hquiet hstep hcall' hquiet' (h.entered_going hserves hsupplies hfound harity) h.length

/-! ## Compiled programs -/

namespace Compiler

variable {c' : Compiler} {e : Expr} {index : UInt16}

/-- In a run of a compiled program, a call that returns leaves the machine as it was, but for the value in place of the
callee and its arguments. And if no limit is reached, it comes to what a call of the function from outside comes to,
with the same arguments and in the same world. -/
theorem calls_are_isolated (es es' : List Expr) (h : (new.addAll es).enter e = (.ok index, c')) (host : Host)
    [host.Lawful] (w : World) (hm : Turns host (c'.addAll es').program Machine.Active (Machine.start index w) m)
    (hnext : m.next? (c'.addAll es').program = some i) (hop : i.op.callsValue) :
    ∃ f rest below callee arguments, m.frames = f :: rest ∧ m.stack = below.push callee ++ arguments ∧
      arguments.size = (i.byte 0).toNat ∧
      (∀ s, Act.Returns host (c'.addAll es').program m s → Replaces m i f rest below s) ∧
      (i.op = .call → ∀ limits',
        (∀ s, Act.During host (c'.addAll es').program m s → s.Quiet host (c'.addAll es').program) →
        (c'.addAll es').program.CallsQuietly (host.under limits') callee arguments m.world →
        SameOutcome host limits' (c'.addAll es').program m callee arguments) := by
  have hentry := (Sound.addAll es).enterable h es'
  obtain ⟨V, hgoing⟩ := hentry.turns_going w hm (Machine.active_of_next? hnext)
  obtain ⟨f, rest, below, arguments, callee, isRoot, hcalls⟩ := hgoing.calls hnext hop
  refine ⟨f, rest, below, callee, arguments, hcalls.frames, hcalls.stack, hcalls.count,
    fun s hs => hcalls.replaces hentry.serves hs, fun hcall limits' hquiet hquiet' => ?_⟩
  obtain rfl := hcalls.root hcall
  exact hcalls.same_outcome hentry.serves hgoing hquiet hquiet'

/-! ## A call that returns -/

/-- A function that makes a pair of its argument and nil. -/
def pairing : Expr := .mk 0 (.define 0 "pair" ["x"] (.mk 0 (.tuple [.mk 0 (.variable "x"), .mk 0 (.literal .nil)])))

/-- A call of it is the third item of a tuple. -/
def paired : Expr :=
  .mk 0 (.tuple [.mk 0 (.literal .nil), .mk 0 (.tuple [.mk 0 (.literal .nil)]),
    .mk 0 (.call (.function 0) [.mk 0 (.tuple [])] false)])

/-- The compiler that has the function. -/
def knowingPairing : Compiler :=
  ⟨⟨#[{ Page.empty entryName 0 with code := #[4, 0, 0] },
    { Page.empty "pair" 1 with code := #[5, 0, 4, 0, 0, 35, 0, 2, 3, 1] }], #[]⟩, [(0, 1)], [0]⟩

/-- The code of the page with the call. -/
def pairedCode : List UInt8 := [4, 0, 0, 4, 0, 0, 35, 0, 1, 4, 0, 1, 35, 0, 0, 52, 1, 35, 0, 3]

/-- The compiler that has the call as well. -/
def knowingPaired : Compiler :=
  ⟨⟨knowingPairing.program.pages.push ⟨entryName, 0, pairedCode.toArray, .ofList [.nil, .page 1], #[]⟩, #[]⟩,
    [(0, 1)], [0]⟩

theorem addAll_pairing : new.addAll [pairing] = knowingPairing := by
  with_unfolding_all rfl

theorem enter_paired : knowingPairing.enter paired = (.ok 2, knowingPaired) := by
  let writing (size : Nat) (constants : List Constant) (height : Nat) : Workbench :=
    ⟨⟨knowingPairing.program.pages.push (.empty entryName 0), #[]⟩, [(0, 1)], [0], [],
      ⟨⟨entryName, 0, (pairedCode.take size).toArray, .ofList constants, #[]⟩, [], [], [], height, 0, [], [], true⟩, []⟩
  have hbelow : (do Emit.constant .nil; Emit.constant .nil; Emit.word .buildTuple 1 "collection items")
      (writing 0 [.nil] 0) = .ok () (writing 9 [.nil] 2) := by
    with_unfolding_all rfl
  have hpage : Emit.functionPage 0 (writing 9 [.nil] 2) = .ok 1 (writing 9 [.nil] 2) := rfl
  have hcallee : Emit.constant (.page 1) (writing 9 [.nil] 2) = .ok () (writing 12 [.nil, .page 1] 3) :=
    (ConstantTable.constant_new rfl rfl (by decide) (by decide)).trans rfl
  have hrest : (do
      Emit.call false 1 (Emit.word .buildTuple 0 "collection items")
      Emit.word .buildTuple 3 "collection items") (writing 12 [.nil, .page 1] 3) =
      .ok () (writing 20 [.nil, .page 1] 1) := by
    with_unfolding_all rfl
  have hcode : paired.emitValue = (do
      (do Emit.constant .nil; Emit.constant .nil; Emit.word .buildTuple 1 "collection items")
      let page ← Emit.functionPage 0
      Emit.constant (.page page)
      Emit.call false 1 (Emit.word .buildTuple 0 "collection items")
      Emit.word .buildTuple 3 "collection items") := by
    have hnested : paired.emitValue = (do
        (do
          Emit.constant .nil
          (do
            (do (do Emit.constant .nil; pure ()); Emit.word .buildTuple 1 "collection items")
            (do
              (do
                let page ← Emit.functionPage 0
                Emit.constant (.page page)
                Emit.call false 1 (do Emit.word .buildTuple 0 "collection items"; pure ()))
              pure ())))
        Emit.word .buildTuple 3 "collection items") := by
      with_unfolding_all rfl
    rw [hnested]
    simp only [bind_assoc, bind_pure_unit]
  have hemit : paired.emitValue (writing 0 [.nil] 0) = .ok () (writing 20 [.nil, .page 1] 1) := by
    rw [hcode, bind_run_ok hbelow, bind_run_ok hpage, bind_run_ok hcallee, hrest]
  have hstart : (knowingPairing.bench (entryDraft paired)).reserve entryName = writing 0 [.nil] 0 := by
    with_unfolding_all rfl
  exact enter_of_emitValue (by decide) hstart hemit (by decide) rfl

/-- The call leaves the two values below it as they are, and comes to what the function comes to when it is called from
outside under narrow limits. -/
theorem calls_are_isolated_paired : ∃ m f rest below callee arguments s fuel v w,
    Turns {} knowingPaired.program Machine.Active (Machine.start 2 default) m ∧
    m.next? knowingPaired.program = some ⟨15, .call, [1]⟩ ∧ m.frames = f :: rest ∧
    m.stack = below.push callee ++ arguments ∧ below.size = 2 ∧ arguments.size = 1 ∧
    Act.Returns {} knowingPaired.program m s ∧ Replaces m ⟨15, .call, [1]⟩ f rest below s ∧
    SameOutcome {} ⟨1, 3, some 8⟩ knowingPaired.program m callee arguments ∧
    knowingPaired.program.callFunction (Host.under {} ⟨1, 3, some 8⟩) callee arguments fuel m.world = .ok (some v) w ∧
    s.Leaves v w := by
  obtain ⟨m, hturns, hm⟩ := Act.turns_of_reaches
    (show Act.reaches {} knowingPaired.program 5 (.start 2 default) (fun m =>
      decide (m.next? knowingPaired.program = some ⟨15, .call, [1]⟩ ∧ m.stack.size = 4) &&
        (m.staysCalm {} knowingPaired.program 10 && m.stack.pop.back?.any fun callee =>
          m.stack.back?.any fun argument =>
            knowingPaired.program.answers (Host.under {} ⟨1, 3, some 8⟩) callee #[argument] 10 m.world)) = true by
      decide +kernel)
  obtain ⟨hat, hm⟩ := Bool.and_eq_true_iff.1 hm
  obtain ⟨hcalm, houtside⟩ := Bool.and_eq_true_iff.1 hm
  obtain ⟨hnext, hsize⟩ := of_decide_eq_true hat
  have henter : (new.addAll [pairing]).enter paired = (.ok 2, knowingPaired) := by
    rw [addAll_pairing, enter_paired]
  obtain ⟨f, rest, below, callee, arguments, hframes, hstack, hcount, hreturns, hsame⟩ :=
    calls_are_isolated [pairing] [] henter {} default hturns hnext rfl
  obtain ⟨argument, rfl⟩ := Array.size_eq_one_iff.1 hcount
  rw [hstack] at hsize houtside
  have hbelow : below.size = 2 := by simpa using hsize
  rw [← Array.push_eq_append, Array.pop_push, Array.back?_push, Array.back?_push, Option.any_some,
    Option.any_some] at houtside
  obtain ⟨hquiet, v, w, hcall⟩ := Program.exists_of_answers houtside
  have hsame := hsame rfl ⟨1, 3, some 8⟩
    (fun s hs => Machine.calm_of_staysCalm hcalm s (hs.turns (Machine.active_of_next? hnext))) hquiet
  obtain ⟨s, hs, hleaves⟩ := hsame.returned 10 v w hcall
  exact ⟨m, f, rest, below, callee, #[argument], s, 10, v, w, hturns, hnext, hframes, hstack,
    hbelow, rfl, hs, hreturns s hs, hsame, hcall, hleaves⟩

end Compiler

end ShellVM
