import ShellVM.Machine.Run

/-!
# Sequences of turns

`Turns host program P m s` says that turns lead from the machine `m` to the machine `s` by way of machines for which `P`
holds. A run takes turns as long as some call is active (`Act.run_cases`).
-/

namespace ShellVM

/-- From one machine to another by turns. Each is taken where `P` holds. -/
inductive Turns (host : Host) (program : Program) (P : Machine → Prop) (m : Machine) : Machine → Prop where
  | refl : Turns host program P m m
  | turn {s s' : Machine} (before : Turns host program P m s) (here : P s)
      (next : Act.turn host program s = .ok () s') : Turns host program P m s'

/-- Some call is active. -/
def Machine.Active (m : Machine) : Prop := m.frames ≠ []

namespace Machine

variable {program : Program} {m : Machine} {i : Instruction}

/-- The instruction that comes next, if there is one. -/
def next? (program : Program) (m : Machine) : Option Instruction := do
  let f ← m.frames.head?
  let page ← program.page? f.page
  let byte ← page.code[f.ip]?
  (readInstruction page.code f.ip byte).toOption

theorem next?_eq_some (h : m.next? program = some i) : ∃ f rest page byte, m.frames = f :: rest ∧
    program.page? f.page = some page ∧ page.code[f.ip]? = some byte ∧ readInstruction page.code f.ip byte = .ok i := by
  simp only [next?, Option.bind_eq_bind, Option.bind_eq_some_iff] at h
  obtain ⟨f, hf, page, hpage, byte, hbyte, hread⟩ := h
  obtain ⟨rest, hframes⟩ := List.head?_eq_some_iff.1 hf
  refine ⟨f, rest, page, byte, hframes, hpage, hbyte, ?_⟩
  cases hread' : readInstruction page.code f.ip byte with
  | ok i' => rw [hread'] at hread; cases hread; rfl
  | error u => rw [hread'] at hread; cases hread

theorem active_of_next? (h : m.next? program = some i) : m.Active := by
  obtain ⟨f, rest, -, -, hframes, -⟩ := next?_eq_some h
  unfold Active
  rw [hframes]
  exact nofun

end Machine

namespace Turns

variable {host : Host} {program : Program} {P Q : Machine → Prop} {m m₁ s : Machine}

theorem single (h : P m) (next : Act.turn host program m = .ok () s) : Turns host program P m s :=
  .turn .refl h next

theorem trans (h : Turns host program P m m₁) (h' : Turns host program P m₁ s) : Turns host program P m s := by
  induction h' with
  | refl => exact h
  | turn _ here next ih => exact .turn ih here next

/-- No turn was taken, or a first one. -/
theorem first (h : Turns host program P m s) :
    s = m ∨ ∃ m', Act.turn host program m = .ok () m' ∧ P m ∧ Turns host program P m' s := by
  induction h with
  | refl => exact .inl rfl
  | turn _ here next ih =>
    rcases ih with rfl | ⟨m', hturn, hm, hs⟩
    · exact .inr ⟨_, next, here, .refl⟩
    · exact .inr ⟨m', hturn, hm, .turn hs here next⟩

/-- What every turn keeps holds after any turns. -/
theorem keeps {I : Machine → Prop} (h : Turns host program P m s) (hm : I m)
    (hturn : ∀ s s', I s → P s → Act.turn host program s = .ok () s' → I s') : I s := by
  induction h with
  | refl => exact hm
  | turn _ here next ih => exact hturn _ _ ih here next

end Turns

namespace Act

variable {host : Host} {program : Program}

/-- Without an active call a run is over. -/
theorem run_of_nil {m : Machine} (h : m.frames = []) (fuel : Nat) : run host program fuel m = .ok true m := by
  cases fuel with
  | zero =>
    show EStateM.Result.ok m.frames.isEmpty m = _
    rw [h]
    rfl
  | succ fuel =>
    show (if m.frames.isEmpty then EStateM.Result.ok true m else _) = _
    rw [h]
    rfl

/-- With an active call a run takes a turn. -/
theorem run_succ {m : Machine} (h : m.Active) (fuel : Nat) : run host program (fuel + 1) m =
    match turn host program m with
    | .ok _ s => run host program fuel s
    | .error fault s => .error fault s := by
  show (if m.frames.isEmpty then EStateM.Result.ok true m else _) = _
  refine (if_neg fun hnil => h (List.isEmpty_iff.1 hnil)).trans ?_
  cases turn host program m <;> rfl

/-- A run is over after turns with active calls: the calls have returned, or the turns are used up, or one has
failed. -/
theorem run_cases : ∀ (fuel : Nat) (m : Machine), ∃ s, Turns host program Machine.Active m s ∧
    (run host program fuel m = .ok s.frames.isEmpty s ∨
      s.Active ∧ ∃ fault s', turn host program s = .error fault s' ∧ run host program fuel m = .error fault s')
  | 0, m => ⟨m, .refl, .inl rfl⟩
  | fuel + 1, m => by
    by_cases hactive : m.Active
    · have hrun := @run_succ host program m hactive fuel
      cases hturn : turn host program m with
      | ok _ m₁ =>
        obtain ⟨s, hs, h⟩ := run_cases fuel m₁
        rw [hturn] at hrun
        exact ⟨s, (Turns.single hactive hturn).trans hs, by rwa [hrun]⟩
      | error fault s' =>
        rw [hturn] at hrun
        exact ⟨m, .refl, .inr ⟨hactive, fault, s', hturn, hrun⟩⟩
    · have hnil : m.frames = [] := Classical.not_not.1 hactive
      refine ⟨m, .refl, .inl ?_⟩
      rw [run_of_nil hnil, hnil]
      rfl

/-- A run that does not fail has taken turns. -/
theorem turns_of_run {fuel : Nat} {b : Bool} {m s : Machine} (h : run host program fuel m = .ok b s) :
    Turns host program Machine.Active m s := by
  obtain ⟨s', hturns, hrun | ⟨-, _, _, -, hrun⟩⟩ := @run_cases host program fuel m
  · cases hrun.symm.trans h
    exact hturns
  · cases hrun.symm.trans h

/-- Does the act end well, with a machine that passes a test? -/
def ends (x : Act Unit) (m : Machine) (test : Machine → Bool) : Bool :=
  match x m with
  | .ok _ s => test s
  | .error .. => false

theorem exists_of_ends {x : Act Unit} {test : Machine → Bool} (h : ends x m test = true) :
    ∃ s, x m = .ok () s ∧ test s = true := by
  unfold ends at h
  split at h
  · next hrun => exact ⟨_, hrun, h⟩
  · cases h

/-- Does the machine pass a test after so many turns? -/
def reaches (host : Host) (program : Program) (fuel : Nat) (m : Machine) (test : Machine → Bool) : Bool :=
  match run host program fuel m with
  | .ok _ s => test s
  | .error .. => false

theorem turns_of_reaches {fuel : Nat} {m : Machine} {test : Machine → Bool}
    (h : reaches host program fuel m test = true) : ∃ s, Turns host program Machine.Active m s ∧ test s = true := by
  unfold reaches at h
  split at h
  · next hrun => exact ⟨_, turns_of_run hrun, h⟩
  · cases h

/-- A run takes the turns that there are. -/
theorem run_of_turns {m s : Machine} (h : Turns host program Machine.Active m s) :
    ∃ n, ∀ fuel, run host program (n + fuel) m = run host program fuel s := by
  induction h with
  | refl => exact ⟨0, fun fuel => by rw [Nat.zero_add]⟩
  | turn _ here next ih =>
    obtain ⟨n, hn⟩ := ih
    refine ⟨n + 1, fun fuel => ?_⟩
    rw [Nat.add_assoc, Nat.add_comm 1, hn, run_succ here, next]

end Act

end ShellVM
