import ShellVM.Proofs.Balance.Affords
import ShellVM.Proofs.Limits.Trades
import ShellVM.Proofs.Turns

/-!
# Declared and actual effects of instructions

What `Op.stackEffect?` says of an instruction is what the instruction does, on every machine and for all operands:
with the values that it takes it does not fail for want of operands, and it leaves as many values as it says above
those that it does not take (`Act.perform_balanced`).
-/

namespace ShellVM

variable {host : Host} {program : Program} {page : Page} {i : Instruction} {m s : Machine} {taken left : Nat}

/-- The instruction looks at the top of the stack and leaves it there. -/
def Op.peeks : Op → Bool
  | jumpIf | jumpIfNot => true
  | _ => false

/-- The innermost iterator has no item left. -/
def Machine.Exhausted (m : Machine) : Prop :=
  ∃ it rest it' w, m.iterators = it :: rest ∧ it.next m.world = .ok (none, it') w

/-- The instruction, which should take `taken` values and leave `left`, has made `s` of the machine `m`. -/
structure Instruction.Balanced (i : Instruction) (taken left : Nat) (m s : Machine) : Prop where
  /-- Unless a call starts or a loop ends, as many values are there as there should be. -/
  size : s.frames.length ≤ m.frames.length → (i.op = .forIter → ¬ m.Exhausted) →
    s.stack.size = m.stack.size - taken + left
  /-- What lies below the values that it takes is as it was. -/
  below : i.op ≠ .store → ∀ k, k < m.stack.size - taken → s.stack[k]? = m.stack[k]?
  /-- An assignment changes one local. -/
  stores : i.op = .store → ∃ f rest v, m.frames = f :: rest ∧ m.stack.back? = some v ∧
    f.base + (i.byte 0).toNat < m.stack.size ∧ s.stack = m.stack.setIfInBounds (f.base + (i.byte 0).toNat) v
  /-- The end of a loop leaves the stack as it was. -/
  exhausted : i.op = .forIter → m.Exhausted → s.stack = m.stack
  /-- A call that starts takes the callee out from under its arguments, and they are its first locals. -/
  enters : m.frames.length < s.frames.length → i.op.callsValue ∧ ∃ f, s.frames = f :: m.frames ∧
    f.base = m.stack.size - taken ∧ s.stack.toList = m.stack.toList.eraseIdx (m.stack.size - taken)

namespace Act

/-! ## What instructions need -/

/-- No instruction fails for want of operands on as many values as it takes, and one if it looks at the top; and what it
fails for has no trace yet. -/
theorem perform_affords (host : Host) [host.Lawful] (program : Program) (page : Page) (i : Instruction) :
    ∃ n, Affords n (perform host program page i) ∧
      ∀ taken left, i.op.stackEffect? i.operands = some (taken, left) → n ≤ max taken i.op.peeks.toNat := by
  by_cases hop : i.op.swaps
  · obtain ⟨n, left, h⟩ := perform_swaps host program page hop
    refine ⟨n, h.swaps.affords, fun pops pushes heffect => ?_⟩
    have hpops :=
      (h.effect ⟨program, [], page, [], [], false⟩ rfl pops pushes (Sheet.effect?_of_stackEffect? heffect)).1
    exact hpops ▸ Nat.le_max_left ..
  · obtain ⟨p, op, operands⟩ := i
    have hnone {x : Act Unit} (h : Affords 0 x) : ∃ n, Affords n x ∧
        ∀ taken left, op.stackEffect? operands = some (taken, left) → n ≤ max taken op.peeks.toNat :=
      ⟨0, h, fun _ _ _ => Nat.zero_le _⟩
    have hsome {x : Act Unit} {n : Nat} (h : Affords n x)
        (heffect : ∀ taken left, op.stackEffect? operands = some (taken, left) → taken = n) : ∃ n, Affords n x ∧
        ∀ taken left, op.stackEffect? operands = some (taken, left) → n ≤ max taken op.peeks.toNat :=
      ⟨n, h, fun taken left h => by rw [heffect taken left h]; exact Nat.le_max_left ..⟩
    cases op with
    | store => exact hsome (.store _) fun _ _ h => by cases h; rfl
    | jumpIf | jumpIfNot =>
      exact ⟨1, (Swaps.peeking fun v => .jumpIf _ v _).affords, fun taken left _ => Nat.le_max_right ..⟩
    | getIter => exact hsome .startIteration fun _ _ h => by cases h; rfl
    | forIter => exact hnone (.iterate _)
    | endFor => exact hnone .endIteration
    | call | rootCall | maybeRootCall => exact hsome (.callValue _ _) fun _ _ h => by cases of_byte? h; rfl
    | enterTry => exact hnone (.openTry ⟨p, .enterTry, operands⟩)
    | endTry => exact hnone .closeTry
    | _ => exact absurd rfl hop

/-- A fault of an instruction has no trace yet. -/
theorem perform_fresh [host.Lawful] {fault : Fault} (h : perform host program page i m = .error fault s) :
    fault.trace = [] := by
  obtain ⟨n, hn, -⟩ := perform_affords host program page i
  exact (hn m fault s h).1

/-! ## What instructions leave -/

/-- The values that an instruction does not take stay where they are, unless it assigns to a local. -/
theorem perform_below [host.Lawful] (heffect : i.op.stackEffect? i.operands = some (taken, left))
    (hsize : taken ≤ m.stack.size) (hop : i.op ≠ .store) (h : perform host program page i m = .ok () s) {k : Nat}
    (hk : k < m.stack.size - taken) : s.stack[k]? = m.stack[k]? := by
  have hcosts {n : Nat} (costs : i.Costs page n) : n ≤ taken :=
    costs ⟨program, [], page, [], [], false⟩ rfl taken left (Sheet.effect?_of_stackEffect? heffect)
  have hkept {n : Nat} {t : Machine} (costs : i.Costs page n) (kept : Kept n 0 m t) : t.stack[k]? = m.stack[k]? := by
    have hn := hcosts costs
    obtain ⟨hbelow, -⟩ := kept.stack (m.stack.size - taken) (by omega)
    exact hbelow k hk
  have hdone : Done page i m (perform host program page i m) := perform_done
  rw [h] at hdone
  cases hdone with
  | touches touched =>
    cases touched with
    | takes costs kept => exact hkept costs kept
    | iterates _ _ kept => exact (kept.stack m.stack.size (Nat.le_refl _)).1 k (by omega)
  | stores op => exact absurd op hop
  | starts costs kept => have := hkept costs kept; exact this
  | opens _ _ => rfl
  | closes _ => rfl
  | enters costs kept => have := hkept costs kept; exact this

theorem store_ok {u : UInt8} (h : Act.store u m = .ok () s) : ∃ f rest v, m.frames = f :: rest ∧
    m.stack.back? = some v ∧ f.base + u.toNat < m.stack.size ∧
    s.stack = m.stack.setIfInBounds (f.base + u.toNat) v := by
  unfold Act.store Machine.slot at h
  cases hframes : m.frames with
  | nil =>
    rw [hframes] at h
    cases h
  | cons f rest =>
    rw [hframes] at h
    dsimp only at h
    by_cases hslot : f.base + u.toNat < m.stack.size
    · rw [dif_pos hslot] at h
      dsimp only at h
      cases hback : m.stack.back? with
      | none =>
        rw [hback] at h
        cases h
      | some v =>
        rw [hback] at h
        cases h
        refine ⟨f, rest, v, rfl, rfl, hslot, ?_⟩
        unfold Array.setIfInBounds
        rw [dif_pos hslot]
    · rw [dif_neg hslot] at h
      cases h

theorem jumpTo_ok (h : jumpTo i m = .ok () s) : s.frames.length = m.frames.length ∧ s.stack = m.stack := by
  unfold jumpTo at h
  cases htarget : i.target? with
  | none =>
    rw [htarget] at h
    cases h
  | some t =>
    rw [htarget] at h
    obtain ⟨stack, frames, iterators, handlers, pending, steps, world⟩ := m
    cases frames with
    | nil => cases h
    | cons f rest =>
      cases h
      exact ⟨rfl, rfl⟩

/-- The head of a loop pushes the next item, or there is none. -/
theorem iterate_ok (h : iterate i m = .ok () s) : s.frames.length = m.frames.length ∧
    (m.Exhausted ∧ s.stack = m.stack ∨ ¬ m.Exhausted ∧ s.stack.size = m.stack.size + 1) := by
  unfold iterate at h
  rw [get_bind_run] at h
  dsimp only at h
  cases hits : m.iterators with
  | nil =>
    rw [hits] at h
    cases h
  | cons it rest =>
    rw [hits] at h
    dsimp only at h
    obtain ⟨⟨item?, it'⟩, t, hnext, hrun⟩ := bind_ok.1 h
    unfold Act.effect at hnext
    cases hw : it.next m.world with
    | error fault w =>
      rw [hw] at hnext
      cases hnext
    | ok r w =>
      rw [hw] at hnext
      cases hnext
      have hexhausted : m.Exhausted ↔ item? = none := by
        constructor
        · rintro ⟨_, _, _, _, hits', hw'⟩
          cases hits.symm.trans hits'
          cases hw.symm.trans hw'
          rfl
        · rintro rfl
          exact ⟨it, rest, it', w, hits, hw⟩
      obtain ⟨_, u, hmove, hend⟩ := bind_ok.1 hrun
      cases hmove
      rw [hexhausted]
      cases item? with
      | none =>
        obtain ⟨hdepth, hstack⟩ := jumpTo_ok hend
        exact ⟨hdepth, .inl ⟨rfl, hstack⟩⟩
      | some v =>
        cases hend
        exact ⟨rfl, .inr ⟨by simp, Array.size_push ..⟩⟩

/-! ## What calls leave -/

theorem enter_ok {index : UInt16} {environment? : Option Addr} {count : Nat} {isRoot : Bool}
    (h : enter host program index environment? count isRoot m = .ok () s) :
    ∃ f, s.frames = f :: m.frames ∧ f.base = m.stack.size - count ∧ s.stack = m.stack := by
  unfold enter at h
  cases hpage : program.page? index with
  | none =>
    rw [hpage] at h
    cases h
  | some page =>
    rw [hpage] at h
    dsimp only at h
    rw [get_bind_run] at h
    split at h
    · cases h
    · split at h
      · cases h
      · split at h
        · cases h
        · cases h
          exact ⟨_, rfl, rfl, rfl⟩

theorem root_ok {r : Rootness} {b : Bool} (h : root r m = .ok b s) : s = m := by
  obtain ⟨stack, frames, iterators, handlers, pending, steps, world⟩ := m
  cases r with
  | fixed b =>
    cases h
    rfl
  | inherited =>
    cases frames with
    | nil => cases h
    | cons f rest =>
      cases h
      rfl

theorem takeCallee_ok {count : Nat} {v : Value} (h : takeCallee count m = .ok v s) :
    s.frames = m.frames ∧ s.stack.size + 1 = m.stack.size ∧ count < m.stack.size ∧
      s.stack.toList = m.stack.toList.eraseIdx (m.stack.size - (count + 1)) := by
  unfold takeCallee at h
  by_cases hcount : count < m.stack.size
  · rw [dif_pos hcount] at h
    cases h
    refine ⟨rfl, ?_, hcount, Array.toList_eraseIdx ..⟩
    rw [Array.size_eraseIdx]
    omega
  · rw [dif_neg hcount] at h
    cases h

/-- A call of a value starts a page on the arguments, or it is over at once. -/
theorem callValue_ok [host.Lawful] {r : Rootness} {count : Nat} (h : callValue host program r count m = .ok () s) :
    (∃ f, s.frames = f :: m.frames ∧ f.base = m.stack.size - (count + 1) ∧
      s.stack.toList = m.stack.toList.eraseIdx (m.stack.size - (count + 1))) ∨
    s.frames.length = m.frames.length ∧ s.stack.size + (count + 1) = m.stack.size + 1 := by
  obtain ⟨isRoot, m₁, hroot, hrest⟩ := bind_ok.1 h
  obtain ⟨callee, m₂, htake, hcall⟩ := bind_ok.1 hrest
  obtain rfl : m₁ = m := root_ok hroot
  obtain ⟨hframes, hsize, hcount, hstack⟩ := takeCallee_ok htake
  have hentered {index : UInt16} {environment? : Option Addr}
      (h : enter host program index environment? count isRoot m₂ = .ok () s) :
      ∃ f, s.frames = f :: m₁.frames ∧ f.base = m₁.stack.size - (count + 1) ∧
        s.stack.toList = m₁.stack.toList.eraseIdx (m₁.stack.size - (count + 1)) := by
    obtain ⟨f, hentered, hbase, hsame⟩ := enter_ok h
    refine ⟨f, hframes ▸ hentered, ?_, hsame ▸ hstack⟩
    omega
  unfold call at hcall
  split at hcall
  · exact .inl (hentered hcall)
  · exact .inl (hentered hcall)
  · next f =>
    have hswaps := (Swaps.callLibrary f count : Swaps count 1 (callLibrary host f count)) m₂
    rw [hcall] at hswaps
    have hleft := hswaps.size
    exact .inr ⟨hframes ▸ hswaps.depth, by omega⟩
  · cases hcall

theorem perform_callsValue (host : Host) (program : Program) (page : Page) (hop : i.op.callsValue)
    (heffect : i.op.stackEffect? i.operands = some (taken, left)) :
    taken = (i.byte 0).toNat + 1 ∧ left = 1 ∧
      ∃ r, perform host program page i = callValue host program r (i.byte 0).toNat := by
  obtain ⟨p, op, operands⟩ := i
  cases op with
  | call => cases of_byte? heffect; exact ⟨rfl, rfl, .fixed false, rfl⟩
  | rootCall => cases of_byte? heffect; exact ⟨rfl, rfl, .fixed true, rfl⟩
  | maybeRootCall => cases of_byte? heffect; exact ⟨rfl, rfl, .inherited, rfl⟩
  | _ => cases hop

/-- The effect that is declared for an instruction is the one that it has. -/
theorem perform_balanced (host : Host) [host.Lawful] (program : Program) (page : Page) (i : Instruction) (m : Machine)
    (heffect : i.op.stackEffect? i.operands = some (taken, left)) (htaken : taken ≤ m.stack.size)
    (hpeeks : i.op.peeks → 1 ≤ m.stack.size) :
    (∀ fault s, perform host program page i m = .error fault s → fault.cause ≠ .internal .stackUnderflow) ∧
    ∀ s, perform host program page i m = .ok () s → i.Balanced taken left m s := by
  constructor
  · intro fault s h
    obtain ⟨n, hn, hneeds⟩ := perform_affords host program page i
    refine (hn m fault s h).2 (Nat.le_trans (hneeds taken left heffect) (Nat.max_le.2 ⟨htaken, ?_⟩))
    cases hop : i.op.peeks with
    | false => exact Nat.zero_le _
    | true => exact hpeeks hop
  · intro s h
    have hbelow : i.op ≠ .store → ∀ k, k < m.stack.size - taken → s.stack[k]? = m.stack[k]? :=
      fun hop _ hk => perform_below heffect htaken hop h hk
    by_cases hiter : i.op = .forIter
    · obtain ⟨p, op, operands⟩ := i
      cases hiter
      cases heffect
      obtain ⟨hdepth, hcases⟩ := iterate_ok (i := ⟨p, .forIter, operands⟩) h
      refine ⟨fun _ hitems => ?_, hbelow, (by intro hop; cases hop), fun _ hexhausted => ?_, fun hdeeper => ?_⟩
      · obtain ⟨hexhausted, -⟩ | ⟨-, hpushed⟩ := hcases
        · exact absurd hexhausted (hitems rfl)
        · exact hpushed
      · obtain ⟨-, hstack⟩ | ⟨hitems, -⟩ := hcases
        · exact hstack
        · exact absurd hexhausted hitems
      · omega
    · by_cases hcall : i.op.callsValue
      · obtain ⟨rfl, rfl, r, hrun⟩ := perform_callsValue host program page hcall heffect
        have hstores : i.op ≠ .store := by
          intro hop
          rw [hop] at hcall
          cases hcall
        rw [hrun] at h
        obtain ⟨f, hframes, hbase, hstack⟩ | ⟨hdepth, hsize⟩ := callValue_ok h
        · refine ⟨fun hdeeper => ?_, hbelow, fun hop => absurd hop hstores, fun hop => absurd hop hiter, fun _ => ?_⟩
          · rw [hframes, List.length_cons] at hdeeper
            omega
          · exact ⟨hcall, f, hframes, hbase, hstack⟩
        · refine ⟨fun _ _ => ?_, hbelow, fun hop => absurd hop hstores, fun hop => absurd hop hiter, fun hdeeper => ?_⟩
          · omega
          · omega
      · obtain ⟨_, _, htrades, -, hdeclared⟩ := perform_trades host program page (Bool.eq_false_iff.2 hcall) hiter
        obtain ⟨rfl, rfl⟩ := hdeclared taken left heffect
        have htrades := htrades m
        rw [h] at htrades
        have hsize : s.stack.size + taken = m.stack.size + left := htrades.size
        have hdepth : s.frames.length = m.frames.length := htrades.depth
        refine ⟨fun _ _ => ?_, hbelow, fun hop => ?_, fun hop => absurd hop hiter, fun hdeeper => ?_⟩
        · omega
        · obtain ⟨p, op, operands⟩ := i
          cases hop
          exact store_ok h
        · omega

/-- A function of one argument is called on two values, and the call starts on the upper one. -/
theorem perform_balanced_call :
    ∃ s, perform {} ⟨#[.empty "main" 0, .empty "double" 1], #[]⟩ (.empty "main" 0) ⟨0, .call, [1]⟩
      (Machine.idle #[.integer 4, .function (.page 1 "double"), .integer 5] {}) = .ok () s ∧
    Instruction.Balanced ⟨0, .call, [1]⟩ 2 1
      (Machine.idle #[.integer 4, .function (.page 1 "double"), .integer 5] {}) s ∧ s.frames.map Frame.base = [1] := by
  have hends : ends (perform {} ⟨#[.empty "main" 0, .empty "double" 1], #[]⟩ (.empty "main" 0) ⟨0, .call, [1]⟩)
      (Machine.idle #[.integer 4, .function (.page 1 "double"), .integer 5] {})
      (·.frames.map Frame.base == [1]) = true := by
    decide +kernel
  obtain ⟨s, hrun, hbase⟩ := exists_of_ends hends
  obtain ⟨-, hbalanced⟩ := perform_balanced {} ⟨#[.empty "main" 0, .empty "double" 1], #[]⟩ (.empty "main" 0)
    ⟨0, .call, [1]⟩ (Machine.idle #[.integer 4, .function (.page 1 "double"), .integer 5] {})
    (rfl : Op.stackEffect? .call [1] = some (2, 1)) (by decide) (by decide)
  exact ⟨s, hrun, hbalanced s hrun, by simpa using hbase⟩

end Act

end ShellVM
