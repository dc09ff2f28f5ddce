import ShellVM.Proofs.Region.Handlers

/-!
# How much acts put on the stack

All acts but those that call values or move iterators take a known number of values and leave a known number of
others, start no call, and count no step (`Act.Trades`); an act that fails has put nothing on the stack. So a step of
any program grows the stack by 254 values at most, and the calls as far as their limit allows (`Act.step_outgrows`).
-/

namespace ShellVM

variable {host : Host} {program : Program} {page : Page} {i : Instruction} {m s t : Machine}

/-- The machine `m` has become `s`: instead of so many values so many others lie on the stack. -/
structure Traded (taken left : Nat) (m s : Machine) : Prop where
  size : s.stack.size + taken = m.stack.size + left
  depth : s.frames.length = m.frames.length
  steps : s.steps = m.steps

/-- The machine `m` has failed as `s`, and no value is on the stack that was not there. -/
structure Stranded (m s : Machine) : Prop where
  size : s.stack.size ≤ m.stack.size
  depth : s.frames.length = m.frames.length
  steps : s.steps = m.steps

theorem Traded.trans {a b c d : Nat} (h : Traded a b m s) (h' : Traded c d s t) : Traded (a + c) (b + d) m t where
  size := by
    have := h.size
    have := h'.size
    omega
  depth := h'.depth.trans h.depth
  steps := h'.steps.trans h.steps

theorem Stranded.refl (m : Machine) : Stranded m m := ⟨Nat.le_refl _, rfl, rfl⟩

/-- What has only taken values, and then failed. -/
theorem Traded.strand {a : Nat} (h : Traded a 0 m s) (h' : Stranded s t) : Stranded m t where
  size := by
    have := h.size
    have := h'.size
    omega
  depth := h'.depth.trans h.depth
  steps := h'.steps.trans h.steps

theorem Swapped.traded {a b : Nat} (h : Swapped a b m s) : Traded a b m s := ⟨h.size, h.depth, h.steps⟩

theorem Dropped.stranded {a : Nat} {fault : Fault} (h : Dropped a m fault s) : Stranded m s := ⟨h.le, h.depth, h.steps⟩

namespace Act

/-- The act takes so many values and leaves so many; if it fails, it leaves none. -/
def Trades {α : Type} (taken left : Nat) (x : Act α) : Prop := ∀ m,
  match x m with
  | .ok _ s => Traded taken left m s
  | .error _ s => Stranded m s

theorem Swaps.trades {α : Type} {x : Act α} {a b : Nat} (h : Swaps a b x) : Trades a b x := by
  intro m
  have hm := h m
  cases hx : x m with
  | ok v s =>
    rw [hx] at hm
    exact hm.traded
  | error fault s =>
    rw [hx] at hm
    exact hm.stranded

namespace Trades

variable {α β : Type} {a b c : Nat} {x : Act α} {f : α → Act β}

theorem throw (a b : Nat) (e : Fault) : Trades a b (throw e : Act α) := fun m => .refl m

/-- Values are taken first. -/
theorem bind (h : Trades a 0 x) (h' : ∀ v, Trades c b (f v)) : Trades (a + c) b (x >>= f) := by
  intro m
  have hx := h m
  cases hxm : x m with
  | ok v s =>
    rw [hxm] at hx
    have hf := h' v s
    rw [bind_run_ok hxm]
    cases hfs : f v s with
    | ok w t =>
      rw [hfs] at hf
      have := hx.trans hf
      rwa [Nat.zero_add] at this
    | error e t =>
      rw [hfs] at hf
      exact hx.strand hf
  | error e s =>
    rw [hxm] at hx
    rw [bind_run_error hxm]
    exact hx

theorem look : Trades 0 0 (MonadState.get : Act Machine) := fun _ => ⟨rfl, rfl, rfl⟩

theorem get {f : Machine → Act β} (h : ∀ m, Trades a b (f m)) : Trades a b (get >>= f) := fun m => h m m

/-- A change of neither values nor calls nor steps. -/
theorem change {g : Machine → Machine} (hsize : ∀ m, (g m).stack.size = m.stack.size)
    (hdepth : ∀ m, (g m).frames.length = m.frames.length) (hsteps : ∀ m, (g m).steps = m.steps) :
    Trades 0 0 (modify g : Act Unit) := fun m => ⟨hsize m, hdepth m, hsteps m⟩

theorem peek : Trades 0 0 Act.peek := by
  intro m
  unfold Act.peek
  cases m.stack.back? with
  | some v => exact ⟨rfl, rfl, rfl⟩
  | none => exact .refl m

theorem store (u : UInt8) : Trades 1 1 (Act.store u) := by
  intro m
  unfold Act.store
  cases m.slot u with
  | ok i =>
    dsimp only
    cases m.stack.back? with
    | some v =>
      refine ⟨?_, rfl, rfl⟩
      show (m.stack.set i v).size + 1 = m.stack.size + 1
      rw [Array.size_set]
    | none => exact .refl m
  | error e => exact .refl m

theorem startIteration : Trades 1 0 Act.startIteration :=
  Swaps.pop.trades.bind fun v => (Swaps.effect (Iter.ofValue_contained v).fresh).trades.bind fun it =>
    change (g := fun m => { m with iterators := it :: m.iterators }) (fun _ => rfl) (fun _ => rfl) fun _ => rfl

theorem endIteration : Trades 0 0 Act.endIteration := by
  refine get fun m => ?_
  cases m.iterators with
  | nil => exact throw 0 0 _
  | cons it rest => exact change (fun _ => rfl) (fun _ => rfl) fun _ => rfl

theorem openTry (i : Instruction) : Trades 0 0 (Act.openTry i) := by
  unfold Act.openTry
  cases i.target? with
  | none => exact throw 0 0 _
  | some t => exact change (fun _ => rfl) (fun _ => rfl) fun _ => rfl

theorem closeTry : Trades 0 0 Act.closeTry := by
  refine get fun m => ?_
  cases m.handlers with
  | nil => exact throw 0 0 _
  | cons h rest => exact change (fun _ => rfl) (fun _ => rfl) fun _ => rfl

end Trades

end Act

/-! ## Instructions -/

/-- The machine `m` has become `s`: by one instruction the stack has grown as far as it can, and calls are started only
below their limit. -/
structure Outgrows (host : Host) (m s : Machine) : Prop where
  size : s.stack.size ≤ m.stack.size + 254
  depth : s.frames.length ≤ max m.frames.length host.callDepth
  steps : s.steps = m.steps

theorem Outgrows.refl (m : Machine) : Outgrows host m m := ⟨Nat.le_add_right .., Nat.le_max_left .., rfl⟩

theorem Stranded.outgrows (h : Stranded m s) : Outgrows host m s :=
  ⟨Nat.le_add_right_of_le h.size, h.depth ▸ Nat.le_max_left .., h.steps⟩

theorem Traded.outgrows {taken left : Nat} (h : Traded taken left m s) (hleft : left ≤ taken + 254) :
    Outgrows host m s where
  size := by
    have := h.size
    omega
  depth := h.depth ▸ Nat.le_max_left ..
  steps := h.steps

namespace Act

/-- The machine after an act, also after one that has failed. -/
def after {α : Type} (x : Act α) (m : Machine) : Machine :=
  match x m with
  | .ok _ s => s
  | .error _ s => s

variable {α : Type} {x : Act α} {y : Act Unit} {f : α → Act Unit}

theorem after_of_ok {v : α} (h : x m = .ok v s) : x.after m = s := by
  unfold after
  rw [h]

theorem after_of_error {e : Fault} (h : x m = .error e s) : x.after m = s := by
  unfold after
  rw [h]

theorem Trades.outgrows {taken left : Nat} (h : Trades taken left x) (hleft : left ≤ taken + 254) (m : Machine) :
    Outgrows host m (x.after m) := by
  have hm := h m
  cases hx : x m with
  | ok v s =>
    rw [hx] at hm
    rw [after_of_ok hx]
    exact hm.outgrows hleft
  | error e s =>
    rw [hx] at hm
    rw [after_of_error hx]
    exact hm.outgrows

/-- An act that puts no more on the stack than it takes, and then one that puts as many values there as it can. -/
theorem Trades.outgrows_bind {taken left : Nat} (h : Trades taken left x) (hle : left ≤ taken)
    (h' : ∀ v s, x m = .ok v s → Outgrows host s ((f v).after s)) :
    Outgrows host m ((x >>= f).after m) := by
  have hm := h m
  cases hx : x m with
  | ok v s =>
    rw [hx] at hm
    have hf := h' v s hx
    have hafter : (x >>= f).after m = (f v).after s := by
      unfold Act.after
      rw [bind_run_ok hx]
    have hsize := hm.size
    rw [hafter]
    exact ⟨by have := hf.size; omega, hm.depth ▸ hf.depth, hf.steps.trans hm.steps⟩
  | error e s =>
    rw [hx] at hm
    rw [after_of_error (bind_run_error hx)]
    exact hm.outgrows

theorem iterate_outgrows (i : Instruction) (m : Machine) : Outgrows host m ((iterate i).after m) := by
  refine Trades.look.outgrows_bind (Nat.le_refl _) fun m' s _ => ?_
  cases m'.iterators with
  | nil => exact .refl s
  | cons it rest =>
    refine (Swaps.effect it.next_contained.fresh).trades.outgrows_bind (Nat.le_refl _) fun ⟨item?, it'⟩ t _ => ?_
    have hmove : Trades 0 0 (modify fun m => { m with iterators := it' :: rest } : Act Unit) :=
      .change (fun _ => rfl) (fun _ => rfl) fun _ => rfl
    refine hmove.outgrows_bind (Nat.le_refl _) fun _ u _ => ?_
    cases item? with
    | some v => exact (Swaps.push v).trades.outgrows (by omega) u
    | none => exact (Swaps.jumpTo i).trades.outgrows (by omega) u

/-- A call that is started is one more than there were, and the limit leaves room for it. -/
theorem enter_outgrows (index : UInt16) (environment? : Option Addr) (count : Nat) (isRoot : Bool) (m : Machine) :
    Outgrows host m ((enter host program index environment? count isRoot).after m) := by
  unfold enter
  cases program.page? index with
  | none => exact .refl m
  | some page =>
    refine Trades.look.outgrows_bind (Nat.le_refl _) fun m' s hm' => ?_
    cases hm'
    split
    · exact .refl m
    split
    · exact .refl m
    · next hroom =>
      split
      · exact .refl m
      · exact ⟨Nat.le_add_right .., Nat.le_trans (Nat.not_le.1 hroom) (Nat.le_max_right ..), rfl⟩

theorem callValue_outgrows [host.Lawful] (r : Rootness) (count : Nat) (m : Machine) :
    Outgrows host m ((callValue host program r count).after m) := by
  refine (Swaps.root r).trades.outgrows_bind (Nat.le_refl _) fun isRoot s _ => ?_
  refine (Swaps.takeCallee count).trades.outgrows_bind (Nat.le_succ count) fun callee t _ => ?_
  unfold call
  split
  · exact enter_outgrows ..
  · exact enter_outgrows ..
  · exact (Swaps.callLibrary _ count).trades.outgrows (by omega) t
  · exact .refl t

/-- An instruction that calls no value and is not the head of a loop takes and leaves as many values as it says,
wherever it says so. -/
theorem perform_trades (host : Host) [host.Lawful] (program : Program) (page : Page) (hcall : i.op.callsValue = false)
    (hiter : i.op ≠ .forIter) : ∃ taken left, Trades taken left (perform host program page i) ∧ left ≤ taken + 254 ∧
      ∀ pops pushes, i.op.stackEffect? i.operands = some (pops, pushes) → pops = taken ∧ pushes = left := by
  by_cases hop : i.op.swaps
  · obtain ⟨taken, left, h⟩ := perform_swaps host program page hop
    refine ⟨taken, left, h.swaps.trades, h.le, fun pops pushes heffect => ?_⟩
    exact h.effect ⟨program, [], page, [], [], false⟩ rfl pops pushes (Sheet.effect?_of_stackEffect? heffect)
  · obtain ⟨p, op, operands⟩ := i
    have hspecial {x : Act Unit} {taken left : Nat} (h : Trades taken left x) (hle : left ≤ taken)
        (heffect : op.stackEffect? operands = some (taken, left)) : ∃ taken left, Trades taken left x ∧
        left ≤ taken + 254 ∧ ∀ pops pushes, op.stackEffect? operands = some (pops, pushes) →
        pops = taken ∧ pushes = left := by
      refine ⟨taken, left, h, by omega, fun pops pushes h => ?_⟩
      cases heffect.symm.trans h
      exact ⟨rfl, rfl⟩
    cases op with
    | store => exact hspecial (.store _) (by omega) rfl
    | jumpIf | jumpIfNot => exact hspecial (Trades.peek.bind fun v => (Swaps.jumpIf _ v _).trades) (by omega) rfl
    | getIter => exact hspecial .startIteration (by omega) rfl
    | forIter => exact absurd rfl hiter
    | endFor => exact hspecial .endIteration (by omega) rfl
    | call | rootCall | maybeRootCall => cases hcall
    | enterTry => exact hspecial (.openTry ⟨p, .enterTry, operands⟩) (by omega) rfl
    | endTry => exact hspecial .closeTry (by omega) rfl
    | _ => exact absurd rfl hop

/-- What one instruction of any page can make the stack and the calls grow. -/
theorem perform_outgrows [host.Lawful] (page : Page) (i : Instruction) (m : Machine) :
    Outgrows host m ((perform host program page i).after m) := by
  by_cases hiter : i.op = .forIter
  · obtain ⟨p, op, operands⟩ := i
    cases hiter
    exact iterate_outgrows _ m
  · cases hcall : i.op.callsValue with
    | true =>
      obtain ⟨p, op, operands⟩ := i
      cases op with
      | call | rootCall | maybeRootCall => exact callValue_outgrows _ _ m
      | _ => cases hcall
    | false =>
      obtain ⟨taken, left, h, hle, -⟩ := perform_trades host program page hcall hiter
      exact h.outgrows hle m

/-! ## Steps -/

/-- What one step can make the stack and the calls grow. It counts itself. -/
theorem step_outgrows (host : Host) [host.Lawful] (program : Program) (m : Machine) :
    Outgrows host { m with steps := m.steps + 1 } ((step host program).after m) := by
  rcases step_reads host program m with
    ⟨-, ⟨f, rest, page, i, hframes, -, -, hstep⟩ | ⟨-, -, hstep⟩⟩ | ⟨e, hstep⟩
  · have hperform := @perform_outgrows host program _ page i (m.fetched f rest i)
    have hafter : (step host program).after m = (perform host program page i).after (m.fetched f rest i) := by
      unfold after
      rw [hstep]
    rw [hafter]
    refine ⟨hperform.size, ?_, hperform.steps⟩
    show _ ≤ max m.frames.length _
    rw [hframes]
    exact hperform.depth
  · rw [after_of_ok hstep]
    refine ⟨Nat.le_add_right .., Nat.le_trans ?_ (Nat.le_max_left ..), rfl⟩
    show m.frames.tail.length ≤ m.frames.length
    rw [List.length_tail]
    exact Nat.sub_le ..
  · rw [after_of_error hstep]
    exact .refl _

end Act

end ShellVM
