import ShellVM.Proofs.Swaps

/-!
# Faults of acts

With enough values on the stack an act never fails for want of operands, and whatever it fails for, its fault has no
trace yet (`Act.Affords`). How many values are enough for a row of acts follows from what each of them takes and
leaves (`Act.Affords.bind`).
-/

namespace ShellVM

variable {host : Host} {program : Program} {page : Page} {i : Instruction} {m s : Machine}

namespace Act

/-- Whenever the act fails, its fault has no trace, and `n` values on the stack are enough for it. -/
def Affords {α : Type} (n : Nat) (x : Act α) : Prop := ∀ m fault s, x m = .error fault s →
  fault.trace = [] ∧ (n ≤ m.stack.size → fault.cause ≠ .internal .stackUnderflow)

theorem Swaps.affords {α : Type} {x : Act α} {a b : Nat} (h : Swaps a b x) : Affords a x := by
  intro m fault s hx
  have hm := h m
  rw [hx] at hm
  exact ⟨hm.trace, hm.cause⟩

namespace Affords

variable {α β : Type} {n k a b : Nat} {x : Act α} {y : Act β} {f : α → Act β}

theorem fail (n : Nat) {cause : Cause} (hcause : cause ≠ .internal .stackUnderflow) :
    Affords n (Act.fail cause : Act α) :=
  (Swaps.fail n 0 hcause).affords

theorem breach (n : Nat) {why : Breach} (hwhy : why ≠ .stackUnderflow) : Affords n (Act.breach why : Act α) :=
  (Swaps.breach n 0 hwhy).affords

/-- Two acts, of which the first takes `a` values and leaves `b`. -/
theorem bind (h : Swaps a b x) (h' : ∀ v, Affords k (f v)) (hk : k + a ≤ n + b) (hn : a ≤ n) : Affords n (x >>= f) := by
  intro m fault s hrun
  have hm := h m
  cases hx : x m with
  | ok v t =>
    rw [hx] at hm
    rw [bind_run_ok hx] at hrun
    obtain ⟨htrace, hcause⟩ := h' v t fault s hrun
    have hsize : t.stack.size + a = m.stack.size + b := hm.size
    exact ⟨htrace, fun hn => hcause (by omega)⟩
  | error fault' t =>
    rw [hx] at hm
    rw [bind_run_error hx] at hrun
    cases hrun
    exact ⟨hm.trace, fun hm' => hm.cause (Nat.le_trans hn hm')⟩

theorem get {f : Machine → Act β} (h : ∀ m, Affords n (f m)) : Affords n (get >>= f) := by
  intro m
  exact h m m

theorem change (n : Nat) (g : Machine → Machine) : Affords n (modify g : Act Unit) := by
  intro m fault s h
  cases h

/-- A change of other things than values comes first. -/
theorem changing {g : Machine → Machine} (hstack : ∀ m, (g m).stack = m.stack) (h : Affords n y) :
    Affords n (do modify g; y) := by
  intro m fault s hrun
  have hy := h (g m) fault s hrun
  rwa [hstack] at hy

/-! ## Variables, iteration and regions -/

theorem store (u : UInt8) : Affords 1 (Act.store u) := by
  intro m fault s h
  unfold Act.store at h
  split at h
  · split at h
    · cases h
    · next hback =>
      cases h
      rw [Array.back?_eq_getElem?, Array.getElem?_eq_none_iff] at hback
      exact ⟨rfl, fun hsize => by omega⟩
  · next hslot =>
    cases h
    refine ⟨rfl, fun _ hcause => ?_⟩
    cases hcause
    exact Swaps.slot_cause hslot rfl

theorem startIteration : Affords 1 Act.startIteration := by
  refine bind .pop (k := 0) (fun v => ?_) (by omega) (by omega)
  exact bind (.effect (Iter.ofValue_contained v).fresh) (k := 0) (fun it => change 0 _) (by omega) (by omega)

theorem iterate (i : Instruction) : Affords 0 (Act.iterate i) := by
  refine get fun m => ?_
  cases m.iterators with
  | nil => exact breach 0 nofun
  | cons it rest =>
    refine bind (.effect it.next_contained.fresh) (k := 0) (fun ⟨item?, it'⟩ => ?_) (by omega) (by omega)
    refine changing (fun _ => rfl) ?_
    cases item? with
    | some v => exact (Swaps.push v).affords
    | none => exact (Swaps.jumpTo i).affords

theorem endIteration : Affords 0 Act.endIteration := by
  refine get fun m => ?_
  cases m.iterators with
  | nil => exact breach 0 nofun
  | cons it rest => exact change 0 _

theorem openTry (i : Instruction) : Affords 0 (Act.openTry i) := by
  unfold Act.openTry
  cases i.target? with
  | none => exact breach 0 nofun
  | some t => exact change 0 _

theorem closeTry : Affords 0 Act.closeTry := by
  refine get fun m => ?_
  cases m.handlers with
  | nil => exact breach 0 nofun
  | cons h rest => exact change 0 _

/-! ## Calls -/

theorem enter (index : UInt16) (environment? : Option Addr) (count : Nat) (isRoot : Bool) :
    Affords count (Act.enter host program index environment? count isRoot) := by
  intro m fault s h
  unfold Act.enter at h
  cases hpage : program.page? index with
  | none =>
    rw [hpage] at h
    exact breach count (by simp) m fault s h
  | some page =>
    rw [hpage] at h
    dsimp only at h
    rw [get_bind_run] at h
    split at h
    · exact fail count (by simp) m fault s h
    · split at h
      · exact fail count (by simp) m fault s h
      · split at h
        · next hsize =>
          cases h
          exact ⟨rfl, fun hcount => by omega⟩
        · cases h

theorem call [host.Lawful] (callee : Value) (count : Nat) (isRoot : Bool) :
    Affords count (Act.call host program callee count isRoot) := by
  unfold Act.call
  split
  · exact enter _ _ count isRoot
  · exact enter _ _ count isRoot
  · exact (Swaps.callLibrary _ count).affords
  · exact fail count (by simp)

theorem callValue [host.Lawful] (r : Rootness) (count : Nat) :
    Affords (count + 1) (Act.callValue host program r count) := by
  refine bind (.root r) (k := count + 1) (fun isRoot => ?_) (by omega) (by omega)
  exact bind (.takeCallee count) (k := count) (fun callee => call callee count isRoot) (by omega) (by omega)

end Affords

end Act

end ShellVM
