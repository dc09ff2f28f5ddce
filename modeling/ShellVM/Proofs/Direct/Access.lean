import ShellVM.Proofs.Computation
import ShellVM.Value.Index

/-!
# Direct accesses

The machine looks before it accesses a row: reading gives an optional item, and splitting clamps. A direct access does
not look. If its place is not in the row, the computation breaks off, which is not a failure that the program could
see: `Direct` computations have `none` as an error for that. A computation whose accesses are all in range is the
`guarded` one.

The positions that indices and slices name are in their sequences (`resolveIndex_lt`, `lt_of_mem_slice`).
-/

namespace ShellVM

/-- Computations that fail with a fault, or break off without one. -/
abbrev Direct (σ α : Type) := EStateM (Option Fault) σ α

namespace Direct

variable {σ α β : Type}

/-- A computation without direct accesses. -/
def guarded (x : EStateM Fault σ α) : Direct σ α := fun s =>
  match x s with
  | .ok a s => .ok a s
  | .error e s => .error (some e) s

/-- What is accessed must be there. -/
def there : Option α → Direct σ α
  | some a => pure a
  | none => throw none

def fail (cause : Cause) : Direct σ α := throw (some (.ofCause cause))

def ofExcept : Except Cause α → Direct σ α
  | .ok a => pure a
  | .error cause => fail cause

/-! ## Guarded computations -/

theorem guarded_get : guarded (get : EStateM Fault σ σ) = get := rfl

theorem guarded_bind (x : EStateM Fault σ α) (f : α → EStateM Fault σ β) :
    guarded (x >>= f) = guarded x >>= fun a => guarded (f a) := by
  funext s
  show guarded (EStateM.bind x f) s = EStateM.bind (guarded x) (fun a => guarded (f a)) s
  unfold guarded EStateM.bind
  dsimp only
  cases x s <;> rfl

theorem there_of_eq {x? : Option α} {a : α} (h : x? = some a) : (there x? : Direct σ α) = pure a := by
  rw [h]
  rfl

/-- An item that is looked up with a default is there if its place is in the row. -/
theorem there_getElem? {xs : List α} {i : Nat} (h : i < xs.length) (d : α) :
    (there xs[i]? : Direct σ α) = pure (xs.getD i d) := by
  rw [List.getD_eq_getElem?_getD, List.getElem?_eq_getElem h]
  rfl

theorem there_getElem?_array {xs : Array α} {i : Nat} (h : i < xs.size) (d : α) :
    (there xs[i]? : Direct σ α) = pure (xs.getD i d) := by
  rw [Array.getD_eq_getD_getElem?, Array.getElem?_eq_getElem h]
  rfl

/-- The items at places that are all in the row. -/
theorem mapM_there {xs : Array α} {places : List Nat} (h : ∀ i ∈ places, i < xs.size) :
    (places.mapM fun i => (there xs[i]? : Direct σ α)) = pure (Value.pick xs places) := by
  induction places with
  | nil => rfl
  | cons i places ih =>
    have hlt := h i List.mem_cons_self
    have hi : xs[i]? = some xs[i] := Array.getElem?_eq_getElem hlt
    rw [List.mapM_cons, ih fun j hj => h j (List.mem_cons_of_mem i hj), there_of_eq hi, pure_bind, pure_bind]
    unfold Value.pick
    rw [List.filterMap_cons, hi]

/-! ## Positions -/

/-- A position that an index names is in the sequence. -/
theorem resolveIndex_lt {i : Int64} {length place : Nat} (h : resolveIndex i length = .ok place) : place < length := by
  unfold resolveIndex at h
  dsimp only at h
  split at h
  · split at h
    · cases h
    · split at h
      · next hplace =>
        cases h
        simp only [Bool.and_eq_true, decide_eq_true_eq] at hplace
        omega
      · cases h
  · split at h
    · cases h
      assumption
    · cases h

/-- One step of a walk that goes up. -/
theorem advance_up {w w' : Range.Walk} {last n : Int64} (hlast : w.last? = some last) (hstep : 0 < w.step)
    (hopen : w.inclusive = false) (h : w.advance = (some n, w')) :
    w.next? = some n ∧ n < last ∧ w' = { w with next? := Word.add? n w.step } := by
  unfold Range.Walk.advance at h
  split at h
  · cases h
  · next k hk =>
    split at h
    · cases h
    · split at h
      · cases h
      · next hpast =>
        cases h
        refine ⟨hk, ?_, rfl⟩
        simp only [Range.Walk.isPast, hlast, hopen, hstep, decide_true, decide_eq_true_eq] at hpast
        exact Int64.not_le.1 hpast

/-- A walk that goes up stays between its start and its end. -/
theorem mem_takeOnto (low : Int) {last : Int64} {count : Nat} {n : Int64} {w : Range.Walk} {acc : List Int64}
    (hlast : w.last? = some last) (hstep : 0 < w.step) (hopen : w.inclusive = false)
    (hnext : ∀ k, w.next? = some k → low ≤ k.toInt) (hacc : ∀ k ∈ acc, low ≤ k.toInt ∧ k < last)
    (hn : n ∈ w.takeOnto count acc) : low ≤ n.toInt ∧ n < last := by
  induction count generalizing w acc with
  | zero => exact hacc n hn
  | succ count ih =>
    unfold Range.Walk.takeOnto at hn
    split at hn
    · next k w' hadvance =>
      obtain ⟨hk, hlt, rfl⟩ := advance_up hlast hstep hopen hadvance
      refine ih (w := { w with next? := Word.add? k w.step }) hlast hstep hopen (fun k' hk' => ?_) (fun k' hk' => ?_) hn
      · have hsum := Word.ofInt?_eq_some_iff.1 hk'
        have hlow := hnext k hk
        have hpositive := Int64.lt_iff_toInt_lt.1 hstep
        rw [show (0 : Int64).toInt = 0 from rfl] at hpositive
        omega
      · rcases List.mem_cons.1 hk' with rfl | hk'
        · exact ⟨hnext _ hk, hlt⟩
        · exact hacc k' hk'
    · exact hacc n hn

theorem clamp_bounds (length : Nat) (n : Int) : 0 ≤ Range.clamp length n ∧ Range.clamp length n ≤ length := by
  unfold Range.clamp
  omega

/-- The items of a range that goes up inside a sequence. A sequence that is longer than words reach has all of them. -/
theorem lt_of_mem_items {first last : Int} {length : Nat} {step n : Int64} (hfirst : 0 ≤ first ∧ first ≤ length)
    (hlast : 0 ≤ last ∧ last ≤ length) (hstep : 0 < step)
    (hn : n ∈ (Range.mk (some (Int64.ofInt first)) (some (Int64.ofInt (max last first)))
      (some step) false).items?.getD []) :
    n.toInt.toNat < length := by
  obtain ⟨count, hn⟩ : ∃ count, n ∈ Range.Walk.takeOnto count
      ⟨some (Int64.ofInt first), some (Int64.ofInt (max last first)), step, false⟩ [] := by
    unfold Range.items? at hn
    cases hlength : Range.length? _ with
    | none =>
      rw [hlength] at hn
      cases hn
    | some count =>
      rw [hlength] at hn
      exact ⟨count + 1, List.mem_reverse.1 hn⟩
  obtain ⟨hlow, hhigh⟩ := mem_takeOnto (Int64.ofInt first).toInt rfl hstep rfl
    (fun k hk => by cases hk; exact Int.le_refl _) (fun k hk => by cases hk) hn
  have hword := n.toInt_lt
  rw [Int64.lt_iff_toInt_lt] at hhigh
  by_cases hfit : length < 9223372036854775808
  · rw [Word.toInt_ofInt (by constructor <;> omega)] at hlow hhigh
    omega
  · omega

/-- **The positions of a slice are in the sequence.** -/
theorem lt_of_mem_slice {r : Range} {length place : Nat} {places : List Nat} (h : r.slice length = .ok places)
    (hplace : place ∈ places) : place < length := by
  unfold Range.slice at h
  dsimp only at h
  split at h
  · cases h
  · next hstep =>
    cases h
    obtain ⟨n, hn, rfl⟩ := List.mem_map.1 hplace
    exact lt_of_mem_items (clamp_bounds ..) (clamp_bounds ..) (Int64.not_le.1 hstep) hn

end Direct

end ShellVM
