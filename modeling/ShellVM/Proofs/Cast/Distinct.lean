import ShellVM.Proofs.Container.Keys
import ShellVM.Proofs.Keys
import ShellVM.Value.Cast

/-!
# First occurrences

A set that is made from a row of values takes the first of values that are equal and leaves the others out
(`Value.items_ofKeys`). It can be made just if all of the row make keys; else the row fails with one that makes none
(`Value.keys_cases`).
-/

namespace ShellVM

open List (eraseDupsBy)

/-! ## Rows of keys -/

namespace OrderedMap

/-- Keys go into a map one after the other, each of them once. -/
theorem keys_foldl_insert (ks : List Key) (m : OrderedMap Key Unit) :
    (ks.foldl (fun m k => m.insert k ()) m).keys = eraseDupsBy.loop (· == ·) ks m.keys.reverse := by
  -- the loop has what came in so far the other way round
  induction ks generalizing m with
  | nil => exact m.keys.reverse_reverse.symm
  | cons k ks ih =>
    rw [List.foldl_cons, ih, keys_insert, eraseDupsBy.loop]
    by_cases hk : k ∈ m.keys
    · have hany : m.keys.reverse.any (k == ·) = true :=
        List.any_eq_true.2 ⟨k, List.mem_reverse.2 hk, beq_self_eq_true k⟩
      rw [if_pos hk, hany]
    · have hany : m.keys.reverse.any (k == ·) = false :=
        List.any_eq_false.2 fun l hl h => hk (eq_of_beq h ▸ List.mem_reverse.1 hl)
      rw [if_neg hk, hany, List.reverse_append]
      rfl

theorem keys_ofKeys (ks : List Key) : (ofKeys ks).keys = ks.eraseDups := keys_foldl_insert ks .empty

end OrderedMap

namespace Value

variable {w : World} {xs : List Value} {ks ls : List Key} {k : Key}

/-- Equality finds the values again of which the keys are known. -/
theorem eraseDupsBy_loop_map (w : World) (ks ls : List Key) : eraseDupsBy.loop (same w) (ks.map ofKey) (ls.map ofKey) =
    (eraseDupsBy.loop (· == ·) ks ls).map ofKey := by
  induction ks generalizing ls with
  | nil => exact (List.map_reverse ..).symm
  | cons k ks ih =>
    have hany : (ls.map ofKey).any (same w (ofKey k)) = ls.any (k == ·) := by
      rw [List.any_map]
      exact congrArg ls.any (funext (same_ofKey_eq w k))
    rw [List.map_cons, eraseDupsBy.loop, eraseDupsBy.loop, hany]
    cases ls.any (k == ·) with
    | true => exact ih ls
    | false => exact ih (k :: ls)

/-- The set of a row of keys has the first of equal values. -/
theorem items_ofKeys (w : World) (ks : List Key) :
    (OrderedMap.ofKeys ks).keys.map ofKey = (ks.map ofKey).eraseDupsBy (same w) := by
  rw [OrderedMap.keys_ofKeys]
  exact (eraseDupsBy_loop_map w ks []).symm

theorem eraseDups_eq_self (h : ks.Nodup) : ks.eraseDups = ks := by
  induction ks with
  | nil => rfl
  | cons k ks ih =>
    obtain ⟨hk, hks⟩ := List.nodup_cons.1 h
    have hfilter : (ks.filter fun l => !l == k) = ks :=
      List.filter_eq_self.2 fun l hl => Bool.not_eq_true' _ ▸ beq_eq_false_iff_ne.2 fun heq => hk (heq ▸ hl)
    rw [List.eraseDups_cons, hfilter, ih hks]

/-- A set that there is has no equal values. -/
theorem items_set (w : World) (m : OrderedMap Key Unit) :
    m.keys.map ofKey = (m.keys.map ofKey).eraseDupsBy (same w) := by
  rw [← items_ofKeys, OrderedMap.keys_ofKeys, eraseDups_eq_self m.keys_nodup]

/-! ## Rows that make keys -/

/-- The values of keys make a row of keys; else the row fails with a value that makes none. -/
theorem keys_cases (xs : List Value) : (∃ ks, xs = ks.map ofKey ∧ Effect.keys xs = .ok ks) ∨
    ∃ x ∈ xs, key? x = none ∧ Effect.keys xs = .error (.unhashable x.kind) := by
  induction xs with
  | nil => exact .inl ⟨[], rfl, rfl⟩
  | cons x xs ih =>
    cases hx : key? x with
    | none =>
      refine .inr ⟨x, List.mem_cons_self, hx, ?_⟩
      rw [Effect.keys, key_error hx]
      rfl
    | some k =>
      have hkey : Effect.key x = .ok k := key_ok_iff.2 (eq_ofKey hx)
      rcases ih with ⟨ks, hxs, hks⟩ | ⟨y, hy, hnone, hks⟩
      · refine .inl ⟨k :: ks, by rw [List.map_cons, ← hxs, eq_ofKey hx], ?_⟩
        rw [Effect.keys, hkey, hks]
        rfl
      · refine .inr ⟨y, List.mem_cons_of_mem x hy, hnone, ?_⟩
        rw [Effect.keys, hkey, hks]
        rfl

end Value

end ShellVM
