import ShellVM.OrderedMap

/-!
# Keys of ordered maps

The keys of a map stand there once each, in the order in which they came in (`OrderedMap.keys_nodup`,
`OrderedMap.keys_insert`), and are what the map finds (`OrderedMap.contains_iff`, `OrderedMap.get?_eq_none_iff`).
-/

namespace ShellVM.OrderedMap

variable {κ ν : Type} [BEq κ] [Hashable κ] {m : OrderedMap κ ν} {k : κ}

theorem mem_keys_iff : k ∈ m.keys ↔ ∃ i, m.index[k]? = some i := by
  unfold keys toList
  rw [List.mem_map]
  constructor
  · rintro ⟨⟨_, v⟩, hmem, rfl⟩
    obtain ⟨i, hi⟩ := List.mem_iff_getElem?.1 hmem
    rw [Array.getElem?_toList] at hi
    exact ⟨i, (m.index_eq _ i).2 ⟨v, hi⟩⟩
  · rintro ⟨i, hi⟩
    obtain ⟨v, hv⟩ := (m.index_eq k i).1 hi
    exact ⟨(k, v), Array.mem_toList_iff.2 (Array.mem_of_getElem? hv), rfl⟩

/-- The place of a key is found from the key alone, so no key stands at two places. -/
theorem keys_nodup (m : OrderedMap κ ν) : m.keys.Nodup := by
  refine List.pairwise_iff_getElem.2 fun i j hi hj hlt heq => ?_
  have hplace {n : Nat} (hn : n < m.keys.length) : m.index[m.keys[n]]? = some n := by
    have hat := List.getElem?_eq_getElem hn
    simp only [keys, toList, List.getElem?_map, Array.getElem?_toList] at hat
    obtain ⟨⟨_, v⟩, hv, hkey⟩ := Option.map_eq_some_iff.1 hat
    exact (m.index_eq _ n).2 ⟨v, hv.trans (congrArg (fun key => some (key, v)) hkey)⟩
  have hsame := hplace hi
  rw [heq, hplace hj] at hsame
  exact Nat.ne_of_gt hlt (Option.some.inj hsame)

variable [LawfulBEq κ]

theorem contains_iff : m.contains k = true ↔ k ∈ m.keys := by
  rw [mem_keys_iff, ← Option.isSome_iff_exists, contains, Std.HashMap.contains_eq_isSome_getElem?]

theorem index_eq_none_iff : m.index[k]? = none ↔ k ∉ m.keys := by
  rw [mem_keys_iff, ← Option.isSome_iff_exists]
  simp

theorem get?_eq_none_iff : m.get? k = none ↔ k ∉ m.keys := by
  rw [mem_keys_iff, Option.eq_none_iff_forall_ne_some]
  simp only [ne_eq, get?_eq_some_iff, not_exists, not_and]
  constructor
  · intro h i hi
    obtain ⟨v, hv⟩ := (m.index_eq k i).1 hi
    exact h v i hi hv
  · exact fun h _ i hi _ => h i hi

variable [LawfulHashable κ]

/-- A known key stays where it is, and a new one comes last. -/
theorem keys_insert (m : OrderedMap κ ν) (k : κ) (v : ν) :
    (m.insert k v).keys = if k ∈ m.keys then m.keys else m.keys ++ [k] := by
  split
  · next h => exact m.keys_insert_of_contains k v fun hnone => index_eq_none_iff.1 hnone h
  · next h => exact m.keys_insert_of_not_contains k v (index_eq_none_iff.2 h)

end ShellVM.OrderedMap
