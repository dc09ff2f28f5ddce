import Std.Data.HashMap

/-!
# Maps that remember the order of insertion

The entries stand in the order in which their keys first came in; an index finds the place of a
key. That the index and the entries agree is part of the type, so `get?_insert` holds of every map.
-/

namespace ShellVM

structure OrderedMap (κ ν : Type) [BEq κ] [Hashable κ] where
  entries : Array (κ × ν)
  index : Std.HashMap κ Nat
  index_eq : ∀ (k : κ) (i : Nat), index[k]? = some i ↔ ∃ v, entries[i]? = some (k, v)

namespace OrderedMap

variable {κ ν : Type} [BEq κ] [Hashable κ]

def empty [EquivBEq κ] [LawfulHashable κ] : OrderedMap κ ν := ⟨#[], ∅, by simp⟩

instance [EquivBEq κ] [LawfulHashable κ] : Inhabited (OrderedMap κ ν) := ⟨empty⟩

def size (m : OrderedMap κ ν) : Nat := m.entries.size

def toList (m : OrderedMap κ ν) : List (κ × ν) := m.entries.toList

def keys (m : OrderedMap κ ν) : List κ := m.toList.map Prod.fst

def contains (m : OrderedMap κ ν) (k : κ) : Bool := m.index.contains k

def get? (m : OrderedMap κ ν) (k : κ) : Option ν := do
  let i ← m.index[k]?
  let (_, v) ← m.entries[i]?
  return v

/-- Writing a new value in the place of a known key keeps the index right. -/
theorem index_eq_set (m : OrderedMap κ ν) (k : κ) (v : ν) (i : Nat) (h : m.index[k]? = some i)
    (k' : κ) (j : Nat) :
    m.index[k']? = some j ↔ ∃ w, (m.entries.setIfInBounds i (k, v))[j]? = some (k', w) := by
  obtain ⟨w, hw⟩ := (m.index_eq k i).1 h
  rw [m.index_eq, Array.getElem?_setIfInBounds]
  by_cases hij : i = j
  · subst hij
    obtain ⟨hi, hw⟩ := Array.getElem?_eq_some_iff.1 hw
    simp [hi, hw]
  · simp [hij]

variable [LawfulBEq κ] [LawfulHashable κ]

/-- A new key is found at the end, and every other key where it was. -/
theorem index_eq_push (m : OrderedMap κ ν) (k : κ) (v : ν) (h : m.index[k]? = none)
    (k' : κ) (j : Nat) :
    (m.index.insert k m.entries.size)[k']? = some j ↔
      ∃ w, (m.entries.push (k, v))[j]? = some (k', w) := by
  rw [Std.HashMap.getElem?_insert, Array.getElem?_push]
  by_cases hk : k = k'
  · subst hk
    have absent : ∀ j w, m.entries[j]? ≠ some (k, w) := fun j w hw => by
      rw [(m.index_eq k j).2 ⟨w, hw⟩] at h; cases h
    by_cases hj : j = m.entries.size
    · simp [hj]
    · simp [hj, absent, Ne.symm hj]
  · have hk' : (k == k') = false := by simpa using hk
    by_cases hj : j = m.entries.size
    · have : m.index[k']? ≠ some m.entries.size := fun hi => by
        obtain ⟨w, hw⟩ := (m.index_eq k' _).1 hi
        simp at hw
      subst hj
      simp [hk, this]
    · rw [if_neg hj]
      simp only [hk', Bool.false_eq_true, if_false]
      exact m.index_eq k' j

/-- Replaces the value of a key where it stands, or adds a new key at the end. -/
def insert (m : OrderedMap κ ν) (k : κ) (v : ν) : OrderedMap κ ν :=
  match h : m.index[k]? with
  | some i => ⟨m.entries.setIfInBounds i (k, v), m.index, m.index_eq_set k v i h⟩
  | none =>
    let place := m.entries.size
    ⟨m.entries.push (k, v), m.index.insert k place, m.index_eq_push k v h⟩

def ofList (entries : List (κ × ν)) : OrderedMap κ ν :=
  entries.foldl (fun m (k, v) => m.insert k v) empty

/-- The same keys in the same order, with the value of one key changed if it is there. -/
def set? (m : OrderedMap κ ν) (k : κ) (v : ν) : Option (OrderedMap κ ν) :=
  if m.contains k then some (m.insert k v) else none

omit [LawfulBEq κ] [LawfulHashable κ] in
theorem get?_eq_some_iff {m : OrderedMap κ ν} {k : κ} {v : ν} [LawfulBEq κ] :
    m.get? k = some v ↔ ∃ i, m.index[k]? = some i ∧ m.entries[i]? = some (k, v) := by
  unfold get?
  cases h : m.index[k]? with
  | none => simp
  | some i =>
    obtain ⟨w, hw⟩ := (m.index_eq k i).1 h
    simp [hw]

/-- Reading after a write: the new value at its key, and the old ones elsewhere. -/
theorem get?_insert (m : OrderedMap κ ν) (k k' : κ) (v : ν) :
    (m.insert k v).get? k' = if k == k' then some v else m.get? k' := by
  unfold insert
  split
  · next i h =>
    obtain ⟨w, hw⟩ := (m.index_eq k i).1 h
    have hi : i < m.entries.size := (Array.getElem?_eq_some_iff.1 hw).1
    by_cases hk : k = k'
    · subst hk
      simp [get?, h, hi]
    · have hk' : (k == k') = false := by simpa using hk
      simp only [get?, hk', Bool.false_eq_true, if_false]
      cases h' : m.index[k']? with
      | none => rfl
      | some j =>
        obtain ⟨w', hw'⟩ := (m.index_eq k' j).1 h'
        have hij : i ≠ j := by
          rintro rfl
          rw [hw] at hw'
          cases hw'
          exact hk rfl
        simp [hij]
  · next h =>
    by_cases hk : k = k'
    · subst hk
      simp [get?]
    · have hk' : (k == k') = false := by simpa using hk
      simp only [get?, Std.HashMap.getElem?_insert, hk', Bool.false_eq_true, if_false]
      cases h' : m.index[k']? with
      | none => rfl
      | some j =>
        obtain ⟨w', hw'⟩ := (m.index_eq k' j).1 h'
        have hj : j < m.entries.size := (Array.getElem?_eq_some_iff.1 hw').1
        simp [Array.getElem?_push, Nat.ne_of_lt hj]

/-- Writing to a known key keeps the keys and their order. -/
theorem keys_insert_of_contains (m : OrderedMap κ ν) (k : κ) (v : ν) (h : m.index[k]? ≠ none) :
    (m.insert k v).keys = m.keys := by
  unfold insert
  split
  · next i hi =>
    obtain ⟨w, hw⟩ := (m.index_eq k i).1 hi
    obtain ⟨hlt, hw⟩ := Array.getElem?_eq_some_iff.1 hw
    simp only [keys, toList, Array.toList_setIfInBounds, List.map_set]
    refine List.ext_getElem? fun j => ?_
    rw [List.getElem?_set]
    by_cases hij : i = j
    · subst hij
      simp [hlt, hw]
    · simp [hij]
  · next hn => exact absurd hn h

/-- A new key comes last. -/
theorem keys_insert_of_not_contains (m : OrderedMap κ ν) (k : κ) (v : ν) (h : m.index[k]? = none) :
    (m.insert k v).keys = m.keys ++ [k] := by
  unfold insert
  split
  · next i hi => rw [h] at hi; cases hi
  · simp [keys, toList]

end OrderedMap

end ShellVM
