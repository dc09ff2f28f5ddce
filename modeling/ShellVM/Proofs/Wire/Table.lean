import ShellVM.Bytecode.Constant

/-!
# Tables rebuilt from their constants

A table that was made from a row of constants and grew one constant at a time is the table of the row that it holds
(`Built.ofList_entries`). The two are made in different ways: one asks the index first and puts a new key in, the other
goes through the row and leaves the keys that are there alone. They agree down to the buckets of the index, because for
a key that is not there both put it in at the same place (`insert_eq_insertIfNew`).
-/

namespace ShellVM.ConstantTable

/-- For a new key it makes no difference whether an old one would be replaced. -/
theorem insert_eq_insertIfNew {κ ν : Type} [BEq κ] [Hashable κ] (m : Std.HashMap κ ν) (k : κ) (v : ν)
    (h : m.contains k = false) : m.insert k v = m.insertIfNew k v := by
  have hraw : ∀ r : Std.DHashMap.Internal.Raw₀ κ fun _ => ν, r.contains k = false →
      r.insert k v = r.insertIfNew k v := by
    intro r hr
    unfold Std.DHashMap.Internal.Raw₀.contains at hr
    unfold Std.DHashMap.Internal.Raw₀.insert Std.DHashMap.Internal.Raw₀.insertIfNew
    simp_all
  show (⟨⟨_, _⟩⟩ : Std.HashMap κ ν) = ⟨⟨_, _⟩⟩
  congr 2
  exact congrArg Subtype.val (hraw _ h)

/-- The tables that `ofList` and `add` make. -/
inductive Built : ConstantTable → Prop
  | ofList (constants : List Constant) : Built (ofList constants)
  | add {t : ConstantTable} (h : Built t) (c : Constant) : Built (t.add c).2

/-- The state of `indexOf` after a row: the second part counts. -/
theorem foldl_index_snd (entries : List Constant) (state : Std.HashMap Constant UInt16 × Nat) :
    (entries.foldl (fun state c => (state.1.insertIfNew c state.2.toUInt16, state.2 + 1)) state).2 =
      state.2 + entries.length := by
  induction entries generalizing state with
  | nil => rfl
  | cons c entries ih =>
    rw [List.foldl_cons, ih, List.length_cons]
    omega

/-- One more constant at the end, as far as keys reach. -/
theorem indexOf_append {entries : List Constant} (c : Constant) (h : entries.length < capacity) :
    indexOf (entries ++ [c]) = (indexOf entries).insertIfNew c entries.length.toUInt16 := by
  have htake : (entries ++ [c]).take capacity = entries ++ [c] := by
    apply List.take_of_length_le
    rw [List.length_append]
    exact h
  unfold indexOf
  rw [htake, List.take_of_length_le (Nat.le_of_lt h), List.foldl_append]
  simp only [List.foldl_cons, List.foldl_nil, foldl_index_snd, Nat.zero_add]

theorem indexOf_entries_ofList (constants : List Constant) :
    (ofList constants).entries.toList.head? = some .nil ∧
      (ofList constants).index = indexOf (ofList constants).entries.toList := by
  unfold ofList
  constructor
  · show (if _ then _ else _ : List Constant).head? = _
    split
    · assumption
    · rfl
  · rfl

/-- Nil stands in front of a table, and its index is the one of its row. -/
theorem Built.indexOf_entries {t : ConstantTable} (h : t.Built) :
    t.entries.toList.head? = some .nil ∧ t.index = indexOf t.entries.toList := by
  induction h with
  | ofList constants => exact indexOf_entries_ofList constants
  | @add t _ c ih =>
    obtain ⟨hnil, hindex⟩ := ih
    unfold ConstantTable.add
    split
    · exact ⟨hnil, hindex⟩
    · next hnew =>
      split
      · next hroom =>
        have hfresh : t.index.contains c = false := by
          rw [Std.HashMap.contains_eq_isSome_getElem?, hnew]
          rfl
        constructor
        · simp only [Array.toList_push, List.head?_append, hnil, Option.some_or]
        · show t.index.insert c _ = indexOf (t.entries.push c).toList
          rw [insert_eq_insertIfNew _ _ _ hfresh, Array.toList_push, indexOf_append c (by simpa using hroom), hindex,
            Array.length_toList]
      · exact ⟨hnil, hindex⟩

/-- **A table is the table of the row that it holds.** -/
theorem Built.ofList_entries {t : ConstantTable} (h : t.Built) : ConstantTable.ofList t.entries.toList = t := by
  obtain ⟨hnil, hindex⟩ := h.indexOf_entries
  unfold ConstantTable.ofList
  simp only [hnil, if_pos, ← hindex, Array.toArray_toList]

/-- The table of a row holds at most one constant more. -/
theorem size_ofList (constants : List Constant) : (ofList constants).entries.size ≤ constants.length + 1 := by
  unfold ofList
  show (if _ then _ else _ : List Constant).toArray.size ≤ _
  split <;> simp

theorem mem_ofList {constants : List Constant} {c : Constant} (h : c ∈ (ofList constants).entries) :
    c = .nil ∨ c ∈ constants := by
  unfold ofList at h
  change c ∈ (if _ then _ else _ : List Constant).toArray at h
  rw [List.mem_toArray] at h
  split at h
  · exact .inr h
  · exact List.mem_cons.1 h

end ShellVM.ConstantTable
