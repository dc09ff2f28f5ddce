import ShellVM.Bytecode.Constant

/-!
# Constant tables

A table is sound if its index finds every constant where it stands and nil stands in front. Tables start out sound
and stay so (`Sound.add`); a key once given keeps its constant (`get?_add`).
-/

namespace ShellVM.ConstantTable

/-- The index leads to the constants it names, and nil stands in front. -/
structure Sound (t : ConstantTable) : Prop where
  index : ∀ {c : Constant} {key : UInt16}, t.index[c]? = some key → t.get? key = some c
  nil : t.get? nilKey = some .nil

theorem Sound.empty : Sound empty where
  index := by
    intro c key h
    have hi : ConstantTable.empty.index = (∅ : Std.HashMap Constant UInt16).insertIfNew .nil (0 : Nat).toUInt16 := rfl
    rw [hi, Std.HashMap.getElem?_insertIfNew] at h
    split at h
    · next hc =>
      cases h
      have : Constant.nil = c := by simpa using hc.1
      subst this
      rfl
    · simp at h
  nil := rfl

theorem toNat_size {t : ConstantTable} (h : t.entries.size < capacity) :
    t.entries.size.toUInt16.toNat = t.entries.size := by
  unfold capacity at h
  simp [Nat.mod_eq_of_lt h]

/-- A key keeps its constant. -/
theorem get?_add {t : ConstantTable} {c c' : Constant} {key : UInt16} (h : t.get? key = some c') :
    (t.add c).2.get? key = some c' := by
  unfold add
  split
  · exact h
  · split
    · have hlt := (Array.getElem?_eq_some_iff.1 h).1
      simp only [get?] at h ⊢
      rw [Array.getElem?_push, if_neg (Nat.ne_of_lt hlt), h]
    · exact h

/-- The key of a constant leads to it. -/
theorem Sound.get?_key {t : ConstantTable} (ht : t.Sound) {c : Constant} {key : UInt16}
    (h : (t.add c).1 = some key) : (t.add c).2.get? key = some c := by
  unfold add at h ⊢
  split at h
  · next k hk =>
    cases h
    exact ht.index hk
  · next hn =>
    split at h
    · next hlt =>
      cases h
      simp [get?, hlt, toNat_size hlt]
    · cases h

theorem Sound.add {t : ConstantTable} (ht : t.Sound) (c : Constant) : (t.add c).2.Sound where
  index := by
    intro c' key h
    by_cases hc : c = c'
    · subst hc
      unfold ConstantTable.add at h ⊢
      split at h
      · exact ht.index h
      · next hn =>
        split at h
        · next hlt =>
          simp only [Std.HashMap.getElem?_insert_self, Option.some.injEq] at h
          subst h
          simp [get?, hlt, toNat_size hlt]
        · rw [hn] at h
          cases h
    · refine get?_add (ht.index ?_)
      unfold ConstantTable.add at h
      split at h
      · exact h
      · split at h
        · rwa [Std.HashMap.getElem?_insert, if_neg (by simpa using hc)] at h
        · exact h
  nil := get?_add ht.nil

end ShellVM.ConstantTable
