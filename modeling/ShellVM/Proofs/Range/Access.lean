import ShellVM.Proofs.Range.Walk
import ShellVM.Value.Index

/-!
# Random access to ranges

The item at a position is the point there, but its distance from the start is computed in 64-bit words, and the
position is read as one. So `get?` agrees with the walk exactly as long as both fit (`Range.get?_eq_nth_iff`), and an
index, which counts from the end if it is negative, finds the item that it names under the same condition
(`Range.index_of_names`).
-/

namespace ShellVM

namespace Range

variable {r : Range} {i k count : Nat} {j x last : Int64} {w : World}

/-! ## Positions -/

/-- A position as it is read when the item is computed: a word with a sign. -/
def signed (i : Nat) : Int := (Int64.ofNat i).toInt

theorem signed_of_lt (h : i < 9223372036854775808) : signed i = i := Int64.toInt_ofNat_of_lt h

/-- Positions beyond the words with a sign are read as negative ones. -/
theorem signed_of_le (h : 9223372036854775808 ≤ i) (hi : i ≤ maxCount) : signed i = i - 18446744073709551616 := by
  have hsize : Int64.size = 18446744073709551616 := rfl
  unfold signed maxCount at *
  rw [Int64.toInt_ofNat', hsize, Int.bmod_def]
  omega

/-- The position and its distance from the start are words. -/
def Measures (r : Range) (i : Nat) : Prop := i < 9223372036854775808 ∧ Word.Fits (i * r.step.toInt)

instance : Decidable (r.Measures i) := inferInstanceAs (Decidable (_ ∧ _))

/-- At this position another answer is given than by walking: either an item is missed because its distance is no
word, or an open range that does not come so far is said to have an item, the one at the position with a sign. -/
def Misread (r : Range) (i : Nat) : Prop :=
  (r.Reaches i ∧ ¬r.Measures i) ∨
    (¬r.Reaches i ∧ r.last? = none ∧ Word.Fits (signed i * r.step.toInt) ∧
      Word.Fits (r.start.toInt + signed i * r.step.toInt))

/-! ## Items -/

/-- The item that is computed, if the count lets the position pass. -/
theorem get?_eq : r.get? i = if r.length?.any (· ≤ i) then none
    else if Word.Fits (signed i * r.step.toInt) then Word.ofInt? (r.start.toInt + signed i * r.step.toInt)
    else none := by
  unfold get? Word.mul? Word.add?
  split
  · rfl
  · show (Word.ofInt? (signed i * r.step.toInt)).bind _ = _
    by_cases hfits : Word.Fits (signed i * r.step.toInt)
    · rw [Word.ofInt?, if_pos hfits, Option.bind_some, Word.toInt_ofInt hfits, if_pos hfits]
    · rw [Word.ofInt?, if_neg hfits, if_neg hfits, Option.bind_none]

theorem length?_of_open (hlast : r.last? = none) : r.length? = none := by
  unfold length?
  rw [hlast]
  rfl

/-- The count lets positions pass that the range reaches, up to the last one that counts go to. -/
theorem passes_of_reaches (h : r.Reaches i) (hi : i < maxCount) : r.length?.any (· ≤ i) = false := by
  cases hlast : r.last? with
  | none =>
    rw [length?_of_open hlast]
    rfl
  | some last =>
    have := (lt_count_iff hlast).2 h
    rw [length?_eq hlast, Option.any_some, decide_eq_false_iff_not]
    omega

theorem get?_of_measures (h : r.Reaches i) (hmeasures : r.Measures i) : r.get? i = r.walk.nth i := by
  obtain ⟨hi, hfits⟩ := hmeasures
  rw [get?_eq, passes_of_reaches h (by unfold maxCount; omega), if_neg Bool.false_ne_true,
    signed_of_lt hi, if_pos hfits, nth_of_reaches h]
  exact Word.ofInt?_eq_some_iff.2 h.toInt_word

/-- A distance that is no word is not computed, and a position that is read as negative leads to the other end of the
words. -/
theorem get?_of_not_measures (h : r.Reaches i) (hi : i ≤ maxCount) (hmeasures : ¬r.Measures i) : r.get? i = none := by
  have hfits := h.fits
  have hstep := h.1
  rw [get?_eq]
  split
  · rfl
  by_cases hlow : i < 9223372036854775808
  · rw [signed_of_lt hlow, if_neg fun hdistance => hmeasures ⟨hlow, hdistance⟩]
  · rw [signed_of_le (Nat.not_lt.1 hlow) hi]
    split
    · refine Word.ofInt?_eq_none_iff.2 ?_
      rw [Int.sub_mul]
      unfold point Word.Fits at *
      omega
    · rfl

theorem length?_any_of_not_reaches (hlast : r.last? = some last) (h : ¬r.Reaches i) : r.length?.any (· ≤ i) = true := by
  have hle : r.count last ≤ i := Nat.not_lt.1 fun hlt => h ((lt_count_iff hlast).1 hlt)
  rw [length?_eq hlast, Option.any_some, decide_eq_true_eq]
  exact Nat.le_trans (Nat.min_le_left _ _) hle

/-- Reading an item agrees with walking unless the position is misread. -/
theorem get?_eq_nth_iff (hi : i ≤ maxCount) : r.get? i = r.walk.nth i ↔ ¬r.Misread i := by
  unfold Misread
  by_cases hreaches : r.Reaches i
  · have hn := nth_of_reaches hreaches
    by_cases hmeasures : r.Measures i
    · simp [hreaches, hmeasures, get?_of_measures]
    · simp [hreaches, hmeasures, get?_of_not_measures hreaches hi hmeasures, hn]
  · rw [nth_of_not_reaches hreaches]
    cases hlast : r.last? with
    | some last =>
      rw [get?_eq, length?_any_of_not_reaches hlast hreaches]
      simp [hreaches]
    | none =>
      rw [get?_eq, length?_of_open hlast]
      simp [hreaches, Word.ofInt?_eq_none_iff]

/-! ## Indices -/

/-- The index names the position among so many items; a negative one counts from the end. -/
def Names (count : Nat) (j : Int64) (k : Nat) : Prop := (k : Int) = if j.toInt < 0 then count + j.toInt else j.toInt

/-- So many items can be counted from the end, if the index does so. -/
def Counts (count : Nat) (j : Int64) : Prop := j.toInt < 0 → count ≤ 9223372036854775807

instance : Decidable (Counts count j) := inferInstanceAs (Decidable (_ → _))

theorem resolveIndex_of_names (hnames : Names count j k) (hk : k < count) (hcounts : Counts count j) :
    resolveIndex j count = .ok k := by
  unfold Names Counts at *
  unfold resolveIndex
  simp only [Int64.lt_iff_toInt_lt, Int64.toInt_zero]
  by_cases hneg : j.toInt < 0
  · have hcount := hcounts hneg
    rw [if_pos hneg] at hnames
    rw [if_pos hneg, if_neg (by omega), ← hnames]
    simp [hk]
  · rw [if_neg hneg] at hnames
    rw [if_neg hneg, ← hnames]
    simp [hk]

/-- If the index names no position that there is, or cannot be counted, it is out of range. -/
theorem resolveIndex_of_unnamed (h : ∀ k < count, Names count j k → ¬Counts count j) :
    resolveIndex j count = .error (.indexOutOfRange j count) := by
  have unnamed {place : Int} (hplace : place = if j.toInt < 0 then count + j.toInt else j.toInt)
      (hcounts : Counts count j) : ¬(0 ≤ place ∧ place < count) := fun ⟨hnonneg, hlt⟩ =>
    h place.toNat (by omega) (by unfold Names; omega) hcounts
  unfold resolveIndex
  simp only [Int64.lt_iff_toInt_lt, Int64.toInt_zero]
  by_cases hneg : j.toInt < 0
  · rw [if_pos hneg] at unnamed
    rw [if_pos hneg]
    split
    · rfl
    · next hcount =>
      have := unnamed rfl fun _ => Nat.not_lt.1 hcount
      rw [if_neg (by simpa using this)]
  · rw [if_neg hneg] at unnamed
    have := unnamed rfl fun hneg' => absurd hneg' hneg
    rw [if_neg hneg, if_neg (by omega)]

/-- What an index is resolved to is the position that it names. -/
theorem resolveIndex_ok_iff : resolveIndex j count = .ok k ↔ Names count j k ∧ k < count ∧ Counts count j := by
  refine ⟨fun h => Classical.byContradiction fun hnot => ?_,
    fun ⟨hnames, hk, hcounts⟩ => resolveIndex_of_names hnames hk hcounts⟩
  by_cases hnamed : ∃ k' < count, Names count j k' ∧ Counts count j
  · obtain ⟨k', hk', hnames, hcounts⟩ := hnamed
    cases h.symm.trans (resolveIndex_of_names hnames hk' hcounts)
    exact hnot ⟨hnames, hk', hcounts⟩
  · have hfails := resolveIndex_of_unnamed fun k' hk' hnames hcounts => hnamed ⟨k', hk', hnames, hcounts⟩
    cases h.symm.trans hfails

/-- How an index fails that finds no item of a range with so many items. -/
def outOfRange (count : Nat) (j : Int64) : Cause := .indexOutOfRange j (min count maxCount)

theorem index_eq : Value.index (.range r) (.integer j) w = (match Value.rangeItem r j with
    | .ok n => .ok (.integer n) w
    | .error cause => .error (.ofCause cause) w) := by
  show (do return .integer (← Effect.ofExcept (Value.rangeItem r j)) : Effect Value) w = _
  cases Value.rangeItem r j <;> rfl

theorem rangeItem_of_resolved (hlast : r.last? = some last) (h : resolveIndex j (min (r.count last) maxCount) = .ok k) :
    Value.rangeItem r j = (match r.get? k with
      | some n => .ok n
      | none => .error (outOfRange (r.count last) j)) := by
  unfold Value.rangeItem
  rw [length?_eq hlast]
  dsimp only
  rw [h]
  rfl

theorem rangeItem_of_unresolved {cause : Cause} (hlast : r.last? = some last)
    (h : resolveIndex j (min (r.count last) maxCount) = .error cause) : Value.rangeItem r j = .error cause := by
  unfold Value.rangeItem
  rw [length?_eq hlast]
  dsimp only
  rw [h]
  rfl

/-- An index finds the item that it names if the position and its distance from the start are words and, should it
count from the end, the number of the items is one as well. -/
theorem index_of_names (hlast : r.last? = some last) (hnames : Names (r.count last) j k) (hx : r.walk.nth k = some x) :
    Value.index (.range r) (.integer j) w = if r.Measures k ∧ Counts (r.count last) j then .ok (.integer x) w
      else .error (.ofCause (outOfRange (r.count last) j)) w := by
  have hreaches := isSome_nth_iff.1 (hx ▸ rfl : (r.walk.nth k).isSome = true)
  have hk := (lt_count_iff hlast).2 hreaches
  have hj := Word.fits_toInt j
  rw [index_eq]
  by_cases hcounts : Counts (r.count last) j
  · have hresolved : resolveIndex j (min (r.count last) maxCount) = .ok k := by
      refine resolveIndex_of_names ?_ ?_ ?_ <;> simp only [Names, Counts, maxCount, Word.Fits] at * <;> omega
    rw [rangeItem_of_resolved hlast hresolved]
    by_cases hmeasures : r.Measures k
    · rw [get?_of_measures hreaches hmeasures, hx, if_pos ⟨hmeasures, hcounts⟩]
    · rw [get?_of_not_measures hreaches ?_ hmeasures, if_neg fun h => hmeasures h.1]
      unfold Names Counts maxCount Word.Fits at *
      omega
  · have hunresolved : resolveIndex j (min (r.count last) maxCount) = .error (outOfRange (r.count last) j) := by
      refine resolveIndex_of_unnamed fun _ _ _ hcounted => hcounts ?_
      unfold Counts maxCount at *
      omega
    rw [rangeItem_of_unresolved hlast hunresolved, if_neg fun h => hcounts h.2]

/-- An index that names no item is out of range. -/
theorem index_of_unnamed (hlast : r.last? = some last) (h : ∀ k, Names (r.count last) j k → r.walk.nth k = none) :
    Value.index (.range r) (.integer j) w = .error (.ofCause (outOfRange (r.count last) j)) w := by
  have hunresolved : resolveIndex j (min (r.count last) maxCount) = .error (outOfRange (r.count last) j) := by
    refine resolveIndex_of_unnamed fun k hk hnames hcounts => ?_
    have hnone := h k (by unfold Names Counts maxCount at *; omega)
    have hreaches : r.Reaches k := (lt_count_iff hlast).1 (by omega)
    cases hnone.symm.trans (nth_of_reaches hreaches)
  rw [index_eq, rangeItem_of_unresolved hlast hunresolved]

/-- Random access to a range agrees with walking it except where words end. Reading an item differs from walking
exactly at the positions that are misread. In a range with an end an index that names no item is out of range; one
that names an item finds it if the position, its distance from the start and the number of items from which it counts
back are words with a sign, and is out of range as well if not. -/
theorem random_access_agrees_within_words (r : Range) :
    (∀ i ≤ maxCount, r.get? i = r.walk.nth i ↔ ¬r.Misread i) ∧
    ∀ last, r.last? = some last → ∃ count, (∀ k, (r.walk.nth k).isSome ↔ k < count) ∧ ∀ (j : Int64) (w : World),
      (∀ k x, Names count j k → r.walk.nth k = some x → Value.index (.range r) (.integer j) w =
        if r.Measures k ∧ Counts count j then .ok (.integer x) w else .error (.ofCause (outOfRange count j)) w) ∧
      ((∀ k, Names count j k → r.walk.nth k = none) →
        Value.index (.range r) (.integer j) w = .error (.ofCause (outOfRange count j)) w) :=
  ⟨fun _ hi => get?_eq_nth_iff hi, fun last hlast =>
    ⟨r.count last, fun _ => isSome_nth_iff.trans (lt_count_iff hlast).symm,
    fun _ _ => ⟨fun _ _ hnames hx => index_of_names hlast hnames hx, index_of_unnamed hlast⟩⟩⟩

/-- Four items, from the least word on, a quarter of all words apart. -/
def quarters : Range := ⟨some (-9223372036854775808), some 9223372036854775807, some 4611686018427387904, false⟩

/-- The distance to the last item of four is no word, so that the last item is not found, although the range has it. -/
theorem random_access_agrees_within_words_quarters : quarters.get? 1 = some (-4611686018427387904) ∧
    quarters.walk.nth 3 = some 4611686018427387904 ∧
    Value.index (.range quarters) (.integer 1) {} = .ok (.integer (-4611686018427387904)) {} ∧
    Value.index (.range quarters) (.integer (-1)) {} = .error (.ofCause (.indexOutOfRange (-1) 4)) {} := by
  obtain ⟨hget, hindex⟩ := random_access_agrees_within_words quarters
  obtain ⟨count, hcount, hindex⟩ := hindex 9223372036854775807 rfl
  have hfour : count = 4 := by
    have h₃ := (hcount 3).1 (by decide)
    have h₄ := mt (hcount 4).2 (by decide)
    omega
  subst hfour
  have hread : ¬quarters.Misread 1 := by
    rintro (⟨-, hmeasures⟩ | ⟨-, hopen, -⟩)
    · exact hmeasures (by decide)
    · cases hopen
  refine ⟨((hget 1 (by decide)).2 hread).trans (by decide), by decide, ?_, ?_⟩
  · exact (hindex 1 {}).1 1 (-4611686018427387904) (by unfold Names; decide) (by decide)
  · exact (hindex (-1) {}).1 3 4611686018427387904 (by unfold Names; decide) (by decide)

/-- Reading the third item of four gives nothing, and walking comes to it. -/
theorem get?_misses_third_quarter : ¬∀ (r : Range) (i : Nat), i ≤ maxCount → ∀ x, r.get? i = some x ↔
    r.walk.nth i = some x :=
  fun h => absurd ((h quarters 2 (by decide) 0).2 (by decide)) (by decide)

end Range

end ShellVM
