import ShellVM.Range

/-!
# Walks through ranges

Walking, counting and probing a range are three ways to look at one row of exact integers, `Range.point`. A walk gives
the points one after the other for as long as they are before the end (`Range.nth_of_reaches`), and nothing from then
on (`Range.nth_of_not_reaches`); the count is their number, and the range contains what is one of them
(`Range.walk_count_and_membership_agree`).
-/

namespace ShellVM.Range

namespace Walk

/-- The walk after a number of looks at the next item. -/
def after (w : Walk) : Nat → Walk
  | 0 => w
  | k + 1 => (w.after k).advance.2

/-- What a look gives after `k` others. -/
def nth (w : Walk) (k : Nat) : Option Int64 := (w.after k).advance.1

variable {w : Walk} {k j : Nat}

/-- A walk that is over stays where it is. -/
theorem advance_over (h : w.next? = none) : w.advance = (none, w) := by
  unfold advance
  rw [h]

theorem after_over (h : (w.after k).next? = none) (hkj : k ≤ j) : w.after j = w.after k := by
  induction hkj with
  | refl => rfl
  | step _ ih => rw [after, ih, advance_over h]

/-- A walk that does not move gives nothing and stays where it is. -/
theorem advance_still (h : w.step = 0) : w.advance = (none, w) := by
  unfold advance
  cases w.next? with
  | none => rfl
  | some n => simp [h]

theorem after_still (h : w.step = 0) : w.after k = w := by
  induction k with
  | zero => rfl
  | succ k ih => rw [after, ih, advance_still h]

end Walk

variable {r : Range} {k j : Nat} {n last : Int64}

/-! ## Points -/

/-- The exact integer at a position. -/
def point (r : Range) (k : Nat) : Int := r.start.toInt + k * r.step.toInt

/-- The integer is before the end of the range. An open range ends where the words end. -/
def Before (r : Range) (n : Int) : Prop :=
  match r.last? with
  | none => Word.Fits n
  | some last =>
    match r.inclusive, decide (0 < r.step.toInt) with
    | true, true => n ≤ last.toInt
    | true, false => last.toInt ≤ n
    | false, true => n < last.toInt
    | false, false => last.toInt < n

/-- The range goes on to the position: it moves, and all points up to there are before its end. -/
def Reaches (r : Range) (k : Nat) : Prop := r.step.toInt ≠ 0 ∧ ∀ j ≤ k, r.Before (r.point j)

theorem point_zero (r : Range) : r.point 0 = r.start.toInt := by simp [point]

theorem point_succ (r : Range) (k : Nat) : r.point (k + 1) = r.point k + r.step.toInt := by
  unfold point
  push_cast
  rw [Int.add_mul, Int.one_mul, Int.add_assoc]

theorem Reaches.mono (h : r.Reaches k) (hjk : j ≤ k) : r.Reaches j := ⟨h.1, fun i hi => h.2 i (Nat.le_trans hi hjk)⟩

theorem step_eq_zero_iff : r.step = 0 ↔ r.step.toInt = 0 := by
  rw [← Int64.toInt_inj, Int64.toInt_zero]

theorem decide_zero_lt_step : decide (0 < r.step) = decide (0 < r.step.toInt) :=
  decide_eq_decide.2 (by rw [Int64.lt_iff_toInt_lt, Int64.toInt_zero])

/-! ## Distances -/

/-- How far the end is from the start, in the direction in which the range goes. -/
def span (r : Range) (last : Int64) : Int :=
  if 0 < r.step.toInt then last.toInt - r.start.toInt else r.start.toInt - last.toInt

/-- The points are before the end as far as the steps do not take up the distance. -/
theorem before_point_iff (hlast : r.last? = some last) :
    r.Before (r.point k) ↔ if r.inclusive then k * (r.step.toInt.natAbs : Int) ≤ r.span last
      else k * (r.step.toInt.natAbs : Int) < r.span last := by
  unfold Before point span
  rw [hlast]
  by_cases hup : 0 < r.step.toInt
  · have hsize : (r.step.toInt.natAbs : Int) = r.step.toInt := Int.natAbs_of_nonneg (Int.le_of_lt hup)
    rw [hsize]
    cases r.inclusive <;> simp only [hup, decide_true, if_true, Bool.false_eq_true, if_false] <;> omega
  · have hsize : (r.step.toInt.natAbs : Int) = -r.step.toInt := by omega
    rw [hsize, Int.mul_neg]
    cases r.inclusive <;> simp only [hup, decide_false, if_true, Bool.false_eq_true, if_false] <;> omega

/-- A point lies between the start and every point behind it. -/
theorem point_between (hjk : j ≤ k) : (r.start.toInt ≤ r.point j ∧ r.point j ≤ r.point k) ∨
    (r.point k ≤ r.point j ∧ r.point j ≤ r.start.toInt) := by
  have hle : (j : Int) ≤ k := Int.ofNat_le.2 hjk
  unfold point
  by_cases hup : 0 ≤ r.step.toInt
  · have h₁ := Int.mul_nonneg (Int.natCast_nonneg j) hup
    have h₂ := Int.mul_le_mul_of_nonneg_right hle hup
    exact .inl ⟨by omega, by omega⟩
  · have h₁ := Int.mul_nonpos_of_nonneg_of_nonpos (Int.natCast_nonneg j) (Int.le_of_lt (Int.not_le.1 hup))
    have h₂ := Int.mul_le_mul_of_nonpos_right hle (Int.le_of_lt (Int.not_le.1 hup))
    exact .inr ⟨by omega, by omega⟩

/-- Points between others that fit into words fit too. -/
theorem fits_of_le (h : Word.Fits (r.point k)) (hjk : j ≤ k) : Word.Fits (r.point j) := by
  have hstart := Word.fits_toInt r.start
  unfold Word.Fits at *
  rcases point_between (r := r) hjk with h' | h' <;> omega

/-- The last position decides whether a range that moves goes on so far. -/
theorem reaches_iff (hstep : r.step.toInt ≠ 0) : r.Reaches k ↔ r.Before (r.point k) := by
  refine ⟨fun h => h.2 k (Nat.le_refl k), fun h => ⟨hstep, fun j hj => ?_⟩⟩
  cases hlast : r.last? with
  | none =>
    unfold Before at h ⊢
    rw [hlast] at h ⊢
    exact fits_of_le h hj
  | some last =>
    have hmul : (j : Int) * (r.step.toInt.natAbs : Int) ≤ k * (r.step.toInt.natAbs : Int) :=
      Int.mul_le_mul_of_nonneg_right (Int.ofNat_le.2 hj) (Int.natCast_nonneg _)
    rw [before_point_iff hlast] at h ⊢
    split at h
    · next hi => rw [if_pos hi]; omega
    · next hi => rw [if_neg hi]; omega

/-- What is before the end and not on the other side of the start fits into a word. -/
theorem Reaches.fits (h : r.Reaches k) : Word.Fits (r.point k) := by
  have hbefore := h.2 k (Nat.le_refl k)
  cases hlast : r.last? with
  | none =>
    unfold Before at hbefore
    rw [hlast] at hbefore
    exact hbefore
  | some last =>
    have hstart := Word.fits_toInt r.start
    have hend := Word.fits_toInt last
    rw [before_point_iff hlast] at hbefore
    have hspan : k * (r.step.toInt.natAbs : Int) ≤ r.span last := by
      split at hbefore <;> omega
    unfold Word.Fits span point at *
    by_cases hup : 0 < r.step.toInt
    · rw [Int.natAbs_of_nonneg (Int.le_of_lt hup), if_pos hup] at hspan
      have := Int.mul_nonneg (Int.natCast_nonneg k) (Int.le_of_lt hup)
      omega
    · rw [Int.ofNat_natAbs_of_nonpos (Int.not_lt.1 hup), if_neg hup, Int.mul_neg] at hspan
      have := Int.mul_nonpos_of_nonneg_of_nonpos (Int.natCast_nonneg k) (Int.not_lt.1 hup)
      omega

/-! ## The walk -/

/-- The walk that has come to a position. -/
def walkAt (r : Range) (k : Nat) : Walk := ⟨Word.ofInt? (r.point k), r.last?, r.step, r.inclusive⟩

theorem walk_eq_walkAt (r : Range) : r.walk = r.walkAt 0 := by
  unfold walk walkAt
  rw [point_zero, Word.ofInt?_eq_some_iff.2 rfl]

/-- A word is past the end if it is not before it. -/
theorem isPast_iff (hword : Word.ofInt? (r.point k) = some n) : (r.walkAt k).isPast n = true ↔
    ¬r.Before (r.point k) := by
  have hn := Word.ofInt?_eq_some_iff.1 hword
  unfold Walk.isPast Before walkAt
  dsimp only
  rw [← hn]
  cases r.last? with
  | none => simpa using Word.fits_toInt n
  | some last =>
    cases r.inclusive <;> by_cases hup : 0 < r.step.toInt <;>
      simp [hup, Int64.lt_iff_toInt_lt, Int64.le_iff_toInt_le]

/-- The word at a position. -/
def word (r : Range) (k : Nat) : Int64 := Int64.ofInt (r.point k)

theorem Reaches.toInt_word (h : r.Reaches k) : (r.word k).toInt = r.point k := Word.toInt_ofInt h.fits

/-- At a position that the range reaches the walk gives the word there, and goes on to the next position. -/
theorem advance_walkAt (h : r.Reaches k) : (r.walkAt k).advance = (some (r.word k), r.walkAt (k + 1)) := by
  have hword : Word.ofInt? (r.point k) = some (r.word k) := if_pos h.fits
  have hstep : ¬(r.walkAt k).step = 0 := fun h0 => h.1 (step_eq_zero_iff.1 h0)
  have hpast : ¬(r.walkAt k).isPast (r.word k) = true := fun hp => (isPast_iff hword).1 hp (h.2 k (Nat.le_refl k))
  have hnext : Word.add? (r.word k) r.step = Word.ofInt? (r.point (k + 1)) := by
    rw [Word.add?, h.toInt_word, point_succ]
  show (match Word.ofInt? (r.point k) with | none => _ | some n => _) = _
  rw [hword]
  dsimp only
  rw [if_neg (by simpa using hstep), if_neg hpast]
  unfold walkAt
  rw [← hnext]

/-- At the first position that the range does not reach the walk is over. -/
theorem advance_walkAt_over (hstep : r.step.toInt ≠ 0) (h : ¬r.Before (r.point k)) :
    (r.walkAt k).advance.1 = none ∧ (r.walkAt k).advance.2.next? = none := by
  cases hword : Word.ofInt? (r.point k) with
  | none =>
    rw [Walk.advance_over hword]
    exact ⟨rfl, hword⟩
  | some n =>
    have hstep' : ¬(r.walkAt k).step = 0 := fun h0 => hstep (step_eq_zero_iff.1 h0)
    have hpast : (r.walkAt k).isPast n = true := (isPast_iff hword).2 h
    have hadvance : (r.walkAt k).advance = (none, { r.walkAt k with next? := none }) := by
      show (match Word.ofInt? (r.point k) with | none => _ | some n => _) = _
      rw [hword]
      dsimp only
      rw [if_neg (by simpa using hstep'), if_pos hpast]
    rw [hadvance]
    exact ⟨rfl, rfl⟩

theorem after_walk (h : ∀ j < k, r.Reaches j) : r.walk.after k = r.walkAt k := by
  induction k with
  | zero => exact r.walk_eq_walkAt
  | succ k ih =>
    rw [Walk.after, ih fun j hj => h j (Nat.lt_succ_of_lt hj), advance_walkAt (h k (Nat.lt_succ_self k))]

/-- At a position that the range reaches the walk gives the point. -/
theorem nth_of_reaches (h : r.Reaches k) : r.walk.nth k = some (r.word k) := by
  rw [Walk.nth, after_walk fun j hj => h.mono (Nat.le_of_lt hj), advance_walkAt h]

/-- A walk that moves is over behind the first position that the range does not reach. -/
theorem over_at_first (hstep : r.step.toInt ≠ 0) (h : ¬r.Reaches k) (hbefore : ∀ j < k, r.Reaches j) :
    r.walk.nth k = none ∧ (r.walk.after (k + 1)).next? = none := by
  rw [Walk.nth, Walk.after, after_walk hbefore]
  exact advance_walkAt_over hstep fun hpoint => h ((reaches_iff hstep).2 hpoint)

/-- It stays over from there on. The induction comes to the first such position from below. -/
theorem over_of_not_reaches (hstep : r.step.toInt ≠ 0) (h : ¬r.Reaches k) :
    r.walk.nth k = none ∧ (r.walk.after (k + 1)).next? = none := by
  induction k with
  | zero => exact over_at_first hstep h fun j hj => absurd hj (Nat.not_lt_zero j)
  | succ k ih =>
    by_cases hreaches : r.Reaches k
    · exact over_at_first hstep h fun j hj => hreaches.mono (Nat.le_of_lt_succ hj)
    · obtain ⟨-, hover⟩ := ih hreaches
      have hstays := Walk.after_over hover (Nat.le_succ (k + 1))
      rw [Walk.nth, hstays, Walk.advance_over hover]
      exact ⟨rfl, hover⟩

/-- At all other positions the walk gives nothing. -/
theorem nth_of_not_reaches (h : ¬r.Reaches k) : r.walk.nth k = none := by
  by_cases hstep : r.step.toInt = 0
  · have hstill : r.walk.step = 0 := step_eq_zero_iff.2 hstep
    rw [Walk.nth, Walk.after_still hstill, Walk.advance_still hstill]
  · exact (over_of_not_reaches hstep h).1

theorem isSome_nth_iff : (r.walk.nth k).isSome ↔ r.Reaches k := by
  refine ⟨fun h => Classical.byContradiction fun hn => ?_, fun h => ?_⟩
  · rw [nth_of_not_reaches hn] at h
    cases h
  · rw [nth_of_reaches h]
    rfl

theorem nth_eq_some_iff : r.walk.nth k = some n ↔ r.Reaches k ∧ r.point k = n.toInt := by
  constructor
  · intro h
    have hreaches := isSome_nth_iff.1 (h ▸ rfl : (r.walk.nth k).isSome = true)
    cases h.symm.trans (nth_of_reaches hreaches)
    exact ⟨hreaches, hreaches.toInt_word.symm⟩
  · rintro ⟨hreaches, hpoint⟩
    rw [nth_of_reaches hreaches, Int64.toInt_inj.1 (hreaches.toInt_word.trans hpoint)]

/-! ## Counts -/

/-- The number of points of a range with an end. -/
def count (r : Range) (last : Int64) : Nat :=
  let size : Int := r.step.toInt.natAbs
  if r.step.toInt = 0 then 0
  else if r.inclusive then (if 0 ≤ r.span last then r.span last / size + 1 else 0).toNat
  else (if 0 < r.span last then (r.span last + size - 1) / size else 0).toNat

theorem length?_eq (hlast : r.last? = some last) : r.length? = some (min (r.count last) maxCount) := by
  unfold length? count span
  rw [hlast]
  by_cases hstep : r.step.toInt = 0
  · simp [hstep]
  · cases r.inclusive <;> simp [hstep]

/-- Whole steps that fit into a distance. -/
theorem lt_toNat_ediv_add_one {distance size : Int} (hsize : 0 < size) :
    k < (if 0 ≤ distance then distance / size + 1 else 0).toNat ↔ k * size ≤ distance := by
  have hk := Int.mul_nonneg (Int.natCast_nonneg k) (Int.le_of_lt hsize)
  have hle : (k : Int) ≤ distance / size ↔ k * size ≤ distance := Int.le_ediv_iff_mul_le hsize
  rw [← hle, Int.lt_toNat]
  split
  · omega
  · rw [hle]
    omega

/-- Whole steps that do not take up a distance. -/
theorem lt_toNat_ediv {distance size : Int} (hsize : 0 < size) :
    k < (if 0 < distance then (distance + size - 1) / size else 0).toNat ↔ k * size < distance := by
  have hk := Int.mul_nonneg (Int.natCast_nonneg k) (Int.le_of_lt hsize)
  have hle : (k : Int) + 1 ≤ (distance + size - 1) / size ↔ (k + 1) * size ≤ distance + size - 1 :=
    Int.le_ediv_iff_mul_le hsize
  rw [Int.add_mul, Int.one_mul] at hle
  rw [Int.lt_toNat]
  split <;> omega

/-- The positions that a range reaches are those below its count. -/
theorem lt_count_iff (hlast : r.last? = some last) : k < r.count last ↔ r.Reaches k := by
  by_cases hstep : r.step.toInt = 0
  · simp [count, Reaches, hstep]
  have hsize : 0 < (r.step.toInt.natAbs : Int) := Int.natCast_pos.2 (Int.natAbs_pos.2 hstep)
  rw [reaches_iff hstep, before_point_iff hlast]
  unfold count
  dsimp only
  rw [if_neg hstep]
  split
  · exact lt_toNat_ediv_add_one hsize
  · exact lt_toNat_ediv hsize

/-! ## Membership -/

/-- The test of the end. -/
theorem all_isBefore_iff : r.last?.all (r.isBefore (decide (0 < r.step)) n) = true ↔ r.Before n.toInt := by
  unfold Before
  cases r.last? with
  | none => simpa using Word.fits_toInt n
  | some last =>
    unfold isBefore
    rw [decide_zero_lt_step, Option.all_some]
    cases r.inclusive <;> cases decide (0 < r.step.toInt) <;> simp [Int64.lt_iff_toInt_lt, Int64.le_iff_toInt_le]

/-- The tests that make an item: it lies in the direction of the range, before its end, and whole steps from its
start. -/
theorem contains_iff_tests : r.contains n = true ↔ r.step.toInt ≠ 0 ∧
    (if 0 < r.step.toInt then r.start.toInt ≤ n.toInt else n.toInt ≤ r.start.toInt) ∧ r.Before n.toInt ∧
    r.step.toInt ∣ n.toInt - r.start.toInt := by
  unfold contains
  dsimp only
  by_cases hstep : r.step = 0
  · simp [hstep]
  have hstep' : r.step.toInt ≠ 0 := fun h => hstep (step_eq_zero_iff.2 h)
  rw [if_neg (by simpa using hstep), Bool.and_eq_true, Bool.and_eq_true, all_isBefore_iff, beq_iff_eq,
    ← Int.dvd_iff_tmod_eq_zero, and_assoc, decide_zero_lt_step]
  by_cases hup : 0 < r.step.toInt <;> simp [hup, hstep', Int64.le_iff_toInt_le]

/-- What a range contains are the points that it reaches. -/
theorem contains_iff : r.contains n = true ↔ ∃ k, r.Reaches k ∧ r.point k = n.toInt := by
  rw [contains_iff_tests]
  constructor
  · rintro ⟨hstep, hstarted, hbefore, steps, hsteps⟩
    -- The number of steps to the item has no sign, as the item lies in the direction of the range.
    have hnonneg : 0 ≤ steps := by
      refine Int.not_lt.1 fun hneg => ?_
      split at hstarted
      · next hup =>
        have := Int.mul_neg_of_pos_of_neg hup hneg
        omega
      · next hup =>
        have := Int.mul_pos_of_neg_of_neg (show r.step.toInt < 0 by omega) hneg
        omega
    have hpoint : r.point steps.toNat = n.toInt := by
      unfold point
      rw [Int.toNat_of_nonneg hnonneg, Int.mul_comm]
      omega
    exact ⟨steps.toNat, (reaches_iff hstep).2 (hpoint ▸ hbefore), hpoint⟩
  · rintro ⟨k, hreaches, hpoint⟩
    refine ⟨hreaches.1, ?_, hpoint ▸ hreaches.2 k (Nat.le_refl k), k, ?_⟩
    · rw [← hpoint, point]
      split
      · next hup =>
        have := Int.mul_nonneg (Int.natCast_nonneg k) (Int.le_of_lt hup)
        omega
      · next hup =>
        have := Int.mul_nonpos_of_nonneg_of_nonpos (Int.natCast_nonneg k) (Int.not_lt.1 hup)
        omega
    · rw [← hpoint, point, Int.mul_comm]
      omega

/-! ## All items -/

/-- A walk that does not come to its position gives nothing there. -/
theorem advance_walkAt_none (h : ¬r.Reaches k) : (r.walkAt k).advance.1 = none := by
  by_cases hstep : r.step.toInt = 0
  · rw [Walk.advance_still (step_eq_zero_iff.2 hstep)]
  · exact (advance_walkAt_over hstep fun hbefore => h ((reaches_iff hstep).2 hbefore)).1

/-- What is taken from a position on, until the range has no more. -/
theorem takeOnto_walkAt (hlast : r.last? = some last) {count : Nat} (acc : List Int64) :
    (r.walkAt k).takeOnto count acc = ((List.range' k (min count (r.count last - k))).map r.word).reverse ++ acc := by
  induction count generalizing k acc with
  | zero => simp [Walk.takeOnto]
  | succ count ih =>
    unfold Walk.takeOnto
    by_cases hreaches : r.Reaches k
    · have hk := (lt_count_iff hlast).2 hreaches
      have hmin : min (count + 1) (r.count last - k) = min count (r.count last - (k + 1)) + 1 := by omega
      rw [advance_walkAt hreaches]
      dsimp only
      rw [ih, hmin, List.range'_succ, List.map_cons, List.reverse_cons, List.append_assoc, List.singleton_append]
    · have hk : r.count last ≤ k := Nat.not_lt.1 fun hlt => hreaches ((lt_count_iff hlast).1 hlt)
      have hnone := advance_walkAt_none hreaches
      have hmin : min (count + 1) (r.count last - k) = 0 := by omega
      rw [hmin]
      generalize (r.walkAt k).advance = step at hnone
      obtain ⟨item?, w⟩ := step
      cases hnone
      rfl

/-- No range has more items than there are words. -/
theorem count_le (hlast : r.last? = some last) : r.count last ≤ maxCount + 1 := by
  refine Nat.not_lt.1 fun hlt => ?_
  have hreaches := (lt_count_iff hlast).1 hlt
  have hfits := hreaches.fits
  have hstart := Word.fits_toInt r.start
  have hstep := hreaches.1
  unfold point maxCount Word.Fits at *
  rcases Int.lt_or_gt_of_ne hstep with h | h <;> omega

/-- The items of a range with an end are the words at its positions. -/
theorem items?_eq (hlast : r.last? = some last) : r.items? = some ((List.range (r.count last)).map r.word) := by
  have hall : min (min (r.count last) maxCount + 1) (r.count last) = r.count last := by
    have := count_le hlast
    omega
  unfold items? Walk.take
  rw [length?_eq hlast, Option.map_some, walk_eq_walkAt, takeOnto_walkAt hlast, List.append_nil, List.reverse_reverse,
    List.range_eq_range', Nat.sub_zero, hall]

/-- A range that can be written down has an end. -/
theorem exists_last_of_items? {ns : List Int64} (h : r.items? = some ns) :
    ∃ last, r.last? = some last ∧ ns = (List.range (r.count last)).map r.word := by
  cases hlast : r.last? with
  | none =>
    unfold items? length? at h
    rw [hlast] at h
    cases h
  | some last => exact ⟨last, rfl, (Option.some.inj ((items?_eq hlast).symm.trans h)).symm⟩

/-- The items of a range are what its walk gives. -/
theorem nth_eq_getElem? {ns : List Int64} (h : r.items? = some ns) : r.walk.nth k = ns[k]? := by
  obtain ⟨last, hlast, rfl⟩ := exists_last_of_items? h
  rw [List.getElem?_map]
  by_cases hk : k < r.count last
  · rw [nth_of_reaches ((lt_count_iff hlast).1 hk), List.getElem?_range hk]
    rfl
  · rw [nth_of_not_reaches (mt (lt_count_iff hlast).2 hk), List.getElem?_eq_none (by simpa using hk)]
    rfl

/-- A range contains its items. -/
theorem contains_iff_mem {ns : List Int64} (h : r.items? = some ns) : r.contains n = true ↔ n ∈ ns := by
  rw [contains_iff, List.mem_iff_getElem?]
  refine exists_congr fun k => ?_
  rw [← nth_eq_getElem? h, nth_eq_some_iff]

/-! ## Agreement -/

/-- Walking a range, counting its items and asking what is in it agree. The walk gives the exact points at the
positions that the range reaches, and nothing at any other position, so that it stays over once it is; the range
contains what the walk gives; and a range with an end has as many items as the walk gives, as far as counts go. -/
theorem walk_count_and_membership_agree (r : Range) :
    (∀ k, r.Reaches k → ∃ n, r.walk.nth k = some n ∧ n.toInt = r.start.toInt + k * r.step.toInt) ∧
    (∀ k j, ¬r.Reaches k → k ≤ j → r.walk.nth j = none) ∧
    (∀ n, r.contains n = true ↔ ∃ k, r.walk.nth k = some n) ∧
    ∀ last, r.last? = some last →
      ∃ count, (∀ k, (r.walk.nth k).isSome ↔ k < count) ∧ r.length? = some (min count maxCount) := by
  refine ⟨fun k h => ⟨r.word k, nth_of_reaches h, h.toInt_word⟩,
    fun k j h hkj => nth_of_not_reaches fun hj => h (hj.mono hkj), fun n => ?_,
    fun last hlast => ⟨r.count last, fun k => isSome_nth_iff.trans (lt_count_iff hlast).symm, length?_eq hlast⟩⟩
  rw [contains_iff]
  exact exists_congr fun k => nth_eq_some_iff.symm

end ShellVM.Range
