import Mathlib.Data.List.Induction
import Mathlib.Data.List.Sort
import ShellVM.Proofs.Range.Walk
import ShellVM.Value.Index

/-!
# Slices

A range as an index takes the items from `Range.low` up to `Range.high`, `Range.stride` apart (`Range.cut`). The
machine goes through a second range to find them, which goes up and has its ends inside of the sequence, so that
neither its direction nor the ends of the words matter: it gives the positions that the slice takes, in order
(`Range.slice_eq`).
-/

namespace ShellVM

namespace Range

variable {r : Range} {n k : Nat} {lo hi : Int} {step : Int64} {w : World}

/-! ## What a slice takes -/

/-- The place that a bound names among `n` items; a negative one counts from the end. -/
def placeOf (n : Nat) (bound : Int64) : Int := if bound.toInt < 0 then n + bound.toInt else bound.toInt

/-- Where a slice begins. -/
def low (r : Range) (n : Nat) : Int :=
  match r.first? with
  | none => 0
  | some bound => max 0 (min (placeOf n bound) n)

/-- Where a slice ends; an inclusive end is moved on by one after it was counted from the end. -/
def high (r : Range) (n : Nat) : Int :=
  match r.last? with
  | none => n
  | some bound => max 0 (min (placeOf n bound + if r.inclusive then 1 else 0) n)

/-- How far apart the items of a slice are. -/
def stride (r : Range) : Int :=
  match r.step? with
  | none => 1
  | some step => step.toInt

/-- The slice takes the item at the position. -/
def Takes (r : Range) (n p : Nat) : Prop := r.low n ≤ p ∧ p < r.high n ∧ r.stride ∣ p - r.low n

instance (p : Nat) : Decidable (r.Takes n p) := inferInstanceAs (Decidable (_ ∧ _))

/-- The items that the slice takes. -/
def cut {α : Type} (r : Range) (items : List α) : List α :=
  (items.zipIdx.filter fun item => r.Takes items.length item.2).map Prod.fst

theorem low_bounds (r : Range) (n : Nat) : 0 ≤ r.low n ∧ r.low n ≤ n := by
  unfold low
  split <;> omega

theorem high_bounds (r : Range) (n : Nat) : 0 ≤ r.high n ∧ r.high n ≤ n := by
  unfold high
  split <;> omega

/-! ## Ranges inside a sequence -/

/-- A range that goes up from one place to another. -/
def upward (lo hi : Int) (step : Int64) : Range := ⟨some (Int64.ofInt lo), some (Int64.ofInt hi), some step, false⟩

section

variable (hlo : 0 ≤ lo) (hhi : lo ≤ hi) (hword : hi ≤ 9223372036854775807) (hstep : 0 < step.toInt)

include hlo hhi hword

theorem point_upward : (upward lo hi step).point k = lo + k * step.toInt :=
  congrArg (· + k * step.toInt) (Word.toInt_ofInt ⟨by omega, by omega⟩)

include hstep

/-- The positions of such a range are those whose points are below its end. -/
theorem lt_count_upward : k < (upward lo hi step).count (Int64.ofInt hi) ↔ lo + k * step.toInt < hi := by
  have hup : 0 < (upward lo hi step).step.toInt := hstep
  have hstart : (upward lo hi step).start.toInt = lo := Word.toInt_ofInt ⟨by omega, by omega⟩
  have hend : (Int64.ofInt hi).toInt = hi := Word.toInt_ofInt ⟨by omega, hword⟩
  have hopen : ¬(upward lo hi step).inclusive = true := Bool.false_ne_true
  rw [lt_count_iff rfl, reaches_iff (by omega), before_point_iff rfl, if_neg hopen, span, if_pos hup, hstart, hend,
    Int.natAbs_of_nonneg (Int.le_of_lt hup)]
  show k * step.toInt < _ ↔ _
  omega

/-- The items of a range that goes up inside a sequence are positions of the sequence, in order. -/
theorem items_upward (hn : hi ≤ n) : ((upward lo hi step).items?.getD []).map (·.toInt.toNat) =
    (List.range n).filter fun p : Nat => lo ≤ p ∧ p < hi ∧ step.toInt ∣ p - lo := by
  have hitems : ((upward lo hi step).items?.getD []).map (·.toInt.toNat) =
      (List.range ((upward lo hi step).count (Int64.ofInt hi))).map fun k : Nat => (lo + k * step.toInt).toNat := by
    rw [items?_eq rfl, Option.getD_some, List.map_map]
    refine List.map_congr_left fun k hk => ?_
    have hreaches := (lt_count_iff rfl).1 (List.mem_range.1 hk)
    show ((upward lo hi step).word k).toInt.toNat = _
    rw [hreaches.toInt_word, point_upward hlo hhi hword]
  rw [hitems]
  refine List.Pairwise.eq_of_mem_iff (r := (· < ·)) ?_ (List.pairwise_lt_range.filter _) fun p => ?_
  · refine List.pairwise_map.2 (List.pairwise_lt_range.imp fun {j k} hjk => ?_)
    have := Int.mul_lt_mul_of_pos_right (Int.ofNat_lt.2 hjk) hstep
    have := Int.mul_nonneg (Int.natCast_nonneg j) (Int.le_of_lt hstep)
    omega
  · simp only [List.mem_map, List.mem_range, List.mem_filter, decide_eq_true_eq,
      lt_count_upward hlo hhi hword hstep]
    constructor
    · rintro ⟨k, hk, rfl⟩
      have := Int.mul_nonneg (Int.natCast_nonneg k) (Int.le_of_lt hstep)
      refine ⟨by omega, by omega, by omega, k, ?_⟩
      rw [Int.toNat_of_nonneg (by omega), Int.mul_comm]
      omega
    · rintro ⟨-, hle, hlt, k, hk⟩
      have hnonneg : 0 ≤ k := Int.not_lt.1 fun hneg => by
        have := Int.mul_neg_of_pos_of_neg hstep hneg
        omega
      rw [Int.mul_comm] at hk
      refine ⟨k.toNat, ?_, ?_⟩ <;> rw [Int.toNat_of_nonneg hnonneg] <;> omega

end

/-! ## Positions -/

/-- How a slice fails whose step does not go up. -/
def noStride (r : Range) : Cause := .custom ("slice step must be positive, got " ++ Word.render (r.step?.getD 1))

/-- The machine looks for the positions of a slice in a range that goes up. -/
theorem slice_eq_upward (r : Range) (n : Nat) : r.slice n = if r.step?.getD 1 ≤ 0 then .error r.noStride
    else .ok (((upward (r.low n) (max (r.high n) (r.low n)) (r.step?.getD 1)).items?.getD []).map (·.toInt.toNat)) := by
  have hplace (bound : Int64) : resolveBound n bound = placeOf n bound := by
    unfold resolveBound placeOf
    simp only [Int64.lt_iff_toInt_lt, Int64.toInt_zero]
  have hzero : placeOf n 0 = 0 := rfl
  unfold slice low high clamp
  simp only [hplace]
  cases r.first? <;> cases r.last? <;> simp [hzero, upward, noStride]

/-- The positions of a slice are those that it takes, in order. -/
theorem slice_eq (hn : n ≤ 9223372036854775807) : r.slice n = if r.stride ≤ 0 then .error r.noStride
    else .ok ((List.range n).filter fun p => r.Takes n p) := by
  have hstride : (r.step?.getD 1).toInt = r.stride := by
    unfold stride
    cases r.step? <;> rfl
  have hlow := r.low_bounds n
  have hhigh := r.high_bounds n
  rw [slice_eq_upward]
  by_cases hstep : r.stride ≤ 0
  · rw [if_pos hstep, if_pos (by rwa [Int64.le_iff_toInt_le, hstride])]
  · rw [if_neg hstep, if_neg (by rwa [Int64.le_iff_toInt_le, hstride]),
      items_upward (n := n) hlow.1 (Int.le_max_right _ _) (by omega) (by omega) (by omega)]
    refine congrArg Except.ok (List.filter_congr fun p _ => decide_eq_decide.2 ?_)
    unfold Takes
    rw [hstride]
    omega

/-- The items at these positions are what the slice takes. The induction adds items at the end, so that positions
stay. -/
theorem pick_filter {α : Type} (takes : Nat → Bool) (items : List α) :
    ((List.range items.length).filter takes).filterMap (items[·]?) =
    (items.zipIdx.filter fun item => takes item.2).map Prod.fst := by
  induction items using List.reverseRecOn with
  | nil => rfl
  | append_singleton items item ih =>
    have hbefore : ((List.range items.length).filter takes).filterMap ((items ++ [item])[·]?) =
        ((List.range items.length).filter takes).filterMap (items[·]?) :=
      List.filterMap_congr fun p hp => List.getElem?_append_left (List.mem_range.1 (List.mem_of_mem_filter hp))
    rw [List.length_append, List.length_singleton, List.range_succ, List.filter_append,
      List.filterMap_append, hbefore, ih, List.zipIdx_append, List.filter_append, List.map_append]
    cases htakes : takes items.length <;> simp [htakes]

theorem pick_takes {α : Type} (r : Range) (items : List α) :
    Value.pick items.toArray ((List.range items.length).filter fun p => r.Takes items.length p) = r.cut items := by
  rw [Value.pick, cut, ← pick_filter fun p => r.Takes items.length p]
  refine List.filterMap_congr fun p _ => ?_
  rw [List.getElem?_toArray]

/-! ## Slices of values -/

/-- The result of a slice, if its step goes up. -/
def sliced {α : Type} (r : Range) (w : World) (taken : EStateM.Result Fault World α) : EStateM.Result Fault World α :=
  if r.stride ≤ 0 then .error (.ofCause r.noStride) w else taken

theorem slice_bind {β : Type} (hn : n ≤ 9223372036854775807) (f : List Nat → Effect β) :
    (Effect.ofExcept (r.slice n) >>= f) w = r.sliced w (f ((List.range n).filter fun p => r.Takes n p) w) := by
  rw [slice_eq hn, sliced]
  split <;> rfl

/-- Slicing gives the items at the positions that the slice takes, in order: a list in a fresh one, so that all lists
there are stay as they are, a tuple or a text as it is. It fails just if the step does not go up, whatever the bounds,
none of which leads out of the words or out of the sequence. -/
theorem slicing_cuts (r : Range) (w : World) :
    (∀ a, (w.list a).size ≤ 9223372036854775807 → Value.index (.list a) (.range r) w = r.sliced w
      (.ok (.list w.lists.size) { w with lists := w.lists.push (r.cut (w.list a).toList).toArray })) ∧
    (∀ vs : List Value, vs.length ≤ 9223372036854775807 →
      Value.index (.tuple vs) (.range r) w = r.sliced w (.ok (.tuple (r.cut vs)) w)) ∧
    (∀ s : String, s.toList.length ≤ 9223372036854775807 →
      Value.index (.string s) (.range r) w = r.sliced w (.ok (.string (String.ofList (r.cut s.toList))) w)) ∧
    ∀ n ≤ 9223372036854775807, (∀ bound, Word.Fits (placeOf n bound)) ∧
      ∀ places, r.slice n = .ok places → ∀ p ∈ places, p < n := by
  have hpick {α : Type} (items : List α) := pick_takes r items
  refine ⟨fun a ha => ?_, fun vs hvs => ?_, fun s hs => ?_,
    fun n hn => ⟨fun bound => ?_, fun places hplaces p hp => ?_⟩⟩
  · refine (slice_bind ha _).trans ?_
    rw [← Array.length_toList, ← hpick]
    rfl
  · refine (slice_bind hvs _).trans ?_
    rw [← hpick]
    rfl
  · refine (slice_bind hs _).trans ?_
    rw [← hpick]
    rfl
  · have hbound := Word.fits_toInt bound
    unfold placeOf Word.Fits at *
    omega
  · rw [slice_eq hn] at hplaces
    split at hplaces
    · cases hplaces
    · cases hplaces
      exact List.mem_range.1 (List.mem_of_mem_filter hp)

/-- From the second to the last but one of four items, and every other of five letters from the last but three on. -/
theorem slicing_cuts_from_end :
    Value.index (.list 0) (.range ⟨some 1, some (-2), none, true⟩)
        { lists := #[#[.integer 0, .integer 1, .integer 2, .integer 3]] } =
      .ok (.list 1) { lists := #[#[.integer 0, .integer 1, .integer 2, .integer 3], #[.integer 1, .integer 2]] } ∧
    Value.index (.string "hello") (.range ⟨some (-4), none, some 2, false⟩) {} = .ok (.string "el") {} :=
  ⟨(slicing_cuts ⟨some 1, some (-2), none, true⟩ _).1 0 (by decide),
    (slicing_cuts ⟨some (-4), none, some 2, false⟩ {}).2.2.1 "hello" (by decide)⟩

end Range

end ShellVM
