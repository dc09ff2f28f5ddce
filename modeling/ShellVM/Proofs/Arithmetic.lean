import Mathlib.Tactic.Linarith
import ShellVM.Value.Arithmetic

/-!
# Integer arithmetic is exact or refused

An operator on integers gives the exact result or is refused, and it is refused only if the exact result is no word
(`Value.integer_arithmetic_exact_or_refused`). Two operators do not get there by computing the result first. A power is
computed by repeated squaring, where no product on the way is larger than the result (`Word.powFrom?_eq`). A remainder
is refused if the quotient is no word, which happens at one place, where the remainder is `0` (`Word.fits_tdiv_iff`,
`Value.remainder_of_least_refused`).
-/

namespace ShellVM

namespace Word

variable {a b acc base : Int64} {n : Nat} {x y z : Int}

theorem ofInt?_toInt (a : Int64) : ofInt? a.toInt = some a := ofInt?_eq_some_iff.2 rfl

theorem ofInt_eq_iff (h : Fits x) : Int64.ofInt x = a ↔ x = a.toInt := by
  constructor
  · rintro rfl
    exact (toInt_ofInt h).symm
  · rintro rfl
    exact Int64.ofInt_toInt a

/-- What becomes of a checked result. -/
theorem match_ofInt? {α : Type} (n : Int) (f : Int64 → α) (refused : α) : (match ofInt? n with
      | some r => f r
      | none => refused) = if Fits n then f (Int64.ofInt n) else refused := by
  unfold ofInt?
  by_cases h : Fits n
  · rw [if_pos h, if_pos h]
  · rw [if_neg h, if_neg h]

theorem toInt_eq_zero_iff : a.toInt = 0 ↔ a = 0 := by
  rw [← Int64.toInt_zero, Int64.toInt_inj]

/-! ## Powers -/

/-- What is no word stays none if it is multiplied. -/
theorem not_fits_mul (h : ¬Fits x) (hy : 1 ≤ y) : ¬Fits (x * y) := by
  intro hfits
  rcases Int.le_total 0 x with hx | hx
  · have : x ≤ x * y := le_mul_of_one_le_right hx hy
    exact h ⟨by omega, by omega⟩
  · have : x * y ≤ x * 1 := mul_le_mul_of_nonpos_left hy hx
    exact h ⟨by omega, by omega⟩

/-- The least word without its sign is no square. -/
theorem square_ne (x : Int) : x * x ≠ 9223372036854775808 := by
  intro heq
  rcases lt_or_ge 3037000499 x with hx | hx
  · nlinarith
  rcases lt_or_ge x (-3037000499) with hx' | hx'
  · nlinarith
  · nlinarith

/-- A square that is no word stays none if it is multiplied, also by negative factors. -/
theorem not_fits_mul_square (h : ¬Fits (x * x)) (hy : x * x ≤ y) (hz : z ≠ 0) : ¬Fits (z * y) := by
  have hsquare := square_ne x
  have hnonneg : 0 ≤ x * x := mul_self_nonneg x
  have hlarge : 9223372036854775808 < y := by
    by_contra hle
    exact h ⟨by omega, by omega⟩
  intro hfits
  rcases Int.lt_or_gt_of_ne hz with hneg | hpos
  · have : z * y ≤ -1 * y := mul_le_mul_of_nonneg_right (by omega) (by omega)
    omega
  · have : 1 * y ≤ z * y := mul_le_mul_of_nonneg_right (by omega) (by omega)
    omega

/-- A power by its last binary digit and the square of the base. -/
theorem pow_halved (x : Int) (n : Nat) : x ^ n = x ^ (n % 2) * (x * x) ^ (n / 2) := by
  rw [← pow_two, ← pow_mul, ← pow_add, Nat.mod_add_div]

/-- A digit of the exponent is worked off, if the product fits. -/
theorem digit_eq (acc base : Int64) (n : Nat) :
    (if n % 2 = 1 then mul? acc base else some acc) = ofInt? (acc.toInt * base.toInt ^ (n % 2)) := by
  rcases Nat.mod_two_eq_zero_or_one n with h | h
  · rw [h, if_neg Nat.zero_ne_one, pow_zero, mul_one, ofInt?_toInt]
  · rw [h, if_pos rfl, pow_one]
    rfl

/-- Repeated squaring computes the product, and it is not refused on the way if the result fits. The invariant is that
only a base of `0` brings the product down to `0`: a product of `0` would make a square that is no word harmless. -/
theorem powFrom?_eq (hacc : acc = 0 → base = 0) : powFrom? acc base n = ofInt? (acc.toInt * base.toInt ^ n) := by
  induction n using Nat.strongRecOn generalizing acc base with
  | ind n ih =>
    unfold powFrom?
    split
    · next h => rw [h, pow_zero, mul_one, ofInt?_toInt]
    split
    · next h =>
      rw [h, pow_one]
      rfl
    have hdigit : acc.toInt * base.toInt ^ (n % 2) = 0 → base = 0 := by
      intro hzero
      rcases mul_eq_zero.1 hzero with h | h
      · exact hacc (toInt_eq_zero_iff.1 h)
      · exact toInt_eq_zero_iff.1 (eq_zero_of_pow_eq_zero h)
    rw [digit_eq, pow_halved base.toInt n, ← mul_assoc]
    cases hproduct : ofInt? (acc.toInt * base.toInt ^ (n % 2)) with
    | none =>
      have hfits := ofInt?_eq_none_iff.1 hproduct
      have hbase : base.toInt ≠ 0 := by
        intro hzero
        refine hfits ?_
        rcases Nat.mod_two_eq_zero_or_one n with h | h
        · rw [h, pow_zero, mul_one]
          exact fits_toInt acc
        · rw [h, pow_one, hzero, mul_zero]
          decide
      have hpow : 0 < (base.toInt * base.toInt) ^ (n / 2) := pow_pos (mul_self_pos.2 hbase) _
      exact (ofInt?_eq_none_iff.2 (not_fits_mul hfits hpow)).symm
    | some product =>
      rw [ofInt?_eq_some_iff] at hproduct
      rw [← hproduct] at hdigit ⊢
      cases hsquare : mul? base base with
      | none =>
        have hfits : ¬Fits (base.toInt * base.toInt) := ofInt?_eq_none_iff.1 hsquare
        have hbase : base.toInt ≠ 0 := fun h => hfits (by rw [h]; decide)
        have hle : base.toInt * base.toInt ≤ (base.toInt * base.toInt) ^ (n / 2) :=
          le_self_pow₀ (mul_self_pos.2 hbase) (by omega)
        exact (ofInt?_eq_none_iff.2 (not_fits_mul_square hfits hle fun h =>
          hbase (toInt_eq_zero_iff.2 (hdigit h)))).symm
      | some square =>
        have hvalue : square.toInt = base.toInt * base.toInt := ofInt?_eq_some_iff.1 hsquare
        rw [← hvalue]
        refine ih (n / 2) (by omega) fun h => ?_
        have hbase := hdigit (toInt_eq_zero_iff.2 h)
        rw [← toInt_eq_zero_iff, hvalue, hbase]
        rfl

/-- A power is computed unless it is no word itself. -/
theorem pow?_eq (a : Int64) (n : Nat) : pow? a n = ofInt? (a.toInt ^ n) := by
  unfold pow?
  rw [powFrom?_eq fun h => absurd h (by decide), Int64.toInt_one, one_mul]

/-! ## Remainders -/

/-- A quotient is a word unless the sign of the least word is changed. -/
theorem fits_tdiv_iff (hb : b ≠ 0) : Fits (a.toInt.tdiv b.toInt) ↔ ¬(a = Int64.minValue ∧ b = -1) := by
  have ha := fits_toInt a
  have hmin : a = Int64.minValue ↔ a.toInt = -9223372036854775808 := Int64.toInt_inj.symm
  have hminus : b = -1 ↔ b.toInt = -1 := Int64.toInt_inj.symm
  have hzero : b.toInt ≠ 0 := mt toInt_eq_zero_iff.1 hb
  rw [hmin, hminus]
  rcases (by omega : b.toInt = -1 ∨ b.toInt = 1 ∨ 2 ≤ b.toInt.natAbs) with h | h | h
  · rw [h, Int.tdiv_neg, Int.tdiv_one]
    omega
  · rw [h, Int.tdiv_one]
    exact iff_of_true ha fun hleast => absurd hleast.2 (by decide)
  · have hquotient : (a.toInt.tdiv b.toInt).natAbs = a.toInt.natAbs / b.toInt.natAbs := Int.natAbs_tdiv ..
    have hhalf : a.toInt.natAbs / b.toInt.natAbs ≤ a.toInt.natAbs / 2 := Nat.div_le_div_left h (by decide)
    omega

/-- The only remainder that is refused is that of the least word by `-1`. -/
theorem rem?_eq (hb : b ≠ 0) :
    rem? a b = if a = Int64.minValue ∧ b = -1 then none else ofInt? (a.toInt.tmod b.toInt) := by
  unfold rem?
  by_cases h : a = Int64.minValue ∧ b = -1
  · rw [if_pos h, if_neg fun hfits => (fits_tdiv_iff hb).1 hfits h]
  · rw [if_neg h, if_pos ((fits_tdiv_iff hb).2 h)]

end Word

/-! ## Operators -/

namespace BinaryOp

/-- The exact result of an operator on integers, if there is one: there is no remainder by `0`. -/
def exactResult? : BinaryOp → Int → Int → Option Int
  | .add, a, b => some (a + b)
  | .subtract, a, b => some (a - b)
  | .multiply, a, b => some (a * b)
  | .modulo, a, b => if b = 0 then none else some (a.tmod b)
  | .power, a, b => some (a ^ b.toNat)
  | _, _, _ => none

/-- The operator stays within the integers. A power does if the exponent is a word of 32 bits without a sign. -/
def StaysInteger (op : BinaryOp) (b : Int64) : Prop :=
  op = .add ∨ op = .subtract ∨ op = .multiply ∨ op = .modulo ∨ op = .power ∧ 0 ≤ b.toInt ∧ b.toInt < 4294967296

/-- The operator divides the least word by `-1`, and the quotient is no word. -/
def DividesLeast (op : BinaryOp) (a b : Int64) : Prop := op = .modulo ∧ a = Int64.minValue ∧ b = -1

instance (op : BinaryOp) (a b : Int64) : Decidable (op.DividesLeast a b) := inferInstanceAs (Decidable (_ ∧ _))

variable {op : BinaryOp} {a b : Int64}

/-- An operator that stays within the integers has an exact result unless it is the remainder by `0`. -/
theorem exactResult?_eq_none_iff (h : op.StaysInteger b) : op.exactResult? a.toInt b.toInt = none ↔
    op = .modulo ∧ b = 0 := by
  rcases h with rfl | rfl | rfl | rfl | ⟨rfl, -⟩
  case inr.inr.inr.inl => simp [exactResult?, Word.toInt_eq_zero_iff]
  all_goals simp [exactResult?]

end BinaryOp

namespace Value

variable {op : BinaryOp} {a b : Int64}

theorem integerArithmetic_eq (h : op.StaysInteger b) :
    integerArithmetic op a b = (match op.exactResult? a.toInt b.toInt with
    | none => .error .divisionByZero
    | some n => if op.DividesLeast a b then .error (.integerOverflow op.symbol)
      else if Word.Fits n then .ok (integer (Int64.ofInt n)) else .error (.integerOverflow op.symbol)) := by
  rcases h with rfl | rfl | rfl | rfl | ⟨rfl, hnonneg, hlt⟩
  case inr.inr.inr.inl =>
    unfold integerArithmetic BinaryOp.exactResult? BinaryOp.DividesLeast
    simp only [beq_iff_eq, true_and, Word.toInt_eq_zero_iff]
    by_cases hb : b = 0
    · rw [if_pos hb, if_pos hb]
    · rw [if_neg hb, if_neg hb, Word.rem?_eq hb]
      dsimp only
      by_cases hleast : a = Int64.minValue ∧ b = -1
      · rw [if_pos hleast, if_pos hleast]
      · rw [if_neg hleast, if_neg hleast]
        exact Word.match_ofInt? _ (fun r => Except.ok (integer r)) _
  case inr.inr.inr.inr =>
    have hexponent : (decide (0 ≤ b) && decide (b ≤ 4294967295)) = true := by
      simp only [Bool.and_eq_true, decide_eq_true_eq, Int64.le_iff_toInt_le]
      exact ⟨hnonneg, Int.le_of_lt_add_one hlt⟩
    unfold integerArithmetic BinaryOp.exactResult?
    dsimp only
    rw [if_pos hexponent, Word.pow?_eq, if_neg (by simp [BinaryOp.DividesLeast])]
    exact Word.match_ofInt? _ (fun r => Except.ok (integer r)) _
  all_goals
    unfold BinaryOp.exactResult?
    dsimp only
    rw [if_neg (by simp [BinaryOp.DividesLeast])]
    exact Word.match_ofInt? _ (fun r => Except.ok (integer r)) _

theorem binary_eq (h : op.StaysInteger b) (w : World) : binary op (integer a) (integer b) w =
    (match integerArithmetic op a b with
      | .ok v => .ok v w
      | .error cause => .error (.ofCause cause) w) := by
  have hrun : binary op (integer a) (integer b) w = Effect.ofExcept (integerArithmetic op a b) w := by
    rcases h with rfl | rfl | rfl | rfl | ⟨rfl, -⟩ <;> rfl
  rw [hrun]
  cases integerArithmetic op a b <;> rfl

theorem unary_eq (a : Int64) (w : World) : unary .negate (integer a) w =
    if Word.Fits (-a.toInt) then .ok (integer (Int64.ofInt (-a.toInt))) w
    else .error (.ofCause (.integerOverflow "-")) w := by
  have hrun : unary .negate (integer a) w = (match Word.neg? a with
      | some r => .ok (integer r) w
      | none => .error (.ofCause (.integerOverflow "-")) w) := by
    show (match Word.neg? a with
      | some r => return integer r
      | none => Effect.fail (.integerOverflow "-") : Effect Value) w = _
    cases Word.neg? a <;> rfl
  rw [hrun]
  exact Word.match_ofInt? _ (fun r => EStateM.Result.ok (integer r) w) _

/-- An operator that stays within the integers gives the exact result if there is one and it is a word; it is refused
with an overflow if the exact result is no word, and with a division by zero if there is none. The one exception is
the remainder of the least word by `-1`, which is refused although it is `0`, because the quotient is no word. A
negation gives the exact result or is refused with an overflow. -/
theorem integer_arithmetic_exact_or_refused :
    (∀ (op : BinaryOp) (a b : Int64) (w : World), op.StaysInteger b →
      (∀ r, binary op (integer a) (integer b) w = .ok (integer r) w ↔
        op.exactResult? a.toInt b.toInt = some r.toInt ∧ ¬op.DividesLeast a b) ∧
      (binary op (integer a) (integer b) w = .error (.ofCause (.integerOverflow op.symbol)) w ↔
        ∃ n, op.exactResult? a.toInt b.toInt = some n ∧ (¬Word.Fits n ∨ op.DividesLeast a b)) ∧
      (binary op (integer a) (integer b) w = .error (.ofCause .divisionByZero) w ↔ op = .modulo ∧ b = 0)) ∧
    ∀ (a : Int64) (w : World),
      (∀ r, unary .negate (integer a) w = .ok (integer r) w ↔ r.toInt = -a.toInt) ∧
      (unary .negate (integer a) w = .error (.ofCause (.integerOverflow "-")) w ↔ ¬Word.Fits (-a.toInt)) := by
  refine ⟨fun op a b w h => ?_, fun a w => ?_⟩
  · rw [binary_eq h, integerArithmetic_eq h, ← BinaryOp.exactResult?_eq_none_iff (a := a) h]
    cases op.exactResult? a.toInt b.toInt with
    | none => simp [Fault.ofCause]
    | some n =>
      dsimp only
      by_cases hleast : op.DividesLeast a b
      · rw [if_pos hleast]
        simp [hleast, Fault.ofCause]
      rw [if_neg hleast]
      by_cases hfits : Word.Fits n
      · rw [if_pos hfits]
        simp [hleast, Word.ofInt_eq_iff hfits, -not_and, not_not_intro hfits]
      · have hword (r : Int64) : n ≠ r.toInt := fun h => hfits (h ▸ Word.fits_toInt r)
        rw [if_neg hfits]
        simp [hword, Fault.ofCause, -not_and, hfits]
  · rw [unary_eq]
    by_cases hfits : Word.Fits (-a.toInt)
    · rw [if_pos hfits]
      refine ⟨fun r => ?_, by simp [-not_and, not_not_intro hfits]⟩
      rw [EStateM.Result.ok.injEq, Value.integer.injEq, Word.ofInt_eq_iff hfits]
      simp [eq_comm]
    · have hword (r : Int64) : r.toInt ≠ -a.toInt := fun h => hfits (h ▸ Word.fits_toInt r)
      rw [if_neg hfits]
      simp [hword, -not_and, hfits]

/-- The least word is a power of `-2`. The next power has an exponent with one binary digit more, and is none. -/
theorem integer_arithmetic_exact_or_refused_powers :
    BinaryOp.StaysInteger .power 63 ∧ BinaryOp.StaysInteger .power 64 ∧
      binary .power (integer (-2)) (integer 63) {} = .ok (integer Int64.minValue) {} ∧
      binary .power (integer (-2)) (integer 64) {} = .error (.ofCause (.integerOverflow "^")) {} := by
  have h₁ : BinaryOp.StaysInteger .power 63 := by unfold BinaryOp.StaysInteger; decide
  have h₂ : BinaryOp.StaysInteger .power 64 := by unfold BinaryOp.StaysInteger; decide
  refine ⟨h₁, h₂, ?_, ?_⟩
  · exact ((integer_arithmetic_exact_or_refused.1 .power (-2) 63 {} h₁).1 Int64.minValue).2 ⟨by decide, by decide⟩
  · exact (integer_arithmetic_exact_or_refused.1 .power (-2) 64 {} h₂).2.1.2
      ⟨18446744073709551616, by decide, .inl (by decide)⟩

/-- The remainder of the least word by `-1` is `0`, which is a word, and is refused all the same. -/
theorem remainder_of_least_refused :
    BinaryOp.exactResult? .modulo Int64.minValue.toInt (-1 : Int64).toInt = some 0 ∧ Word.Fits 0 ∧
      binary .modulo (integer Int64.minValue) (integer (-1)) {} = .error (.ofCause (.integerOverflow "%")) {} := by
  refine ⟨by decide, by decide, ?_⟩
  rw [binary_eq (.inr (.inr (.inr (.inl rfl))))]
  rfl

end Value

end ShellVM
