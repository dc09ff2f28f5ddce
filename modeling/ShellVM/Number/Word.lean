/-!
# 64-bit integers, exact or refused

An operation gives the exact integer or nothing. What does not fit into 64 bits is refused (`ofInt?_eq_some_iff`), be
it the result or something that is computed on the way to it.
-/

namespace ShellVM.Word

/-- Does the integer fit into 64 bits with a sign? -/
abbrev Fits (n : Int) : Prop := -9223372036854775808 ≤ n ∧ n ≤ 9223372036854775807

/-- The word of an integer that fits. -/
def ofInt? (n : Int) : Option Int64 := if Fits n then some (Int64.ofInt n) else none

def add? (a b : Int64) : Option Int64 := ofInt? (a.toInt + b.toInt)

def sub? (a b : Int64) : Option Int64 := ofInt? (a.toInt - b.toInt)

def mul? (a b : Int64) : Option Int64 := ofInt? (a.toInt * b.toInt)

def neg? (a : Int64) : Option Int64 := ofInt? (-a.toInt)

/-- The remainder that has the sign of the dividend. The quotient has to fit too, so the least
word has no remainder by `-1`. -/
def rem? (a b : Int64) : Option Int64 :=
  if Fits (a.toInt.tdiv b.toInt) then ofInt? (a.toInt.tmod b.toInt) else none

/-- The product of `acc` and `base ^ n`: the base is squared for each binary digit of the exponent, and every product on
the way has to fit. The last digit needs no square behind it. -/
def powFrom? (acc base : Int64) (n : Nat) : Option Int64 :=
  if n = 0 then some acc
  else if n = 1 then mul? acc base
  else
    match if n % 2 = 1 then mul? acc base else some acc, mul? base base with
    | some acc, some square => powFrom? acc square (n / 2)
    | _, _ => none

/-- The power `a ^ n`. -/
def pow? (a : Int64) (n : Nat) : Option Int64 := powFrom? 1 a n

theorem toInt_ofInt {n : Int} (h : Fits n) : (Int64.ofInt n).toInt = n :=
  Int64.toInt_ofInt_of_le (by simpa using h.1) (by have := h.2; simp; omega)

theorem fits_toInt (a : Int64) : Fits a.toInt := by
  have h₁ := Int64.le_toInt a
  have h₂ := Int64.toInt_lt a
  exact ⟨by simpa using h₁, by simp at h₂; omega⟩

theorem ofInt?_eq_some_iff {n : Int} {w : Int64} : ofInt? n = some w ↔ w.toInt = n := by
  unfold ofInt?
  constructor
  · intro h
    split at h
    · next hf => cases h; exact toInt_ofInt hf
    · cases h
  · rintro rfl
    rw [if_pos (fits_toInt w), Int64.ofInt_toInt]

theorem ofInt?_eq_none_iff {n : Int} : ofInt? n = none ↔ ¬ Fits n := by
  simp [ofInt?]

/-- The decimal text. -/
def render (a : Int64) : String :=
  if a.toInt < 0 then "-" ++ a.toInt.natAbs.repr else a.toInt.natAbs.repr

end ShellVM.Word
