import ShellVM.Number.Reader
import ShellVM.Text.Blank

/-!
# Decimal texts read back

The decimal text of a word has a sign at most and digits, no blanks, and few enough digits that count to be read. So
reading gives the word back, the least one included (`Number.readInteger?_render`).
-/

namespace ShellVM

namespace Number

variable {c : Char} {cs ds : List Char}

theorem digitsValue_eq_ofDigitChars (ds : List Char) : digitsValue ds = Nat.ofDigitChars 10 ds 0 := rfl

/-- Zeros in front do not count. -/
theorem digitsValue_significant (ds : List Char) : digitsValue (significant ds) = digitsValue ds := by
  induction ds with
  | nil => rfl
  | cons c ds ih =>
    unfold significant at ih ⊢
    rw [List.dropWhile_cons]
    split
    · next hc =>
      rw [ih, eq_of_beq hc]
      rfl
    · rfl

theorem splitSign_of_isDigit (h : c.isDigit = true) : splitSign (c :: cs) = (false, c :: cs) := by
  unfold splitSign
  split
  · next heq =>
    cases heq
    cases h
  · next heq =>
    cases heq
    cases h
  · rfl

theorem splitSign_toDigits (n : Nat) : splitSign (Nat.toDigits 10 n) = (false, Nat.toDigits 10 n) := by
  have hdigit {c : Char} (hc : c ∈ Nat.toDigits 10 n) :
      c.isDigit = true := Nat.isDigit_of_mem_toDigits (by decide) (by decide) hc
  cases hcs : Nat.toDigits 10 n with
  | nil => rfl
  | cons c cs => exact splitSign_of_isDigit (hdigit (hcs ▸ List.mem_cons_self))

/-- The digits of a number that is no larger than words are read, with either sign. -/
theorem readInteger?_of_splitSign {s : String} {negative : Bool} {n : Nat}
    (hs : splitSign s.toList = (negative, Nat.toDigits 10 n)) (hn : n ≤ 9223372036854775808) :
    readInteger? s = Word.ofInt? (if negative then -n else n) := by
  have hempty : (Nat.toDigits 10 n).isEmpty = false := List.isEmpty_eq_false_iff.2 Nat.toDigits_ne_nil
  have hdigits : (Nat.toDigits 10 n).all Char.isDigit = true :=
    List.all_eq_true.2 fun c hc => Nat.isDigit_of_mem_toDigits (by decide) (by decide) hc
  have hlength : (significant (Nat.toDigits 10 n)).length ≤ 19 := calc
    _ ≤ (Nat.toDigits 10 n).length := (List.dropWhile_sublist _).length_le
    _ ≤ 19 := (Nat.length_toDigits_le_iff (by decide) (by decide)).2 (by omega)
  unfold readInteger?
  rw [hs]
  dsimp only
  rw [hempty, hdigits, if_neg (by simpa using hlength), digitsValue_significant, digitsValue_eq_ofDigitChars,
    Nat.ofDigitChars_ten_toDigits]

/-- **A word is read back from its decimal text.** -/
theorem readInteger?_render (n : Int64) : readInteger? (Word.render n) = some n := by
  obtain ⟨hlow, hhigh⟩ := Word.fits_toInt n
  unfold Word.render
  split
  · next hneg =>
    have hs : splitSign ("-" ++ n.toInt.natAbs.repr).toList = (true, Nat.toDigits 10 n.toInt.natAbs) := by
      rw [String.toList_append, Nat.toList_repr]
      rfl
    rw [readInteger?_of_splitSign hs (by omega), if_pos rfl, Word.ofInt?_eq_some_iff]
    omega
  · next hpos =>
    have hs : splitSign n.toInt.natAbs.repr.toList = (false, Nat.toDigits 10 n.toInt.natAbs) := by
      rw [Nat.toList_repr, splitSign_toDigits]
    rw [readInteger?_of_splitSign hs (by omega), if_neg Bool.false_ne_true, Word.ofInt?_eq_some_iff]
    omega

end Number

namespace Text

theorem isBlank_of_isDigit {c : Char} (h : c.isDigit = true) : isBlank c = false := by
  have hdigit : 48 ≤ c.toNat ∧ c.toNat ≤ 57 := by
    simpa [Char.isDigit, UInt32.le_iff_toNat_le] using h
  simp only [isBlank, Bool.or_eq_false_iff, Bool.and_eq_false_iff, decide_eq_false_iff_not, beq_eq_false_iff_ne]
  omega

/-- A text without blanks is not cut. -/
theorem trim_eq_self {s : String} (h : ∀ c ∈ s.toList, isBlank c = false) : trim s = s := by
  have hdrop {cs : List Char} (hcs : ∀ c ∈ cs, isBlank c = false) : cs.dropWhile isBlank = cs := by
    cases cs with
    | nil => rfl
    | cons c cs => rw [List.dropWhile_cons, if_neg (by simp [hcs c List.mem_cons_self])]
  unfold trim trimChars
  rw [hdrop h, hdrop fun c hc => h c (List.mem_reverse.1 hc), List.reverse_reverse, String.ofList_toList]

theorem trim_render (n : Int64) : trim (Word.render n) = Word.render n := by
  refine trim_eq_self fun c hc => ?_
  have hdigits (hc : c ∈ n.toInt.natAbs.repr.toList) : isBlank c = false := by
    rw [Nat.toList_repr] at hc
    exact isBlank_of_isDigit (Nat.isDigit_of_mem_toDigits (by decide) (by decide) hc)
  unfold Word.render at hc
  split at hc
  · rw [String.toList_append] at hc
    rcases List.mem_append.1 hc with hc | hc
    · obtain rfl := List.mem_singleton.1 hc
      rfl
    · exact hdigits hc
  · exact hdigits hc

end Text

end ShellVM
