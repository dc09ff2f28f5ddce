import ShellVM.Bytecode.Wire
import Mathlib.Tactic.Ring

/-!
# The parts of stored programs

What is written is read back, whatever follows: groups of seven bits as far as the reader's word goes
(`readGroups_writeGroups`), folded integers (`unfold_fold`), the eight bytes of a float (`readBits_writeBits`), texts
and rows. A row is read back if its items are (`readMany_writeMany`).
-/

namespace ShellVM.Wire

/-- Lengths are below this. -/
def wordSize : Nat := 18446744073709551616

/-! ## Words -/

/-- A group with its high bit set is one of several. -/
theorem readGroups_high (last : UInt8) {n : Nat} (hn : n < 128) (groups scale acc : Nat) (rest : Bytes) :
    readGroups last (groups + 1) scale acc ((n + 128).toUInt8 :: rest) =
      readGroups last groups (scale * 128) (acc + n * scale) rest := by
  have hbyte : (n + 128).toUInt8.toNat = n + 128 := by simp; omega
  have hhigh : ¬ (n + 128).toUInt8 < 128 := by
    rw [UInt8.lt_iff_toNat_lt, hbyte]
    simp
  conv_lhs => unfold readGroups
  simp only [if_neg hhigh, hbyte]
  rw [show (n + 128) % 128 = n by omega]

/-- **Groups are read back.** `last` bounds the group at which the reader's word ends. -/
theorem readGroups_writeGroups (last : UInt8) (hlast : last < 127) {groups fuel n : Nat} (hfuel : groups ≤ fuel)
    (hn : n < 128 ^ groups * (last.toNat + 1)) (scale acc : Nat) (rest : Bytes) :
    readGroups last (groups + 1) scale acc (writeGroups (fuel + 1) n ++ rest) = .ok (acc + n * scale, rest) := by
  have hbound : last.toNat < 127 := UInt8.lt_iff_toNat_lt.1 hlast
  induction groups generalizing fuel n scale acc with
  | zero =>
    have hsmall : n < 128 := by omega
    have hbyte : n.toUInt8.toNat = n := by simp; omega
    have hlow : n.toUInt8 < 128 := UInt8.lt_iff_toNat_lt.2 (by rw [hbyte]; exact hsmall)
    have hfit : ¬ last < n.toUInt8 := by
      rw [UInt8.lt_iff_toNat_lt, hbyte]
      omega
    simp [writeGroups, readGroups, hsmall, hlow, hfit, hbyte, Nat.mod_eq_of_lt hsmall]
  | succ groups ih =>
    by_cases hsmall : n < 128
    · have hbyte : n.toUInt8.toNat = n := by simp; omega
      have hlow : n.toUInt8 < 128 := UInt8.lt_iff_toNat_lt.2 (by rw [hbyte]; exact hsmall)
      simp [writeGroups, readGroups, hsmall, hlow, hbyte, Nat.mod_eq_of_lt hsmall]
    · obtain ⟨fuel, rfl⟩ : ∃ f, fuel = f + 1 := ⟨fuel - 1, by omega⟩
      have hrest : n / 128 < 128 ^ groups * (last.toNat + 1) := by
        apply Nat.div_lt_of_lt_mul
        rwa [← Nat.mul_assoc, ← Nat.pow_succ']
      have hvalue : acc + n % 128 * scale + n / 128 * (scale * 128) = acc + n * scale := by
        conv_rhs => rw [← Nat.mod_add_div n 128]
        ring
      rw [writeGroups, if_neg hsmall, List.cons_append, readGroups_high last (Nat.mod_lt n (by decide)),
        ih (by omega) hrest, hvalue]

@[simp] theorem read64_writeNat {n : Nat} (h : n < wordSize) (rest : Bytes) :
    read64 (writeNat n ++ rest) = .ok (n, rest) := by
  have := readGroups_writeGroups 1 (by decide) (Nat.le_refl 9) (n := n) (by exact h) 1 0 rest
  rwa [Nat.zero_add, Nat.mul_one] at this

@[simp] theorem read32_writeNat (n : UInt32) (rest : Bytes) :
    read32 (writeNat n.toNat ++ rest) = .ok (n, rest) := by
  have := readGroups_writeGroups 15 (by decide) (show 4 ≤ 9 by omega) (n := n.toNat) n.toNat_lt 1 0 rest
  unfold read32 writeNat
  rw [this]
  simp [bind, Except.bind, pure, Except.pure]

@[simp] theorem read16_writeNat (n : UInt16) (rest : Bytes) :
    read16 (writeNat n.toNat ++ rest) = .ok (n, rest) := by
  have := readGroups_writeGroups 3 (by decide) (show 2 ≤ 9 by omega) (n := n.toNat) n.toNat_lt 1 0 rest
  unfold read16 writeNat
  rw [this]
  simp [bind, Except.bind, pure, Except.pure]

/-! ## Signed words -/

theorem fold_lt (n : Int64) : fold n < wordSize := by
  have hlow := n.le_toInt
  have hhigh := n.toInt_lt
  unfold fold wordSize
  split <;> omega

/-- **A folded word unfolds to itself**, up to both ends of the range. -/
@[simp] theorem unfold_fold (n : Int64) : unfold (fold n) = n := by
  unfold unfold fold
  by_cases hneg : n.toInt < 0
  · have hodd : ¬ ((-n.toInt).toNat * 2 - 1) % 2 = 0 := by omega
    have hback : -(Int.ofNat (((-n.toInt).toNat * 2 - 1) / 2)) - 1 = n.toInt := by
      show -(((((-n.toInt).toNat * 2 - 1) / 2 : Nat) : Int)) - 1 = n.toInt
      omega
    rw [if_pos hneg, if_neg hodd, hback, Int64.ofInt_toInt]
  · have hback : ((n.toInt.toNat * 2 / 2 : Nat) : Int) = n.toInt := by omega
    rw [if_neg hneg, if_pos (Nat.mul_mod_left _ _), ← Int64.ofInt_eq_ofNat, hback, Int64.ofInt_toInt]

/-! ## Floats -/

theorem readBytes_append (bytes rest : Bytes) : readBytes bytes.length (bytes ++ rest) = .ok (bytes, rest) := by
  unfold readBytes
  simp

/-- A word is its low byte and the rest of it. -/
theorem shift_or_low (bits : UInt64) : bits >>> 8 <<< 8 ||| bits.toUInt8.toUInt64 = bits := by
  have hhigh : bits.toNat >>> 8 <<< 8 % 2 ^ 64 = bits.toNat >>> 8 <<< 8 := by
    have := bits.toNat_lt
    rw [Nat.shiftRight_eq_div_pow, Nat.shiftLeft_eq]
    omega
  apply UInt64.toNat_inj.1
  calc (bits >>> 8 <<< 8 ||| bits.toUInt8.toUInt64).toNat
      = bits.toNat >>> 8 <<< 8 % 2 ^ 64 ||| bits.toNat % 2 ^ 8 := by simp
    _ = bits.toNat >>> 8 <<< 8 + bits.toNat % 2 ^ 8 := by
        rw [hhigh, Nat.shiftLeft_add_eq_or_of_lt (Nat.mod_lt _ (by decide))]
    _ = bits.toNat := by
        rw [Nat.shiftRight_eq_div_pow, Nat.shiftLeft_eq]
        omega

theorem shift_shift (bits : UInt64) {k : Nat} (hk : k < 7) :
    bits >>> (8 * k).toUInt64 >>> 8 = bits >>> (8 * (k + 1)).toUInt64 := by
  have hnext : (8 * (k + 1)).toUInt64.toNat % 64 = 8 * k + 8 := by simp; omega
  have hthis : (8 * k).toUInt64.toNat % 64 = 8 * k := by simp; omega
  apply UInt64.toNat_inj.1
  rw [UInt64.toNat_shiftRight, UInt64.toNat_shiftRight, UInt64.toNat_shiftRight, hnext, hthis, Nat.shiftRight_add]
  rfl

/-- Low bytes put under what stands above them. The eighth byte is not among them: a shift by its place would turn
round. -/
theorem foldr_low (bits : UInt64) {k : Nat} (hk : k ≤ 7) :
    ((List.range k).map fun i => (bits >>> (8 * i).toUInt64).toUInt8).foldr
      (fun (b : UInt8) (bits : UInt64) => bits <<< 8 ||| b.toUInt64) (bits >>> (8 * k).toUInt64) = bits := by
  induction k with
  | zero => exact UInt64.shiftRight_zero
  | succ k ih =>
    rw [List.range_succ, List.map_append, List.foldr_append, List.map_singleton, List.foldr_cons, List.foldr_nil,
      ← shift_shift bits hk, shift_or_low, ih (by omega)]

@[simp] theorem readBits_writeBits (bits : UInt64) (rest : Bytes) :
    readBits (writeBits bits ++ rest) = .ok (bits, rest) := by
  have htop : (0 : UInt64) <<< 8 ||| (bits >>> (8 * 7).toUInt64).toUInt8.toUInt64 = bits >>> (8 * 7).toUInt64 := by
    have hnone : bits >>> (8 * 7).toUInt64 >>> 8 = 0 := by
      apply UInt64.toNat_inj.1
      have := bits.toNat_lt
      rw [UInt64.toNat_shiftRight, UInt64.toNat_shiftRight, Nat.shiftRight_eq_div_pow, Nat.shiftRight_eq_div_pow]
      show bits.toNat / 2 ^ 56 / 2 ^ 8 = 0
      omega
    have hback := shift_or_low (bits >>> (8 * 7).toUInt64)
    rwa [hnone] at hback
  have hfold : (writeBits bits).foldr (fun (b : UInt8) (bits : UInt64) => bits <<< 8 ||| b.toUInt64) 0 = bits := by
    unfold writeBits
    rw [List.range_succ, List.map_append, List.foldr_append, List.map_singleton, List.foldr_cons, List.foldr_nil, htop]
    exact foldr_low bits (Nat.le_refl 7)
  have hlength : (writeBits bits).length = 8 := rfl
  unfold readBits
  rw [← hlength]
  simp only [readBytes_append, bind, Except.bind, hfold]
  rfl

/-! ## Texts -/

theorem byteArray_toList (b : ByteArray) : b.toList = b.data.toList := by
  have hloop : ∀ i r, ByteArray.toList.loop b i r = r.reverse ++ b.data.toList.drop i := by
    intro i r
    fun_induction ByteArray.toList.loop b i r with
    | case1 i r hi ih =>
      have hget : b.data.toList.drop i = b.get! i :: b.data.toList.drop (i + 1) := by
        have hi' : i < b.data.toList.length := hi
        rw [List.drop_eq_getElem_cons hi']
        congr 1
        show _ = b.data[i]!
        rw [getElem!_pos b.data i hi, Array.getElem_toList]
      rw [ih, hget, List.reverse_cons, List.append_assoc]
      rfl
    | case2 i r hi =>
      have hi' : b.data.toList.length ≤ i := Nat.le_of_not_lt hi
      rw [List.drop_of_length_le hi', List.append_nil]
  exact hloop 0 []

@[simp] theorem readText_writeText {s : String} (h : s.utf8ByteSize < wordSize) (rest : Bytes) :
    readText (writeText s ++ rest) = .ok (s, rest) := by
  have hlength : s.toUTF8.toList.length = s.utf8ByteSize := by
    rw [byteArray_toList]
    rfl
  have hback : String.fromUTF8? ⟨s.toUTF8.toList.toArray⟩ = some s := by
    rw [byteArray_toList, Array.toArray_toList]
    exact dif_pos s.isValidUTF8
  unfold readText writeText
  simp only [List.append_assoc, read64_writeNat (hlength ▸ h), readBytes_append, bind, Except.bind, hback]
  rfl

/-! ## Rows -/

section Many

variable {α β : Type} {write : α → Bytes} {read : Reader β} {f : α → β}

theorem readTimes_flatMap {items : List α} (h : ∀ a ∈ items, ∀ rest, read (write a ++ rest) = .ok (f a, rest))
    (found : Array β) (rest : Bytes) :
    readTimes read items.length found (items.flatMap write ++ rest) = .ok (found ++ (items.map f).toArray, rest) := by
  induction items generalizing found with
  | nil => simp [readTimes]
  | cons a items ih =>
    rw [List.flatMap_cons, List.append_assoc, List.length_cons]
    simp only [readTimes, h a List.mem_cons_self]
    rw [ih fun b hb => h b (List.mem_cons_of_mem a hb)]
    simp

/-- **A row is read back if its items are.** -/
theorem readMany_writeMany {items : List α} (hlength : items.length < wordSize)
    (h : ∀ a ∈ items, ∀ rest, read (write a ++ rest) = .ok (f a, rest)) (rest : Bytes) :
    readMany read (writeMany write items ++ rest) = .ok ((items.map f).toArray, rest) := by
  unfold readMany writeMany
  simp only [List.append_assoc, read64_writeNat hlength, bind, Except.bind, readTimes_flatMap h]
  simp

end Many

end ShellVM.Wire
