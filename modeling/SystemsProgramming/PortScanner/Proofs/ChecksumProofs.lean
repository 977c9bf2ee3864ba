import SystemsProgramming.Foundations.OnesComplement
import SystemsProgramming.PortScanner.Scanner

/-!
# Proofs: the checksum

The words are summed up as the machine reads them, and the sum with its carries is the one's complement
sum of them. The second carry is added without cutting the sum off: what is left above 16 bits goes when
the result is returned.
-/

namespace SystemsProgramming.PortScanner

open Foundations OnesComplement

variable {data : List UInt8}

theorem sumWords_toNat (data : List UInt8) (sum : UInt32) :
    (sumWords data sum).toNat = (sum.toNat + (leWords data).sum) % 2 ^ 32 := by
  induction data, sum using sumWords.induct with
  | case1 b c data sum ih =>
    have hword : ofLe [b, c] = b.toNat + 256 * c.toNat := by simp
    rw [sumWords, ih, leWords, List.sum_cons, UInt32.toNat_add, hword, UInt32.toNat_ofNat']
    omega
  | case2 sum b =>
    rw [sumWords, leWords, List.sum_singleton, UInt32.toNat_add, UInt8.toNat_toUInt32]
  | case3 sum =>
    rw [sumWords, leWords, List.sum_nil, Nat.add_zero, Nat.mod_eq_of_lt sum.toNat_lt]

theorem sum_leWords_lt (h : data.length ≤ 131074) : (leWords data).sum < 0x100000000 := by
  have hle := sum_leWords_le data
  omega

/-- Up to 131074 bytes the sum does not wrap. -/
theorem sumWords_eq (h : data.length ≤ 131074) : (sumWords data 0).toNat = (leWords data).sum := by
  have hlt : (leWords data).sum < 2 ^ 32 := sum_leWords_lt h
  rw [sumWords_toNat, UInt32.toNat_zero, Nat.zero_add, Nat.mod_eq_of_lt hlt]

/-- `sum` in `checksum`, when it has been folded twice. -/
def foldedSum (data : List UInt8) : UInt32 :=
  let sum := sumWords data 0
  let sum := (sum >>> 16) + (sum &&& 0xffff)
  sum + (sum >>> 16)

theorem foldedSum_toNat (data : List UInt8) : (foldedSum data).toNat =
    addCarry (sumWords data 0).toNat + addCarry (sumWords data 0).toNat / 65536 := by
  have hs : (sumWords data 0).toNat < 2 ^ 32 := UInt32.toNat_lt _
  have hand : (sumWords data 0).toNat &&& 65535 = (sumWords data 0).toNat % 65536 :=
    Nat.and_two_pow_sub_one_eq_mod _ 16
  have hcarry : ((sumWords data 0 >>> 16) + (sumWords data 0 &&& 0xffff)).toNat =
      addCarry (sumWords data 0).toNat := by
    rw [UInt32.toNat_add, UInt32.toNat_shiftRight, UInt32.toNat_and]
    show ((sumWords data 0).toNat >>> 16 + ((sumWords data 0).toNat &&& 65535)) % 2 ^ 32 = _
    rw [hand, Nat.shiftRight_eq_div_pow, addCarry]
    omega
  have hlt : addCarry (sumWords data 0).toNat ≤ 131070 := by
    rw [addCarry]
    omega
  rw [foldedSum, UInt32.toNat_add, UInt32.toNat_shiftRight, hcarry]
  show (_ + addCarry (sumWords data 0).toNat >>> 16) % 2 ^ 32 = _
  rw [Nat.shiftRight_eq_div_pow]
  omega

/-- The low 16 bits of the folded sum are the one's complement sum. -/
theorem foldedSum_mod (h : data.length ≤ 131074) :
    (foldedSum data).toNat % 65536 = sum 65535 (leWords data) := by
  rw [foldedSum_toNat, sumWords_eq h]
  exact fold_sum (leWords_le data) (sum_leWords_lt h)

theorem checksum_toNat (h : data.length ≤ 131074) :
    (checksum data).toNat = 65535 - sum 65535 (leWords data) := by
  have hlt : (foldedSum data).toNat < 2 ^ 32 := UInt32.toNat_lt _
  have hchecksum : checksum data = (~~~foldedSum data).toUInt16 := rfl
  rw [hchecksum, UInt32.toNat_toUInt16, UInt32.toNat_not, ← foldedSum_mod h]
  show (4294967296 - 1 - (foldedSum data).toNat) % 65536 = _
  omega

theorem htons_toNat (x : UInt16) : (htons x).toNat = swap x.toNat := by
  have hx := x.toNat_lt
  have hle : ofLe (toBe 2 x.toNat) = swap x.toNat := by
    simp only [toBe, toLe, List.reverse_cons, List.reverse_nil, List.nil_append, List.cons_append,
      ofLe_cons, ofLe_nil, UInt8.toNat_ofNat', swap]
    omega
  rw [htons, hle, UInt16.toNat_ofNat']
  unfold swap
  omega

/-- With its bytes exchanged it is the checksum of the words in the other order. -/
theorem htons_checksum (h : data.length ≤ 131074) :
    (htons (checksum data)).toNat = 65535 - sum 65535 (beWords data) := by
  have hle := (sum_spec (leWords_le data)).1
  rw [htons_toNat, checksum_toNat h, sum_beWords]
  unfold swap
  omega

/-- Data whose checksum field was zero when `checksum` summed it up adds up to all ones with the result
in the field. -/
theorem sum_with_checksum {before after : List UInt8} (heven : before.length % 2 = 0)
    (h : (before ++ toLe 2 0 ++ after).length ≤ 131074) :
    sum 65535 (leWords (before ++ toLe 2 (checksum (before ++ toLe 2 0 ++ after)).toNat ++ after)) =
      65535 := by
  have hfield (w : Nat) (hw : w < 65536) :
      (leWords (before ++ toLe 2 w ++ after)).sum =
        (leWords before).sum + w + (leWords after).sum := by
    have heven' : (before ++ toLe 2 w).length % 2 = 0 := by
      rw [List.length_append, toLe_length]
      omega
    rw [sum_leWords_append heven', sum_leWords_append heven, sum_leWords_toLe hw]
  obtain ⟨hle, hmod, hzero⟩ := sum_spec (leWords_le (before ++ toLe 2 0 ++ after))
  rw [hfield 0 (by decide), Nat.add_zero] at hmod hzero
  rw [sum_eq_iff (by decide) (leWords_le _), hfield _ (UInt16.toNat_lt _), checksum_toNat h]
  generalize sum 65535 (leWords (before ++ toLe 2 0 ++ after)) = s at hle hmod hzero ⊢
  refine ⟨by omega, Nat.modEq_zero_iff_dvd.1 ?_⟩
  calc (leWords before).sum + (65535 - s) + (leWords after).sum
      = (leWords before).sum + (leWords after).sum + (65535 - s) := Nat.add_right_comm ..
    _ ≡ s + (65535 - s) [MOD 65535] := hmod.symm.add_right _
    _ = 65535 := Nat.add_sub_cancel' hle
    _ ≡ 0 [MOD 65535] := Nat.modulus_modEq_zero

/-- And so do the words in the other byte order. -/
theorem sum_beWords_with_checksum {before after : List UInt8} (heven : before.length % 2 = 0)
    (h : (before ++ toLe 2 0 ++ after).length ≤ 131074) :
    sum 65535 (beWords (before ++ toLe 2 (checksum (before ++ toLe 2 0 ++ after)).toNat ++ after)) =
      65535 := by
  rw [sum_beWords, sum_with_checksum heven h]
  rfl

/-- The checksum is the internet checksum. Up to 131074 bytes the accumulator never wraps, the folds leave
the sum with its end-around carries in the low 16 bits, and the result is the complement of that; with
its bytes exchanged it is the checksum of the words in the other byte order; and stored where two zero
bytes were, at an even offset, it makes the sum all ones. -/
theorem checksum_complements_sum (h : data.length ≤ 131074) :
    (∀ k, (sumWords (data.take k) 0).toNat = (leWords (data.take k)).sum) ∧
    (foldedSum data).toNat % 65536 = sum 65535 (leWords data) ∧ (foldedSum data).toNat < 131072 ∧
    (checksum data).toNat = 65535 - sum 65535 (leWords data) ∧
    (htons (checksum data)).toNat = 65535 - sum 65535 (beWords data) ∧
    ∀ before after, before.length % 2 = 0 → data = before ++ toLe 2 0 ++ after →
      sum 65535 (leWords (before ++ toLe 2 (checksum data).toNat ++ after)) = 65535 ∧
      sum 65535 (beWords (before ++ toLe 2 (checksum data).toNat ++ after)) = 65535 := by
  refine ⟨fun k => sumWords_eq ?_, foldedSum_mod h, ?_, checksum_toNat h, htons_checksum h, ?_⟩
  · rw [List.length_take]
    omega
  · have hs : (sumWords data 0).toNat < 2 ^ 32 := UInt32.toNat_lt _
    rw [foldedSum_toNat, addCarry]
    omega
  · rintro before after heven rfl
    exact ⟨sum_with_checksum heven h, sum_beWords_with_checksum heven h⟩

/-- A checksum field between two words and an odd byte. -/
theorem checksum_in_field : sum 65535 (leWords ([1, 2] ++
    toLe 2 (checksum ([1, 2] ++ toLe 2 0 ++ [255, 255, 7])).toNat ++ [255, 255, 7])) = 65535 := by
  have hlen : ([1, 2] ++ toLe 2 0 ++ [255, 255, 7] : List UInt8).length ≤ 131074 := by decide
  exact ((checksum_complements_sum hlen).2.2.2.2.2 [1, 2] [255, 255, 7] (by decide) rfl).1

/-- Two words of all ones and a one: the second fold carries, and the sum stays above 16 bits. -/
theorem folds_leave_carry : ¬ ∀ data : List UInt8, data.length ≤ 131074 →
    (foldedSum data).toNat < 65536 := by
  intro h
  have hlt := h [255, 255, 255, 255, 1, 0] (by decide)
  revert hlt
  decide

end SystemsProgramming.PortScanner
