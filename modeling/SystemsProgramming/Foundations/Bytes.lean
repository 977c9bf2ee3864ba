import Mathlib.Data.Nat.Digits.Lemmas

/-!
# Numbers as bytes

The `n` lowest bytes of a number, least or most significant byte first, and the numbers that such bytes
stand for.
-/

namespace Foundations

/-- The `n` lowest bytes of a number, the least significant one first. -/
def toLe : Nat → Nat → List UInt8
  | 0, _ => []
  | n + 1, w => UInt8.ofNat w :: toLe n (w / 256)

/-- The number of some bytes, the least significant one first. -/
def ofLe (bs : List UInt8) : Nat := Nat.ofDigits 256 (bs.map UInt8.toNat)

/-- The `n` lowest bytes of a number, the most significant one first. -/
def toBe (n w : Nat) : List UInt8 := (toLe n w).reverse

/-- The number of some bytes, the most significant one first. -/
def ofBe (bs : List UInt8) : Nat := ofLe bs.reverse

@[simp] theorem toLe_length (n w : Nat) : (toLe n w).length = n := by
  induction n generalizing w with
  | zero => rfl
  | succ n ih => rw [toLe, List.length_cons, ih]

@[simp] theorem toBe_length (n w : Nat) : (toBe n w).length = n := by
  rw [toBe, List.length_reverse, toLe_length]

@[simp] theorem ofLe_nil : ofLe [] = 0 := rfl

@[simp] theorem ofLe_cons (b : UInt8) (bs : List UInt8) : ofLe (b :: bs) = b.toNat + 256 * ofLe bs :=
  Nat.ofDigits_cons ..

/-- The bytes of a number stand for it, as far as they reach. -/
theorem ofLe_toLe (n w : Nat) : ofLe (toLe n w) = w % 256 ^ n := by
  induction n generalizing w with
  | zero => rw [toLe, ofLe_nil, Nat.pow_zero, Nat.mod_one]
  | succ n ih =>
    have hpow : 256 ^ (n + 1) = 256 * 256 ^ n := Nat.pow_succ'
    rw [toLe, ofLe_cons, ih, UInt8.toNat_ofNat', hpow, Nat.mod_mul]

theorem ofLe_toLe_of_lt {n w : Nat} (h : w < 256 ^ n) : ofLe (toLe n w) = w := by
  rw [ofLe_toLe, Nat.mod_eq_of_lt h]

theorem ofBe_toBe (n w : Nat) : ofBe (toBe n w) = w % 256 ^ n := by
  rw [ofBe, toBe, List.reverse_reverse, ofLe_toLe]

theorem ofLe_lt {n : Nat} {bs : List UInt8} (h : bs.length = n) : ofLe bs < 256 ^ n := by
  have hlt := Nat.ofDigits_lt_base_pow_length (b := 256) (l := bs.map UInt8.toNat) (by omega)
    fun d hd => by
      obtain ⟨b, -, rfl⟩ := List.mem_map.1 hd
      exact b.toNat_lt
  rwa [List.length_map, h] at hlt

theorem ofBe_lt {n : Nat} {bs : List UInt8} (h : bs.length = n) : ofBe bs < 256 ^ n :=
  ofLe_lt (List.length_reverse.trans h)

/-- Bytes are determined by their number. -/
theorem toLe_ofLe {n : Nat} {bs : List UInt8} (h : bs.length = n) : toLe n (ofLe bs) = bs := by
  subst h
  induction bs with
  | nil => rfl
  | cons b bs ih =>
    have hb := b.toNat_lt
    have hdiv : (b.toNat + 256 * ofLe bs) / 256 = ofLe bs := by omega
    have hmod : UInt8.ofNat (b.toNat + 256 * ofLe bs) = b := by
      rw [← UInt8.toNat_inj, UInt8.toNat_ofNat']
      omega
    rw [List.length_cons, toLe, ofLe_cons, hdiv, ih, hmod]

end Foundations
