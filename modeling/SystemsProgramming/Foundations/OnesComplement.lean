import SystemsProgramming.Foundations.Bytes
import Mathlib.Data.Nat.ModEq
import Mathlib.Algebra.BigOperators.Group.List.Basic

/-!
# One's complement sums

Addition with an end-around carry of numbers up to `m`, where `m` is all ones. The sum of a list is the
one number between `1` and `m` that is congruent to the ordinary sum modulo `m`, unless everything is
zero.

For words of 16 bits the byte order does not matter: reading the words of some memory in the other
order multiplies their sum by 256 modulo `65535`.
-/

namespace Foundations

namespace OnesComplement

variable {m a b : Nat} {ws : List Nat}

/-- Addition with an end-around carry. -/
def add (m a b : Nat) : Nat := if a + b ≤ m then a + b else a + b - m

/-- The sum of some words. -/
def sum (m : Nat) (ws : List Nat) : Nat := ws.foldl (add m) 0

theorem add_le (ha : a ≤ m) (hb : b ≤ m) : add m a b ≤ m := by
  rw [add]
  split_ifs <;> omega

theorem add_modEq (m a b : Nat) : add m a b ≡ a + b [MOD m] := by
  rw [add]
  split_ifs with h
  · rfl
  · have hsub : a + b = a + b - m + m := by omega
    calc a + b - m ≡ a + b - m + m [MOD m] := (Nat.add_modEq_right).symm
      _ = a + b := hsub.symm

theorem add_eq_zero : add m a b = 0 ↔ a + b = 0 := by
  rw [add]
  split_ifs <;> omega

/-- The running sum stays a word, in the class of the ordinary sum, and is zero only with it. -/
theorem foldl_add_spec (hws : ∀ w ∈ ws, w ≤ m) (ha : a ≤ m) :
    ws.foldl (add m) a ≤ m ∧ ws.foldl (add m) a ≡ a + ws.sum [MOD m] ∧
      (ws.foldl (add m) a = 0 ↔ a + ws.sum = 0) := by
  induction ws generalizing a with
  | nil => exact ⟨ha, Nat.ModEq.refl _, Iff.rfl⟩
  | cons w ws ih =>
    have hw := hws w List.mem_cons_self
    obtain ⟨h1, h2, h3⟩ := ih (fun x hx => hws x (List.mem_cons_of_mem _ hx)) (add_le ha hw)
    rw [List.foldl_cons, List.sum_cons]
    refine ⟨h1, ?_, ?_⟩
    · calc ws.foldl (add m) (add m a w) ≡ add m a w + ws.sum [MOD m] := h2
        _ ≡ a + w + ws.sum [MOD m] := (add_modEq m a w).add_right _
        _ = a + (w + ws.sum) := Nat.add_assoc ..
    · rw [h3, Nat.add_eq_zero_iff, add_eq_zero, ← Nat.add_eq_zero_iff, Nat.add_assoc]

/-- The sum is a word, in the class of the ordinary sum, and is zero only with it. -/
theorem sum_spec (hws : ∀ w ∈ ws, w ≤ m) :
    sum m ws ≤ m ∧ sum m ws ≡ ws.sum [MOD m] ∧ (sum m ws = 0 ↔ ws.sum = 0) := by
  obtain ⟨hle, hmod, hzero⟩ := foldl_add_spec hws (Nat.zero_le m)
  rw [Nat.zero_add] at hmod hzero
  exact ⟨hle, hmod, hzero⟩

/-- Words of one class are equal, if they are both zero or both not. -/
theorem eq_of_modEq (ha : a ≤ m) (hb : b ≤ m) (h : a ≡ b [MOD m]) (hzero : a = 0 ↔ b = 0) : a = b := by
  by_cases hlt : a < m ∧ b < m
  · exact h.eq_of_lt_of_lt hlt.1 hlt.2
  · -- one of them is all ones, and the only other word of its class is zero
    have hcases : ∀ {x y : Nat}, y ≤ m → x ≡ y [MOD m] → (x = 0 ↔ y = 0) → x = m → x = y := by
      rintro x y hy hxy hxy0 rfl
      have hdvd : x ∣ y := Nat.modEq_zero_iff_dvd.1 (hxy.symm.trans Nat.modulus_modEq_zero)
      rcases Nat.eq_zero_or_pos y with h0 | hpos
      · rw [h0]
        exact hxy0.2 h0
      · exact Nat.le_antisymm (Nat.le_of_dvd hpos hdvd) hy
    rcases Nat.lt_or_ge a m with ham | ham
    · exact (hcases ha h.symm hzero.symm (by omega)).symm
    · exact hcases hb h hzero (by omega)

/-- The sum is all ones if and only if the ordinary sum is a positive multiple of `m`. -/
theorem sum_eq_iff (hm : 0 < m) (hws : ∀ w ∈ ws, w ≤ m) :
    sum m ws = m ↔ 0 < ws.sum ∧ m ∣ ws.sum := by
  obtain ⟨hle, hmod, hzero⟩ := sum_spec hws
  constructor
  · intro h
    rw [h] at hmod hzero
    exact ⟨by omega, Nat.modEq_zero_iff_dvd.1 (hmod.symm.trans Nat.modulus_modEq_zero)⟩
  · rintro ⟨h0, hdvd⟩
    refine eq_of_modEq hle (Nat.le_refl m) (hmod.trans ?_) (by omega)
    exact (Nat.modEq_zero_iff_dvd.2 hdvd).trans Nat.modulus_modEq_zero.symm

/-! ## Words of 16 bits -/

/-- The words of some memory, least significant byte first. The last byte of an odd number of bytes is
followed by zero. -/
def leWords : List UInt8 → List Nat
  | [] => []
  | [b] => [b.toNat]
  | b :: c :: bs => (b.toNat + 256 * c.toNat) :: leWords bs

/-- The words of some memory, most significant byte first. -/
def beWords : List UInt8 → List Nat
  | [] => []
  | [b] => [256 * b.toNat]
  | b :: c :: bs => (256 * b.toNat + c.toNat) :: beWords bs

theorem leWords_le (bs : List UInt8) : ∀ w ∈ leWords bs, w ≤ 65535 := by
  induction bs using leWords.induct with
  | case1 => simp [leWords]
  | case2 b =>
    have hb := b.toNat_lt
    simp only [leWords, List.mem_singleton, forall_eq]
    omega
  | case3 b c bs ih =>
    have hb := b.toNat_lt
    have hc := c.toNat_lt
    intro w hw
    rcases List.mem_cons.1 hw with rfl | hw
    · omega
    · exact ih w hw

theorem beWords_le (bs : List UInt8) : ∀ w ∈ beWords bs, w ≤ 65535 := by
  induction bs using beWords.induct with
  | case1 => simp [beWords]
  | case2 b =>
    have hb := b.toNat_lt
    simp only [beWords, List.mem_singleton, forall_eq]
    omega
  | case3 b c bs ih =>
    have hb := b.toNat_lt
    have hc := c.toNat_lt
    intro w hw
    rcases List.mem_cons.1 hw with rfl | hw
    · omega
    · exact ih w hw

/-- The other byte order multiplies the sum by 256. -/
theorem sum_beWords_modEq (bs : List UInt8) :
    (beWords bs).sum ≡ 256 * (leWords bs).sum [MOD 65535] := by
  induction bs using beWords.induct with
  | case1 => rfl
  | case2 b => exact Nat.ModEq.refl _
  | case3 b c bs ih =>
    have hword : 256 * b.toNat + c.toNat ≡ 256 * (b.toNat + 256 * c.toNat) [MOD 65535] := by
      have hsplit : 256 * (b.toNat + 256 * c.toNat) = 256 * b.toNat + c.toNat + c.toNat * 65535 := by
        omega
      rw [hsplit]
      exact Nat.modEq_add_mul_modulus_iff.2 (Nat.ModEq.refl _)
    rw [beWords, leWords, List.sum_cons, List.sum_cons, Nat.mul_add]
    exact hword.add ih

theorem leWords_append {bs cs : List UInt8} (h : bs.length % 2 = 0) :
    leWords (bs ++ cs) = leWords bs ++ leWords cs := by
  induction bs using leWords.induct with
  | case1 => rfl
  | case2 b => simp at h
  | case3 b c bs ih =>
    have h' : bs.length % 2 = 0 := by
      rw [List.length_cons, List.length_cons] at h
      omega
    rw [List.cons_append, List.cons_append, leWords, leWords, ih h', List.cons_append]

theorem sum_leWords_append {bs cs : List UInt8} (h : bs.length % 2 = 0) :
    (leWords (bs ++ cs)).sum = (leWords bs).sum + (leWords cs).sum := by
  rw [leWords_append h, List.sum_append]

/-- The sum of so many words. -/
theorem sum_leWords_le (bs : List UInt8) : (leWords bs).sum ≤ 65535 * ((bs.length + 1) / 2) := by
  induction bs using leWords.induct with
  | case1 => rfl
  | case2 b =>
    have hb := b.toNat_lt
    simp only [leWords, List.sum_cons, List.sum_nil, List.length_cons, List.length_nil]
    omega
  | case3 b c bs ih =>
    have hb := b.toNat_lt
    have hc := c.toNat_lt
    simp only [leWords, List.sum_cons, List.length_cons]
    omega

theorem sum_leWords_toLe {w : Nat} (h : w < 65536) : (leWords (toLe 2 w)).sum = w := by
  simp only [toLe, leWords, List.sum_cons, List.sum_nil, UInt8.toNat_ofNat']
  omega

theorem sum_beWords_eq_zero_iff (bs : List UInt8) : (beWords bs).sum = 0 ↔ (leWords bs).sum = 0 := by
  induction bs using beWords.induct with
  | case1 => rfl
  | case2 b =>
    simp only [beWords, leWords, List.sum_cons, List.sum_nil]
    omega
  | case3 b c bs ih =>
    simp only [beWords, leWords, List.sum_cons]
    omega

/-- A word with its two bytes exchanged. -/
def swap (w : Nat) : Nat := w / 256 + 256 * (w % 256)

theorem swap_modEq (w : Nat) : swap w ≡ 256 * w [MOD 65535] := by
  have hsplit : 256 * w = swap w + w / 256 * 65535 := by
    rw [swap]
    omega
  rw [hsplit]
  exact (Nat.modEq_add_mul_modulus_iff.2 (Nat.ModEq.refl _))

/-- The sum of the words in the other byte order is the sum with its bytes exchanged. -/
theorem sum_beWords (bs : List UInt8) : sum 65535 (beWords bs) = swap (sum 65535 (leWords bs)) := by
  obtain ⟨hle, hmod, hzero⟩ := sum_spec (beWords_le bs)
  obtain ⟨hle', hmod', hzero'⟩ := sum_spec (leWords_le bs)
  have hzeros := sum_beWords_eq_zero_iff bs
  refine eq_of_modEq hle (by rw [swap]; omega) ?_ (by rw [swap]; omega)
  calc sum 65535 (beWords bs) ≡ (beWords bs).sum [MOD 65535] := hmod
    _ ≡ 256 * (leWords bs).sum [MOD 65535] := sum_beWords_modEq bs
    _ ≡ 256 * sum 65535 (leWords bs) [MOD 65535] := hmod'.symm.mul_left 256
    _ ≡ swap (sum 65535 (leWords bs)) [MOD 65535] := (swap_modEq _).symm

/-! ## Carries -/

/-- Add the carries of a sum to its lowest word. -/
def addCarry (s : Nat) : Nat := s / 65536 + s % 65536

/-- Add the carries and the carry of that. -/
def fold (s : Nat) : Nat := (addCarry s + addCarry s / 65536) % 65536

theorem addCarry_modEq (s : Nat) : addCarry s ≡ s [MOD 65535] := by
  have hsplit : addCarry s + s / 65536 * 65535 = s := by
    rw [addCarry]
    omega
  calc addCarry s ≡ addCarry s + s / 65536 * 65535 [MOD 65535] :=
        Nat.modEq_add_mul_modulus_iff.2 (Nat.ModEq.refl _)
    _ = s := hsplit

theorem fold_le (s : Nat) : fold s ≤ 65535 :=
  Nat.le_of_lt_succ (Nat.mod_lt _ (by decide))

/-- Two carries bring a sum of up to 32 bits down to a word in the same class. -/
theorem fold_modEq {s : Nat} (hs : s < 0x100000000) : fold s ≡ s [MOD 65535] := by
  have hle : addCarry s ≤ 131070 := by
    rw [addCarry]
    omega
  refine Nat.ModEq.trans ?_ (addCarry_modEq s)
  by_cases hcarry : addCarry s < 65536
  · have hfold : fold s = addCarry s := by
      rw [fold]
      omega
    rw [hfold]
  · have hfold : addCarry s = fold s + 65535 := by
      rw [fold]
      omega
    rw [hfold]
    exact Nat.add_modEq_right.symm

theorem fold_eq_zero_iff {s : Nat} (hs : s < 0x100000000) : fold s = 0 ↔ s = 0 := by
  have hle : addCarry s ≤ 131070 := by
    rw [addCarry]
    omega
  have hzero : addCarry s = 0 ↔ s = 0 := by
    rw [addCarry]
    omega
  rw [← hzero, fold]
  by_cases hcarry : addCarry s < 65536
  · omega
  · have hdiv : addCarry s / 65536 = 1 := by omega
    rw [hdiv]
    omega

/-- Adding up words and folding the result is the sum with an end-around carry. -/
theorem fold_sum (hws : ∀ w ∈ ws, w ≤ 65535) (hlt : ws.sum < 0x100000000) :
    fold ws.sum = sum 65535 ws := by
  obtain ⟨hle, hmod, hzero⟩ := sum_spec hws
  exact eq_of_modEq (fold_le _) hle ((fold_modEq hlt).trans hmod.symm)
    ((fold_eq_zero_iff hlt).trans hzero.symm)

end OnesComplement

end Foundations
