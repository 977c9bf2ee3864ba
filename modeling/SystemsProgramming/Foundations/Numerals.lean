import SystemsProgramming.Foundations.PercentEncoding
import Mathlib.Algebra.Group.Nat.Defs
import Mathlib.Data.List.Induction

/-!
# Numerals

The conversions of `printf` that write a number in some base up to sixteen, with capital letters for
the digits from ten on, and what reads such a numeral back. Zeros on the left make no difference to
the reader.
-/

namespace Foundations

/-- The character of a digit. -/
def digitByte (d : Nat) : UInt8 := UInt8.ofNat d.digitChar.toUpper.toNat

/-- The digits of a number, the most significant one first. -/
def numeral (base n : Nat) : List UInt8 :=
  (Nat.toDigits base n).map fun c => UInt8.ofNat c.toUpper.toNat

/-- Fill up with zeros on the left, to at least so many characters. -/
def zeroPadded (width : Nat) (s : List UInt8) : List UInt8 :=
  List.replicate (width - s.length) 48 ++ s

/-- The number that a numeral stands for, read from the left. -/
def readNumeral (base : Nat) (s : List UInt8) : Option Nat :=
  s.foldlM (fun v c => (hexDigit c).map fun d => base * v + d.toNat) 0

variable {base n v w : Nat} {s : List UInt8}

theorem hexDigit_digitByte {d : Nat} (h : d < 16) : hexDigit (digitByte d) = some (UInt8.ofNat d) := by
  have hall : ∀ d : Fin 16, hexDigit (digitByte d) = some (UInt8.ofNat d) := by decide
  exact hall ⟨d, h⟩

@[simp] theorem readNumeral_nil : readNumeral base [] = some 0 := rfl

theorem readNumeral_append_singleton (base : Nat) (s : List UInt8) (c : UInt8) :
    readNumeral base (s ++ [c]) =
      (readNumeral base s).bind fun v => (hexDigit c).map fun d => base * v + d.toNat := by
  rw [readNumeral, List.foldlM_append]
  refine congrArg (Option.bind _) (funext fun v => ?_)
  cases h : hexDigit c <;> simp [h]

/-- A number is read back from its numeral. -/
theorem readNumeral_numeral (hbase : 1 < base) (hle : base ≤ 16) (n : Nat) :
    readNumeral base (numeral base n) = some n := by
  induction n using Nat.strongRecOn with
  | ind n ih =>
    have hdigit : ∀ d, d < base → ((hexDigit (digitByte d)).map UInt8.toNat) = some d := by
      intro d hd
      rw [hexDigit_digitByte (by omega), Option.map_some, UInt8.toNat_ofNat',
        Nat.mod_eq_of_lt (by omega)]
    unfold numeral
    rw [Nat.toDigits_eq_if hbase]
    by_cases hn : n < base
    · have h := readNumeral_append_singleton base [] (digitByte n)
      rw [if_pos hn]
      refine h.trans ?_
      have hd := hdigit n hn
      rw [Option.map_eq_some_iff] at hd
      obtain ⟨d, hd, hdn⟩ := hd
      simp [hd, hdn]
    · have h := ih (n / base) (Nat.div_lt_self (by omega) hbase)
      rw [if_neg hn, List.map_append]
      refine (readNumeral_append_singleton base _ (digitByte (n % base))).trans ?_
      unfold numeral at h
      have hd := hdigit (n % base) (Nat.mod_lt _ (by omega))
      rw [Option.map_eq_some_iff] at hd
      obtain ⟨d, hd, hdn⟩ := hd
      rw [h, Option.bind_some, hd, Option.map_some, hdn, Nat.div_add_mod]

theorem readNumeral_zeroPadded (base width : Nat) (s : List UInt8) :
    readNumeral base (zeroPadded width s) = readNumeral base s := by
  unfold zeroPadded
  generalize width - s.length = k
  induction k with
  | zero => rfl
  | succ k ih =>
    rw [List.replicate_succ, List.cons_append, ← ih]
    rfl

/-- Nothing but digits can be read. -/
theorem hexDigit_of_readNumeral (h : readNumeral base s = some v) : ∀ c ∈ s, hexDigit c ≠ none := by
  induction s using List.reverseRecOn generalizing v with
  | nil => simp
  | append_singleton s c ih =>
    rw [readNumeral_append_singleton, Option.bind_eq_some_iff] at h
    obtain ⟨u, hu, hc⟩ := h
    intro a ha
    rcases List.mem_append.1 ha with ha | ha
    · exact ih hu a ha
    · obtain rfl := List.mem_singleton.1 ha
      intro hnone
      rw [hnone] at hc
      cases hc

theorem length_zeroPadded (h : s.length ≤ w) : (zeroPadded w s).length = w := by
  rw [zeroPadded, List.length_append, List.length_replicate]
  omega

/-- A number with at most `w` digits takes exactly `w` characters. -/
theorem length_zeroPadded_numeral (hbase : 1 < base) (hw : 0 < w) (h : n < base ^ w) :
    (zeroPadded w (numeral base n)).length = w := by
  refine length_zeroPadded ?_
  rw [numeral, List.length_map]
  exact (Nat.length_toDigits_le_iff hbase hw).2 h

end Foundations
