import Mathlib.Data.List.TakeWhile

/-!
# Strings in memory

Memory is a list of bytes. A C string is what lies before the first zero byte; where the list ends, a
zero byte is taken to follow. The module has what `strrchr` and `strcasecmp` find out about a string.
-/

namespace Foundations

/-- The bytes of a text in ASCII. -/
def ascii (s : String) : List UInt8 := s.toList.map fun c => UInt8.ofNat c.toNat

/-- The C string at the beginning of the memory. -/
def cString (memory : List UInt8) : List UInt8 := memory.takeWhile (· ≠ 0)

theorem prefix_takeWhile_iff {α : Type} {p : α → Bool} {s t : List α} :
    s <+: t.takeWhile p ↔ s <+: t ∧ ∀ a ∈ s, p a = true := by
  constructor
  · intro h
    exact ⟨h.trans (List.takeWhile_prefix p), fun a ha => List.mem_takeWhile_imp (h.subset ha)⟩
  · rintro ⟨⟨u, rfl⟩, h⟩
    rw [List.takeWhile_append_of_pos h]
    exact List.prefix_append s _

theorem ne_of_not_mem {c : UInt8} {s : List UInt8} (h : c ∉ s) : ∀ b ∈ s, decide (b ≠ c) = true := by
  intro b hb
  rw [decide_eq_true_iff]
  rintro rfl
  exact h hb

/-- What is before the first `c` goes over every part without one. -/
theorem takeWhile_append_of_not_mem {c : UInt8} {s : List UInt8} (h : c ∉ s) (t : List UInt8) :
    (s ++ t).takeWhile (· ≠ c) = s ++ t.takeWhile (· ≠ c) :=
  List.takeWhile_append_of_pos (ne_of_not_mem h)

/-- And ends at `c`. -/
theorem takeWhile_append_cons {c : UInt8} {s : List UInt8} (h : c ∉ s) (t : List UInt8) :
    (s ++ c :: t).takeWhile (· ≠ c) = s := by
  rw [takeWhile_append_of_not_mem h]
  simp

/-- A text lies at the beginning of a C string if and only if it lies at the beginning of the memory
and has no zero byte. -/
theorem prefix_cString_iff {s memory : List UInt8} :
    s <+: cString memory ↔ s <+: memory ∧ 0 ∉ s := by
  rw [cString, prefix_takeWhile_iff]
  refine and_congr_right fun _ => ⟨fun h h0 => ?_, ne_of_not_mem⟩
  simpa using h 0 h0

theorem cString_of_not_mem {s : List UInt8} (h : 0 ∉ s) : cString s = s :=
  List.IsPrefix.eq_of_length_le (List.takeWhile_prefix _)
    (prefix_cString_iff.2 ⟨List.prefix_refl s, h⟩).length_le

/-- A string with its terminator. -/
theorem cString_append_zero {s : List UInt8} (h : 0 ∉ s) (memory : List UInt8) :
    cString (s ++ 0 :: memory) = s := takeWhile_append_cons h memory

/-- The string ends at the first zero byte, if there is one in front of the terminator too. -/
theorem cString_append_cons_zero (s memory : List UInt8) : cString (s ++ 0 :: memory) = cString s := by
  induction s with
  | nil => rfl
  | cons c s ih =>
    by_cases hc : c = 0
    · simp [cString, hc]
    · simpa [cString, hc] using ih

/-- A C string by itself: bytes without a zero byte. -/
def CStr : Type := { s : List UInt8 // 0 ∉ s }

namespace CStr

instance : DecidableEq CStr := inferInstanceAs (DecidableEq { s : List UInt8 // 0 ∉ s })

/-- The bytes of a C string, without the terminator. -/
def bytes (s : CStr) : List UInt8 := s.1

/-- The C string at the beginning of the memory. -/
def ofMemory (memory : List UInt8) : CStr :=
  ⟨cString memory, (prefix_cString_iff.1 (List.prefix_refl _)).2⟩

/-- A C string in memory is read back. -/
theorem ofMemory_append_zero (s : CStr) (memory : List UInt8) :
    ofMemory (s.bytes ++ 0 :: memory) = s :=
  Subtype.ext (cString_append_zero s.2 memory)

end CStr

/-! ## `strrchr` -/

/-- The last `c` of a list is among what is left behind `k` elements, if they do not reach it. -/
theorem mem_drop_append_cons {α : Type} {c : α} {before after : List α} (h : c ∉ after) {k : Nat} :
    c ∈ (before ++ c :: after).drop k ↔ k ≤ before.length := by
  rw [List.drop_append, List.mem_append]
  constructor
  · intro hmem
    by_contra hk
    rw [List.drop_eq_nil_of_le (by omega), List.drop_cons (by omega)] at hmem
    rcases hmem with hmem | hmem
    · exact List.not_mem_nil hmem
    · exact h (List.mem_of_mem_drop hmem)
  · intro hk
    right
    rw [Nat.sub_eq_zero_of_le hk]
    exact List.mem_cons_self

section SplitLast

variable {α : Type} [DecidableEq α]

/-- What lies before and after the last occurrence of `c`. -/
def splitLast (c : α) : List α → Option (List α × List α)
  | [] => none
  | a :: s =>
    match splitLast c s with
    | some (before, after) => some (a :: before, after)
    | none => if a = c then some ([], s) else none

theorem splitLast_eq_none {c : α} {s : List α} : splitLast c s = none ↔ c ∉ s := by
  induction s with
  | nil => simp [splitLast]
  | cons a s ih =>
    rw [splitLast, List.mem_cons, not_or, ← ih]
    cases h : splitLast c s with
    | some p => simp
    | none => simp [eq_comm]

theorem splitLast_eq_some {c : α} {s before after : List α} :
    splitLast c s = some (before, after) ↔ s = before ++ c :: after ∧ c ∉ after := by
  induction s generalizing before after with
  | nil => simp [splitLast]
  | cons a s ih =>
    rw [splitLast]
    cases h : splitLast c s with
    | some p =>
      obtain ⟨b, a'⟩ := p
      obtain ⟨rfl, hnot⟩ := ih.1 h
      simp only [Option.some.injEq, Prod.mk.injEq]
      constructor
      · rintro ⟨rfl, rfl⟩
        exact ⟨rfl, hnot⟩
      · rintro ⟨heq, hafter⟩
        cases before with
        | nil =>
          obtain ⟨-, rfl⟩ := List.cons.inj heq
          exact absurd (by simp) hafter
        | cons a'' before =>
          obtain ⟨rfl, heq'⟩ := List.cons.inj heq
          have h1 := h.symm.trans (ih.2 ⟨heq', hafter⟩)
          obtain ⟨rfl, rfl⟩ := Prod.mk.inj (Option.some.inj h1)
          exact ⟨rfl, rfl⟩
    | none =>
      have hs := splitLast_eq_none.1 h
      by_cases hac : a = c
      · subst hac
        simp only [if_true, Option.some.injEq, Prod.mk.injEq]
        constructor
        · rintro ⟨rfl, rfl⟩
          exact ⟨rfl, hs⟩
        · rintro ⟨heq, -⟩
          cases before with
          | nil => exact ⟨rfl, (List.cons.inj heq).2⟩
          | cons a'' before =>
            obtain ⟨-, rfl⟩ := List.cons.inj heq
            exact absurd (by simp) hs
      · simp only [if_neg hac, reduceCtorEq, false_iff, not_and]
        rintro heq -
        cases before with
        | nil => exact hac (List.cons.inj heq).1
        | cons a'' before =>
          obtain ⟨-, rfl⟩ := List.cons.inj heq
          exact hs (by simp)

end SplitLast

/-! ## `strcasecmp` -/

/-- The lower case of an ASCII letter; other bytes stay. -/
def toLower (b : UInt8) : UInt8 := if 65 ≤ b ∧ b ≤ 90 then b + 32 else b

/-- `strcasecmp(s, t) == 0` -/
def caseEq (s t : List UInt8) : Bool := s.map toLower == t.map toLower

theorem caseEq_length {s t : List UInt8} (h : caseEq s t = true) : s.length = t.length := by
  have h' : s.map toLower = t.map toLower := by simpa [caseEq] using h
  have hlen := congrArg List.length h'
  simpa using hlen

end Foundations
