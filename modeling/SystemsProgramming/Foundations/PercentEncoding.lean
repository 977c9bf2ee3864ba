import Mathlib.Data.List.Basic

/-!
# Percent-encoding

A name is written with each of its bytes as it is, unless it is a percent sign, or as a percent sign
and two hexadecimal digits. One name has many spellings; `Spells` relates each of them to it.
-/

namespace Foundations

/-- The value of a hexadecimal digit. -/
def hexDigit (b : UInt8) : Option UInt8 :=
  if 48 ≤ b ∧ b ≤ 57 then some (b - 48)
  else if 65 ≤ b ∧ b ≤ 70 then some (b - 55)
  else if 97 ≤ b ∧ b ≤ 102 then some (b - 87)
  else none

/-- The text is a spelling of the name. -/
inductive Spells : List UInt8 → List UInt8 → Prop where
  | nil : Spells [] []
  | plain {c s name} (hc : c ≠ 37) (h : Spells s name) : Spells (c :: s) (c :: name)
  | escape {d e x y s name} (hd : hexDigit d = some x) (he : hexDigit e = some y)
    (h : Spells s name) : Spells (37 :: d :: e :: s) ((16 * x + y) :: name)

namespace Spells

variable {s name : List UInt8}

/-- What has no percent sign spells itself. -/
theorem self (h : 37 ∉ s) : Spells s s := by
  induction s with
  | nil => exact .nil
  | cons a s ih =>
    rw [List.mem_cons, not_or] at h
    exact .plain (Ne.symm h.1) (ih h.2)

/-- A zero byte is no part of a spelling, unless it is a part of the name. -/
theorem zero_not_mem (h : Spells s name) (h0 : 0 ∉ name) : 0 ∉ s := by
  have hdigit : ∀ {b x : UInt8}, hexDigit b = some x → 0 ≠ b := by
    rintro b x hb rfl
    simp [hexDigit] at hb
  induction h with
  | nil => exact h0
  | plain hc h ih =>
    rw [List.mem_cons, not_or] at h0 ⊢
    exact ⟨h0.1, ih h0.2⟩
  | escape hd he h ih =>
    rw [List.mem_cons, not_or] at h0
    simp only [List.mem_cons, not_or]
    exact ⟨by decide, hdigit hd, hdigit he, ih h0.2⟩

end Spells

end Foundations
