import SystemsProgramming.Foundations.Protocol
import Mathlib.Data.List.Basic

/-!
# Slot tables

A slot table keeps resources in numbered slots. The module relates a table to the ledger of the
resources that are held: `Backed` says that the table names only held resources, each in one slot
only, and `Owns` that it names all of them. Filling a free slot with a fresh resource is an
acquisition, clearing a slot is a release.

The slot to fill is the first free one (`firstFree`). A program that scans only the slots below some
bound sees the whole table as long as the bound covers it (`Covers`).
-/

namespace Foundations

variable {ρ α : Type} [DecidableEq ρ]

/-- The resource in each slot, with its status; `none` is a free slot. -/
abbrev SlotTable (ρ α : Type) := Nat → Option (ρ × α)

namespace SlotTable

variable {T : SlotTable ρ α} {L : Ledger ρ α} {i : Nat} {r : ρ} {a : α}

/-- Every resource in the table is held, in the status the table says, and is in no other slot. -/
structure Backed (T : SlotTable ρ α) (L : Ledger ρ α) : Prop where
  held : ∀ i r a, T i = some (r, a) → L r = some a
  inj : ∀ i j r a b, T i = some (r, a) → T j = some (r, b) → i = j

/-- The table has exactly the resources that are held. -/
structure Owns (T : SlotTable ρ α) (L : Ledger ρ α) : Prop extends Backed T L where
  found : ∀ r a, L r = some a → ∃ i, T i = some (r, a)

omit [DecidableEq ρ] in
theorem Owns.held_iff (h : Owns T L) : L r = some a ↔ ∃ i, T i = some (r, a) :=
  ⟨h.found r a, fun ⟨i, hi⟩ => h.held i r a hi⟩

omit [DecidableEq ρ] in
/-- A table without entries is backed by any ledger. -/
theorem Backed.of_free (h : ∀ i, T i = none) : Backed T L :=
  ⟨fun i _ _ hi => by simp [h i] at hi, fun i _ _ _ _ hi => by simp [h i] at hi⟩

omit [DecidableEq ρ] in
theorem Owns.of_free (h : ∀ i, T i = none) : Owns T (Ledger.empty : Ledger ρ α) :=
  ⟨.of_free h, fun _ _ hr => by cases hr⟩

omit [DecidableEq ρ] in
/-- A resource that is not held is in no slot. -/
theorem Backed.not_mem (h : Backed T L) (hr : L r = none) (i : Nat) (a : α) :
    T i ≠ some (r, a) := by
  intro hi
  rw [h.held i r a hi] at hr
  cases hr

/-- A resource that no slot has may be taken without the table noticing. -/
theorem Backed.acquire (h : Backed T L) (hr : L r = none) :
    Backed T (Function.update L r (some a)) := by
  refine ⟨fun j q b hj => ?_, h.inj⟩
  have hqr : q ≠ r := by
    rintro rfl
    exact h.not_mem hr j b hj
  rw [Function.update_of_ne hqr]
  exact h.held j q b hj

/-- Fill a slot with a resource that was not held. -/
theorem Backed.put (h : Backed T L) (hr : L r = none) (i : Nat) :
    Backed (Function.update T i (some (r, a))) (Function.update L r (some a)) := by
  have hother : ∀ j, j ≠ i → ∀ q b, Function.update T i (some (r, a)) j = some (q, b) →
      T j = some (q, b) ∧ q ≠ r := by
    intro j hji q b hj
    rw [Function.update_of_ne hji] at hj
    refine ⟨hj, ?_⟩
    rintro rfl
    exact h.not_mem hr j b hj
  have hself : ∀ q b, Function.update T i (some (r, a)) i = some (q, b) → r = q ∧ a = b := by
    intro q b hq
    simpa using hq
  constructor
  · intro j q b hj
    by_cases hji : j = i
    · subst hji
      obtain ⟨rfl, rfl⟩ := hself q b hj
      simp
    · obtain ⟨hj', hqr⟩ := hother j hji q b hj
      rw [Function.update_of_ne hqr]
      exact h.held j q b hj'
  · intro j k q b c hj hk
    by_cases hji : j = i
    · by_cases hki : k = i
      · rw [hji, hki]
      · subst hji
        exact absurd (hself q b hj).1.symm (hother k hki q c hk).2
    · by_cases hki : k = i
      · subst hki
        exact absurd (hself q c hk).1.symm (hother j hji q b hj).2
      · exact h.inj j k q b c (hother j hji q b hj).1 (hother k hki q c hk).1

theorem Owns.put (h : Owns T L) (hi : T i = none) (hr : L r = none) :
    Owns (Function.update T i (some (r, a))) (Function.update L r (some a)) := by
  refine ⟨h.toBacked.put hr i, fun q b hq => ?_⟩
  by_cases hqr : q = r
  · subst hqr
    refine ⟨i, ?_⟩
    simpa using hq
  · rw [Function.update_of_ne hqr] at hq
    obtain ⟨j, hj⟩ := h.found q b hq
    have hji : j ≠ i := by
      rintro rfl
      rw [hi] at hj
      cases hj
    exact ⟨j, by rw [Function.update_of_ne hji]; exact hj⟩

/-- Clear a slot and release its resource. -/
theorem Backed.clear (h : Backed T L) (hi : T i = some (r, a)) :
    Backed (Function.update T i none) (Function.update L r none) := by
  have hother : ∀ j q b, Function.update T i none j = some (q, b) →
      j ≠ i ∧ T j = some (q, b) := by
    intro j q b hj
    by_cases hji : j = i
    · subst hji
      simp at hj
    · rw [Function.update_of_ne hji] at hj
      exact ⟨hji, hj⟩
  constructor
  · intro j q b hj
    obtain ⟨hji, hj'⟩ := hother j q b hj
    have hqr : q ≠ r := by
      rintro rfl
      exact hji (h.inj j i q b a hj' hi)
    rw [Function.update_of_ne hqr]
    exact h.held j q b hj'
  · intro j k q b c hj hk
    exact h.inj j k q b c (hother j q b hj).2 (hother k q c hk).2

theorem Owns.clear (h : Owns T L) (hi : T i = some (r, a)) :
    Owns (Function.update T i none) (Function.update L r none) := by
  refine ⟨h.toBacked.clear hi, fun q b hq => ?_⟩
  by_cases hqr : q = r
  · subst hqr
    simp at hq
  · rw [Function.update_of_ne hqr] at hq
    obtain ⟨j, hj⟩ := h.found q b hq
    have hji : j ≠ i := by
      rintro rfl
      rw [hi] at hj
      cases hj
      exact hqr rfl
    exact ⟨j, by rw [Function.update_of_ne hji]; exact hj⟩

/-! ## The first free slot -/

/-- The first of the slots `lo`, …, `hi - 1` that is free. -/
def firstFree (free : Nat → Bool) (lo hi : Nat) : Option Nat :=
  (List.range' lo (hi - lo)).find? free

theorem firstFree_eq_some {free : Nat → Bool} {lo hi i : Nat} :
    firstFree free lo hi = some i ↔
      lo ≤ i ∧ i < hi ∧ free i = true ∧ ∀ j, lo ≤ j → j < i → free j = false := by
  rw [firstFree, List.find?_range'_eq_some]
  simp only [List.mem_range'_1, Bool.not_eq_eq_eq_not, Bool.not_true]
  constructor
  · rintro ⟨h1, ⟨h2, h3⟩, h4⟩
    exact ⟨h2, by omega, h1, h4⟩
  · rintro ⟨h1, h2, h3, h4⟩
    exact ⟨h3, ⟨h1, by omega⟩, h4⟩

theorem firstFree_eq_none {free : Nat → Bool} {lo hi : Nat} :
    firstFree free lo hi = none ↔ ∀ j, lo ≤ j → j < hi → free j = false := by
  rw [firstFree, List.find?_range'_eq_none]
  simp only [Bool.not_eq_eq_eq_not, Bool.not_true]
  constructor
  · intro h j h1 h2
    exact h j h1 (by omega)
  · intro h j h1 h2
    exact h j h1 (by omega)

/-! ## Bounds that cover the table -/

/-- Every occupied slot lies below the bound. -/
def Covers (occupied : Nat → Prop) (n : Nat) : Prop := ∀ i, occupied i → i < n

end SlotTable

end Foundations
