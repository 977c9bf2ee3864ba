import Mathlib.Data.List.Basic

/-!
# Pieces of equal length

A list cut from the front into pieces of length `n`; the last piece has what is left. This is what
one gets who reads a file `n` bytes at a time.
-/

namespace Foundations

variable {α : Type}

/-- Cut off pieces until nothing is left; the second argument bounds their number. -/
def chunksAux (n : Nat) : Nat → List α → List (List α)
  | _, [] => []
  | 0, _ :: _ => []
  | fuel + 1, x :: xs => (x :: xs).take n :: chunksAux n fuel ((x :: xs).drop n)

/-- The pieces of length `n` of a list. -/
def chunks (n : Nat) (xs : List α) : List (List α) := chunksAux n xs.length xs

theorem chunksAux_fuel {n : Nat} (hn : 0 < n) {fuel fuel' : Nat} {xs : List α}
    (h : xs.length ≤ fuel) (h' : xs.length ≤ fuel') : chunksAux n fuel xs = chunksAux n fuel' xs := by
  induction fuel generalizing fuel' xs with
  | zero =>
    obtain rfl := List.eq_nil_of_length_eq_zero (Nat.le_zero.1 h)
    cases fuel' <;> rfl
  | succ fuel ih =>
    cases xs with
    | nil => cases fuel' <;> rfl
    | cons x xs =>
      cases fuel' with
      | zero => simp at h'
      | succ fuel' =>
        have hlen : ∀ k, (x :: xs).length ≤ k + 1 → ((x :: xs).drop n).length ≤ k := by
          intro k hk
          rw [List.length_drop]
          omega
        rw [chunksAux, chunksAux, ih (hlen fuel h) (hlen fuel' h')]

@[simp] theorem chunks_nil (n : Nat) : chunks n ([] : List α) = [] := rfl

/-- The first piece, and the pieces of the rest. -/
theorem chunks_of_ne_nil {n : Nat} (hn : 0 < n) {xs : List α} (h : xs ≠ []) :
    chunks n xs = xs.take n :: chunks n (xs.drop n) := by
  cases xs with
  | nil => exact absurd rfl h
  | cons x xs =>
    have hlen : ((x :: xs).drop n).length ≤ xs.length := by
      rw [List.length_drop, List.length_cons]
      omega
    rw [chunks, List.length_cons, chunksAux, chunksAux_fuel hn hlen (Nat.le_refl _), ← chunks]

/-- The induction along the pieces of a list. -/
theorem chunks_induction {n : Nat} (hn : 0 < n) {motive : List α → Prop} (nil : motive [])
    (drop : ∀ xs, xs ≠ [] → motive (xs.drop n) → motive xs) (xs : List α) : motive xs := by
  induction hlen : xs.length using Nat.strongRecOn generalizing xs with
  | ind len ih =>
    by_cases h : xs = []
    · exact h ▸ nil
    · have hpos := List.length_pos_iff.2 h
      exact drop xs h (ih (xs.drop n).length (by rw [List.length_drop]; omega) _ rfl)

theorem flatten_chunks {n : Nat} (hn : 0 < n) (xs : List α) : (chunks n xs).flatten = xs := by
  induction xs using chunks_induction hn with
  | nil => rfl
  | drop xs h ih => rw [chunks_of_ne_nil hn h, List.flatten_cons, ih, List.take_append_drop]

theorem length_chunks {n : Nat} (hn : 0 < n) (xs : List α) :
    (chunks n xs).length = (xs.length + n - 1) / n := by
  induction xs using chunks_induction hn with
  | nil => exact (Nat.div_eq_of_lt (by simp; omega)).symm
  | drop xs h ih =>
    have hpos := List.length_pos_iff.2 h
    rw [chunks_of_ne_nil hn h, List.length_cons, ih, List.length_drop]
    by_cases hlen : n ≤ xs.length
    · rw [show xs.length + n - 1 = xs.length - n + n - 1 + n by omega, Nat.add_div_right _ hn]
    · rw [show xs.length - n + n - 1 = n - 1 by omega, Nat.div_eq_of_lt (show n - 1 < n by omega)]
      rw [show xs.length + n - 1 = xs.length - 1 + n by omega, Nat.add_div_right _ hn,
        Nat.div_eq_of_lt (show xs.length - 1 < n by omega)]

theorem getElem_chunks {n : Nat} (hn : 0 < n) {xs : List α} {r : Nat}
    (hr : r < (chunks n xs).length) : (chunks n xs)[r] = (xs.drop (r * n)).take n := by
  induction xs using chunks_induction hn generalizing r with
  | nil => simp at hr
  | drop xs h ih =>
    simp only [chunks_of_ne_nil hn h, List.length_cons] at hr ⊢
    cases r with
    | zero => simp
    | succ r =>
      rw [List.getElem_cons_succ, ih (by omega), List.drop_drop]
      congr 2
      rw [Nat.add_mul, Nat.one_mul, Nat.add_comm]

/-- Pieces of equal length put one after another: where each of them starts. -/
theorem drop_flatten {n : Nat} {xss : List (List α)} (h : ∀ xs ∈ xss, xs.length = n) (i : Nat) :
    xss.flatten.drop (i * n) = (xss.drop i).flatten := by
  induction xss generalizing i with
  | nil => simp
  | cons xs xss ih =>
    cases i with
    | zero => simp
    | succ i =>
      have hlen := h xs List.mem_cons_self
      rw [List.flatten_cons, List.drop_succ_cons, Nat.succ_mul, Nat.add_comm, ← List.drop_drop, ← hlen,
        List.drop_left, hlen, ih fun ys hys => h ys (List.mem_cons_of_mem _ hys)]

theorem length_flatten_of_length {n : Nat} {xss : List (List α)} (h : ∀ xs ∈ xss, xs.length = n) :
    xss.flatten.length = xss.length * n := by
  induction xss with
  | nil => simp
  | cons xs xss ih =>
    rw [List.flatten_cons, List.length_append, h xs List.mem_cons_self,
      ih fun ys hys => h ys (List.mem_cons_of_mem _ hys), List.length_cons, Nat.succ_mul, Nat.add_comm]

theorem length_le_of_mem_chunksAux {n fuel : Nat} {xs ys : List α} (h : ys ∈ chunksAux n fuel xs) :
    ys.length ≤ n := by
  induction fuel generalizing xs with
  | zero => cases xs <;> simp [chunksAux] at h
  | succ fuel ih =>
    cases xs with
    | nil => simp [chunksAux] at h
    | cons x xs =>
      rw [chunksAux, List.mem_cons] at h
      rcases h with rfl | h
      · exact List.length_take_le n _
      · exact ih h

/-- Every piece has something in it. -/
theorem ne_nil_of_mem_chunks {n : Nat} (hn : 0 < n) {xs ys : List α} (h : ys ∈ chunks n xs) :
    ys ≠ [] ∧ ys.length ≤ n := by
  induction xs using chunks_induction hn with
  | nil => simp at h
  | drop xs hne ih =>
    rw [chunks_of_ne_nil hn hne, List.mem_cons] at h
    rcases h with rfl | h
    · refine ⟨fun hnil => ?_, List.length_take_le n xs⟩
      rcases List.take_eq_nil_iff.1 hnil with h0 | h0
      · omega
      · exact hne h0
    · exact ih h

end Foundations
