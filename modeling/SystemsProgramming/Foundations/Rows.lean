import Mathlib.Data.List.Basic

/-!
# Rows of cells

Cells of equal width written side by side, each behind a separator that depends on its number only.
The columns at which the cells start do not depend on what the cells contain, so whoever knows the
separators can cut the cells out again.
-/

namespace Foundations

variable {α : Type}

/-- The cells from the number `i` on, each behind its separator. -/
def row (sep : Nat → List α) : Nat → List (List α) → List α
  | _, [] => []
  | i, c :: cs => sep i ++ c ++ row sep (i + 1) cs

/-- The column behind the first `i` cells. -/
def rowEnd (sep : Nat → List α) (width : Nat) : Nat → Nat
  | 0 => 0
  | i + 1 => rowEnd sep width i + (sep i).length + width

/-- The column at which the cell `i` starts. -/
def cellColumn (sep : Nat → List α) (width i : Nat) : Nat := rowEnd sep width i + (sep i).length

variable {sep : Nat → List α} {width i : Nat} {cells : List (List α)}

theorem row_append (sep : Nat → List α) (i : Nat) (cells cells' : List (List α)) :
    row sep i (cells ++ cells') = row sep i cells ++ row sep (i + cells.length) cells' := by
  induction cells generalizing i with
  | nil => rfl
  | cons c cells ih =>
    rw [List.cons_append, row, ih, row, List.length_cons, List.append_assoc _ (row sep (i + 1) cells)]
    congr 3
    omega

theorem rowEnd_add_length (h : ∀ c ∈ cells, c.length = width) :
    rowEnd sep width i + (row sep i cells).length = rowEnd sep width (i + cells.length) := by
  induction cells generalizing i with
  | nil => rfl
  | cons c cells ih =>
    have hc := h c List.mem_cons_self
    have hrest := ih (i := i + 1) fun d hd => h d (List.mem_cons_of_mem _ hd)
    rw [rowEnd] at hrest
    rw [row, List.length_append, List.length_append, List.length_cons, hc,
      show i + (cells.length + 1) = i + 1 + cells.length by omega, ← hrest]
    omega

/-- The length of a whole row. -/
theorem length_row (h : ∀ c ∈ cells, c.length = width) :
    (row sep 0 cells).length = rowEnd sep width cells.length := by
  have hlen : rowEnd sep width 0 + (row sep 0 cells).length = rowEnd sep width (0 + cells.length) :=
    rowEnd_add_length h
  rwa [rowEnd, Nat.zero_add, Nat.zero_add] at hlen

/-- The first cells of a row. -/
theorem length_row_take (h : ∀ c ∈ cells, c.length = width) (hi : i ≤ cells.length) :
    (row sep 0 (cells.take i)).length = rowEnd sep width i := by
  rw [length_row fun c hc => h c (List.mem_of_mem_take hc), List.length_take_of_le hi]

/-- A row is cut in front of a cell and behind it. -/
theorem row_eq_take_append (sep : Nat → List α) (hi : i < cells.length) :
    row sep 0 cells =
      row sep 0 (cells.take i) ++ sep i ++ cells[i] ++ row sep (i + 1) (cells.drop (i + 1)) := by
  conv_lhs => rw [← List.take_append_drop i cells]
  rw [row_append, List.length_take_of_le (Nat.le_of_lt hi), Nat.zero_add, List.drop_eq_getElem_cons hi,
    row]
  simp only [List.append_assoc]

/-- A cell is found at its column, whatever stands behind the row. -/
theorem take_drop_row (h : ∀ c ∈ cells, c.length = width) {pre : List α}
    (hpre : pre.length = rowEnd sep width i) {j : Nat} (hj : j < cells.length) (rest : List α) :
    ((pre ++ row sep i cells ++ rest).drop (cellColumn sep width (i + j))).take width = cells[j] := by
  induction cells generalizing i j pre with
  | nil => simp at hj
  | cons c cells ih =>
    have hc := h c List.mem_cons_self
    cases j with
    | zero =>
      have hlen : (pre ++ sep i).length = cellColumn sep width i := by
        rw [List.length_append, hpre, cellColumn]
      have hsplit : pre ++ row sep i (c :: cells) ++ rest =
          (pre ++ sep i) ++ (c ++ (row sep (i + 1) cells ++ rest)) := by
        rw [row]
        simp only [List.append_assoc]
      rw [hsplit, Nat.add_zero, ← hlen, List.drop_left, ← hc, List.take_left, List.getElem_cons_zero]
    | succ j =>
      have hpre' : (pre ++ sep i ++ c).length = rowEnd sep width (i + 1) := by
        rw [List.length_append, List.length_append, hpre, hc, rowEnd]
      have hsplit : pre ++ row sep i (c :: cells) ++ rest =
          (pre ++ sep i ++ c) ++ row sep (i + 1) cells ++ rest := by
        rw [row]
        simp only [List.append_assoc]
      have hrest := ih (fun d hd => h d (List.mem_cons_of_mem _ hd)) hpre'
        (Nat.lt_of_succ_lt_succ hj)
      rw [hsplit, show i + (j + 1) = i + 1 + j by omega, hrest, List.getElem_cons_succ]

end Foundations
