import SystemsProgramming.Foundations.Bytes

/-!
# Memory by address

Bytes are read from memory at an address, and written over what it holds at its beginning.
-/

namespace Foundations

/-- Memory from some address on. -/
abbrev Memory : Type := Nat → UInt8

/-- The `n` bytes from `i` on. -/
def bytesAt (m : Memory) (i n : Nat) : List UInt8 := (List.range n).map fun k => m (i + k)

/-- Memory with some bytes written to its beginning. -/
def overlay (bs : List UInt8) (m : Memory) : Memory := fun i => bs[i]?.getD (m i)

variable {m m' : Memory} {bs : List UInt8} {i n : Nat}

@[simp] theorem bytesAt_length : (bytesAt m i n).length = n := by
  rw [bytesAt, List.length_map, List.length_range]

theorem bytesAt_congr (h : ∀ k, k < n → m (i + k) = m' (i + k)) : bytesAt m i n = bytesAt m' i n :=
  List.map_congr_left fun k hk => h k (List.mem_range.1 hk)

/-- Memory from a later address on. -/
theorem bytesAt_shift (m : Memory) (j i n : Nat) :
    bytesAt (fun k => m (j + k)) i n = bytesAt m (j + i) n :=
  List.map_congr_left fun _ _ => congrArg m (Nat.add_assoc ..).symm

theorem overlay_of_lt (h : i < bs.length) : overlay bs m i = bs[i] := by
  rw [overlay, List.getElem?_eq_getElem h, Option.getD_some]

/-- Bytes that were written are read back. -/
theorem bytesAt_overlay (h : i + n ≤ bs.length) : bytesAt (overlay bs m) i n = (bs.drop i).take n := by
  apply List.ext_getElem
  · rw [bytesAt_length, List.length_take, List.length_drop]
    omega
  · intro k hk _
    rw [bytesAt_length] at hk
    have hin : i + k < bs.length := by omega
    simp only [bytesAt, List.getElem_map, List.getElem_range, List.getElem_take, List.getElem_drop,
      overlay_of_lt hin]

end Foundations
