import SystemsProgramming.Foundations.Memory

/-!
# Blocks of memory

A block is what `malloc` returns: so many bytes of memory, whatever they hold. A store that is not inside
of the block has no result. `realloc` keeps what both sizes have room for.
-/

namespace Foundations

/-- A new block of this size. -/
def malloc (m : Memory) (size : Nat) : List UInt8 := bytesAt m 0 size

/-- The block in another size. -/
def realloc (m : Memory) (block : List UInt8) (size : Nat) : List UInt8 :=
  bytesAt (overlay block m) 0 size

/-- Bytes are written to a block from `i` on, if all of them are inside of it. -/
def writeAt (block : List UInt8) (i : Nat) (bytes : List UInt8) : Option (List UInt8) :=
  if i + bytes.length ≤ block.length then
    some (block.take i ++ bytes ++ block.drop (i + bytes.length))
  else none

variable {m : Memory} {block bytes : List UInt8} {i size : Nat}

@[simp] theorem malloc_length : (malloc m size).length = size := bytesAt_length

@[simp] theorem realloc_length : (realloc m block size).length = size := bytesAt_length

/-- A block that grows keeps its bytes. -/
theorem take_realloc (h : block.length ≤ size) (hi : i ≤ block.length) :
    (realloc m block size).take i = block.take i := by
  have htake : (bytesAt (overlay block m) 0 size).take i = bytesAt (overlay block m) 0 i := by
    rw [bytesAt, bytesAt, ← List.map_take, List.take_range, Nat.min_eq_left (hi.trans h)]
  rw [realloc, htake, bytesAt_overlay (by omega), List.drop_zero]

/-- Where there is room for the bytes they are written, the bytes in front of them stay, and so does the
size of the block. -/
theorem writeAt_eq_some (h : i + bytes.length ≤ block.length) :
    ∃ block', writeAt block i bytes = some block' ∧ block'.length = block.length ∧
      block'.take (i + bytes.length) = block.take i ++ bytes := by
  have hi : (block.take i).length = i := by
    rw [List.length_take]
    omega
  have hlen : (block.take i ++ bytes).length = i + bytes.length := by rw [List.length_append, hi]
  refine ⟨_, if_pos h, ?_, ?_⟩
  · rw [List.length_append, hlen, List.length_drop]
    omega
  · rw [← hlen, List.take_left]

/-- At the start of the block. -/
theorem writeAt_zero (h : bytes.length ≤ block.length) :
    ∃ block', writeAt block 0 bytes = some block' ∧ block'.length = block.length ∧
      block'.take bytes.length = bytes := by
  have hroom : 0 + bytes.length ≤ block.length := by rwa [Nat.zero_add]
  obtain ⟨block', hwrite, hlen, htake⟩ := writeAt_eq_some hroom
  rw [Nat.zero_add, List.take_zero, List.nil_append] at htake
  exact ⟨block', hwrite, hlen, htake⟩

/-- One byte. -/
theorem writeAt_singleton (h : i < block.length) (b : UInt8) :
    ∃ block', writeAt block i [b] = some block' ∧ block'.length = block.length ∧
      block'.take (i + 1) = block.take i ++ [b] ∧ block'.take i = block.take i ∧
      block'[i]? = some b := by
  obtain ⟨block', hwrite, hlen, htake⟩ := writeAt_eq_some (show i + [b].length ≤ block.length from h)
  have htake' : block'.take (i + 1) = block.take i ++ [b] := htake
  have hi : (block.take i).length = i := by
    rw [List.length_take]
    omega
  refine ⟨block', hwrite, hlen, htake', ?_, ?_⟩
  · have hcut := congrArg (List.take i) htake'
    rw [List.take_take, Nat.min_eq_left (Nat.le_succ i), List.take_left' hi] at hcut
    exact hcut
  · have hget := congrArg (fun l => l[i]?) htake'
    simp only [List.getElem?_take_of_succ] at hget
    rw [hget, List.getElem?_append_right (by omega), hi, Nat.sub_self, List.getElem?_cons_zero]

end Foundations
