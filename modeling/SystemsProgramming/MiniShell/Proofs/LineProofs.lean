import SystemsProgramming.MiniShell.Buffers

/-!
# Proofs: the block for the line

The block grows as soon as `position` reaches its size, so that there is room for one more byte whenever
a character is read, also for the terminator. It cannot grow to `2 ^ 31` bytes: that is no `int`.
-/

namespace SystemsProgramming.MiniShell

open Foundations

variable {input line buffer : List UInt8} {n m : Nat}

/-! ## The line -/

theorem readline_fst (input : List UInt8) : (readline input).1 = input.takeWhile (· ≠ 10) := by
  induction input with
  | nil => rfl
  | cons c input ih =>
    by_cases hc : c = 10
    · rw [readline, if_pos hc, hc]
      rfl
    · rw [readline, if_neg hc, ih, List.takeWhile_cons, if_pos (decide_eq_true hc)]

/-! ## Positions and sizes -/

theorem toSize_ofNat (h : n < 2 ^ 31) : toSize (Int32.ofNat n) = n := by
  have hmax : (n : Int) ≤ Int32.maxValue.toInt := by
    rw [Int32.toInt_maxValue]
    omega
  rw [toSize, Int32.toInt64_ofNat' hmax, Int64.toUInt64_ofNat']
  exact UInt64.toNat_ofNat_of_lt' (show n < 2 ^ 64 by omega)

/-- A store below the size of the block. -/
theorem storeChar_eq_some (hn : n < buffer.length) (hmax : n < 2 ^ 31) (c : UInt8) :
    ∃ buffer', storeChar buffer (Int32.ofNat n) c = some buffer' ∧ buffer'.length = buffer.length ∧
      buffer'.take (n + 1) = buffer.take n ++ [c] ∧ buffer'.take n = buffer.take n ∧
      buffer'[n]? = some c := by
  have hpos : ¬ Int32.ofNat n < 0 := by
    rw [Int32.lt_iff_toInt_lt, Int32.toInt_ofNat_of_lt hmax]
    show ¬ (n : Int) < 0
    omega
  rw [storeChar, if_neg hpos, Int32.toNatClampNeg_ofNat_of_lt hmax]
  exact writeAt_singleton hn c

/-- The next position, and the next size of a block that is full. -/
theorem int_step (hlt : n < m) (hmax : m < 2 ^ 31) :
    Int32.ofNat n + 1 = Int32.ofNat (n + 1) ∧ Int32.ofNat m + bufferSize = Int32.ofNat (m + 1024) ∧
      (Int32.ofNat m ≤ Int32.ofNat (n + 1) ↔ m ≤ n + 1) :=
  ⟨(Int32.ofNat_add n 1).symm, (Int32.ofNat_add m 1024).symm,
    Int32.ofNat_le_iff_le hmax (Nat.lt_of_le_of_lt hlt hmax)⟩

theorem grow_ofNat (hm : m < 2 ^ 31) (memory : Int32 → Memory) (buffer : List UInt8) :
    grow memory buffer (Int32.ofNat m) = some (realloc (memory (Int32.ofNat m)) buffer m) := by
  rw [grow, toSize_ofNat hm, if_pos (by omega)]

/-! ## The loop -/

/-- The end of the line: there is room for the terminator. -/
theorem terminated (hn : n < buffer.length) (hmax : n < 2 ^ 31) :
    ∃ block, (storeChar buffer (Int32.ofNat n) 0).map (fun buffer => (buffer, Int32.ofNat n)) =
        some (block, Int32.ofNat n) ∧ block.take n = buffer.take n ∧ block[n]? = some 0 := by
  obtain ⟨block, hstore, -, -, htake, hget⟩ := storeChar_eq_some hn hmax 0
  exact ⟨block, by rw [hstore, Option.map_some], htake, hget⟩

/-- From a block that has room for one more byte on, the rest of the line is stored behind what there is.
The size of the block is ahead of `position` by at most `BUFFER_SIZE`. -/
theorem readlineLoop_eq_some (memory : Int32 → Memory) (hsize : buffer.length = m) (hlt : n < m)
    (hle : m ≤ n + 1024) (hline : n + (readline input).1.length < 2 ^ 31 - 1024) :
    ∃ block, readlineLoop memory input buffer (Int32.ofNat n) (Int32.ofNat m) =
        some (block, Int32.ofNat (n + (readline input).1.length)) ∧
      block.take (n + (readline input).1.length) = buffer.take n ++ (readline input).1 ∧
      block[n + (readline input).1.length]? = some 0 := by
  induction input generalizing buffer n m with
  | nil =>
    obtain ⟨block, hend, htake, hget⟩ := terminated (hsize ▸ hlt) (by omega)
    exact ⟨block, hend, htake.trans (List.append_nil _).symm, hget⟩
  | cons c input ih =>
    by_cases hc : c = 10
    · obtain ⟨block, hend, htake, hget⟩ := terminated (hsize ▸ hlt) (by omega)
      rw [readlineLoop, readline, if_pos hc, if_pos hc]
      exact ⟨block, hend, htake.trans (List.append_nil _).symm, hget⟩
    · rw [readline, if_neg hc, List.length_cons] at hline
      rw [readlineLoop, readline, if_neg hc, if_neg hc, List.length_cons]
      obtain ⟨buffer', hstore, hsize', htake, -, -⟩ := storeChar_eq_some (hsize ▸ hlt) (by omega) c
      obtain ⟨hnext, hgrown, hfull⟩ := int_step hlt (show m < 2 ^ 31 by omega)
      have hrest : n + ((readline input).1.length + 1) = n + 1 + (readline input).1.length := by omega
      rw [hstore, Option.bind_some, hnext, hgrown, hrest]
      simp only [hfull]
      by_cases hgrow : m ≤ n + 1
      · -- the block is full and grows
        have hrealloc :
            (realloc (memory (Int32.ofNat (m + 1024))) buffer' (m + 1024)).length = m + 1024 :=
          realloc_length
        obtain ⟨block, hloop, hbytes, hget⟩ :=
          ih (n := n + 1) hrealloc (by omega) (by omega) (by omega)
        rw [if_pos hgrow, grow_ofNat (by omega), Option.bind_some]
        refine ⟨block, hloop, ?_, hget⟩
        rw [hbytes, take_realloc (by omega) (by omega), htake, List.append_assoc]
        rfl
      · rw [if_neg hgrow]
        obtain ⟨block, hloop, hbytes, hget⟩ :=
          ih (n := n + 1) (hsize'.trans hsize) (by omega) (by omega) (by omega)
        refine ⟨block, hloop, ?_, hget⟩
        rw [hbytes, htake, List.append_assoc]
        rfl

/-- The line is too long: before its end the block would have to grow to `2 ^ 31` bytes. -/
theorem readlineLoop_eq_none (memory : Int32 → Memory) (hsize : buffer.length = m) (hlt : n < m)
    (hle : m ≤ n + 1024) (hdvd : 1024 ∣ m) (hmax : m ≤ 2 ^ 31 - 1024)
    (hline : 2 ^ 31 - 1024 ≤ n + (readline input).1.length) :
    readlineLoop memory input buffer (Int32.ofNat n) (Int32.ofNat m) = none := by
  have hend : ¬ 2 ^ 31 - 1024 ≤ n + 0 := by omega
  induction input generalizing buffer n m with
  | nil => exact absurd hline hend
  | cons c input ih =>
    by_cases hc : c = 10
    · rw [readline, if_pos hc] at hline
      exact absurd hline hend
    · rw [readline, if_neg hc, List.length_cons] at hline
      obtain ⟨buffer', hstore, hsize', -, -, -⟩ := storeChar_eq_some (hsize ▸ hlt) (by omega) c
      obtain ⟨hnext, hgrown, hfull⟩ := int_step hlt (show m < 2 ^ 31 by omega)
      rw [readlineLoop, if_neg hc, hstore, Option.bind_some, hnext, hgrown]
      simp only [hfull]
      by_cases hgrow : m ≤ n + 1
      · rw [if_pos hgrow]
        by_cases hlast : m = 2 ^ 31 - 1024
        · -- `buffer_size` wraps around
          have hwrap : ¬ toSize (Int32.ofNat (2 ^ 31 - 1024 + 1024)) < 2 ^ 63 := by decide
          rw [hlast, grow, if_neg hwrap, Option.bind_none]
        · have hmax' : m + 1024 ≤ 2 ^ 31 - 1024 := by omega
          rw [grow_ofNat (by omega), Option.bind_some]
          exact ih realloc_length (by omega) (by omega) (Nat.dvd_add hdvd (Nat.dvd_refl 1024)) hmax'
            (by omega) (by omega)
      · rw [if_neg hgrow]
        exact ih (hsize'.trans hsize) (by omega) (by omega) hdvd hmax (by omega) (by omega)

theorem malloc_bufferSize (memory : Int32 → Memory) :
    (malloc (memory bufferSize) (toSize bufferSize)).length = 1024 := by
  have hsize : toSize bufferSize = 1024 := toSize_ofNat (show 1024 < 2 ^ 31 by decide)
  rw [malloc_length, hsize]

theorem readlineIn_eq_none (memory : Int32 → Memory)
    (hline : 2 ^ 31 - 1024 ≤ (readline input).1.length) : readlineIn memory input = none :=
  readlineLoop_eq_none (n := 0) memory (malloc_bufferSize memory) (by decide) (by decide)
    (Nat.dvd_refl 1024) (by decide) (by omega)

/-- The block that is returned for a line that is not too long. -/
theorem readlineIn_eq_some (memory : Int32 → Memory)
    (hline : (readline input).1.length < 2 ^ 31 - 1024) :
    ∃ block, readlineIn memory input = some (block, Int32.ofNat (readline input).1.length) ∧
      block.take (readline input).1.length = (readline input).1 ∧
      block[(readline input).1.length]? = some 0 := by
  obtain ⟨block, hloop, hbytes, hget⟩ := readlineLoop_eq_some (n := 0) memory (malloc_bufferSize memory)
    (by decide) (by decide) (show 0 + (readline input).1.length < _ by omega)
  rw [Nat.zero_add] at hloop hbytes hget
  rw [List.take_zero, List.nil_append] at hbytes
  exact ⟨block, hloop, hbytes, hget⟩

/-- For a line shorter than `2 ^ 31 - 1024`, whether a newline or the end of the input ends it, every store
of `readline` is inside of the block; the block has the line in front of the position of the
terminator. -/
theorem readline_stored (memory : Int32 → Memory) (input : List UInt8)
    (hline : (input.takeWhile (· ≠ 10)).length < 2 ^ 31 - 1024) :
    let line := input.takeWhile (· ≠ 10)
    ∃ block position, readlineIn memory input = some (block, position) ∧
      position.toInt = line.length ∧ block.take line.length = line ∧ block[line.length]? = some 0 := by
  intro line
  rw [← readline_fst] at hline
  obtain ⟨block, hloop, hbytes, hget⟩ := readlineIn_eq_some memory hline
  rw [readline_fst] at hloop hbytes hget hline
  exact ⟨block, _, hloop, Int32.toInt_ofNat_of_lt (by omega), hbytes, hget⟩

/-- A line that fills the first block. -/
theorem full_block_stored : ∃ block position,
    readlineIn (fun _ _ => 0) (List.replicate 1024 97 ++ [10]) = some (block, position) ∧
      position.toInt = 1024 ∧ block.take 1024 = List.replicate 1024 97 ∧ block[1024]? = some 0 := by
  have hpos : ∀ c ∈ List.replicate 1024 (97 : UInt8), decide (c ≠ 10) = true := by
    intro c hc
    rw [List.eq_of_mem_replicate hc]
    rfl
  have hline : (List.replicate 1024 97 ++ [10] : List UInt8).takeWhile (· ≠ 10) =
      List.replicate 1024 97 := by
    rw [List.takeWhile_append_of_pos hpos, List.takeWhile_cons_of_neg (by decide), List.append_nil]
  obtain ⟨block, position, h⟩ := readline_stored (fun _ _ => 0) (List.replicate 1024 97 ++ [10])
    (by rw [hline, List.length_replicate]; decide)
  rw [hline, List.length_replicate] at h
  exact ⟨block, position, h⟩

end SystemsProgramming.MiniShell
