import SystemsProgramming.Hexdump.Checked
import SystemsProgramming.Hexdump.Proofs.LosslessProofs

/-!
# Proofs: accepted options are safe

The options that `parse_arguments` accepts have a width of 1 to 255 and a grouping that is not zero.
With them the dump in the types of the code is the dump in numbers: nothing wraps around, and what could
go wrong does not.
-/

namespace SystemsProgramming.Hexdump

open Foundations

variable {opts : Options} {i n : Nat}

/-! ## Separators -/

theorem remainder_eq (h : opts.Valid) (hi : i < 2 ^ 64) :
    remainder opts (UInt64.ofNat i) = some (UInt64.ofNat (i % opts.grouping.toNat)) := by
  have hpos := h.grouping_pos
  have hne : opts.grouping ≠ 0 := by
    intro hzero
    rw [hzero] at hpos
    exact absurd hpos (by decide)
  have hlt : opts.grouping.toNat < 2 ^ 64 := opts.grouping.toNat_lt.trans (by decide)
  rw [remainder, if_neg hne, ← UInt64.ofNat_uInt32ToNat, UInt64.ofNat_mod hi hlt]

theorem ofNat_eq_zero_iff (hn : n < 2 ^ 64) : UInt64.ofNat n = 0 ↔ n = 0 := by
  rw [← UInt64.toNat_inj, UInt64.toNat_ofNat_of_lt' hn]
  rfl

theorem separatorIn_eq (h : opts.Valid) (hi : i < 2 ^ 64) :
    separatorIn opts (UInt64.ofNat i) = some (separator opts i) := by
  have hpos : 0 < UInt64.ofNat i ↔ 0 < i := by
    rw [UInt64.lt_iff_toNat_lt, UInt64.toNat_ofNat_of_lt' hi]
    rfl
  have hzero : UInt64.ofNat (i % opts.grouping.toNat) = 0 ↔ i % opts.grouping.toNat = 0 :=
    ofNat_eq_zero_iff (Nat.lt_of_le_of_lt (Nat.mod_le ..) hi)
  rw [separatorIn, separator]
  by_cases hi0 : 0 < i
  · rw [if_pos (hpos.2 hi0), remainder_eq h hi, Option.map_some]
    simp only [hzero, hi0, true_and]
  · rw [if_neg fun hlt => hi0 (hpos.1 hlt), if_neg fun hboth => hi0 hboth.1]

/-! ## The data of a line -/

theorem printCellsIn_eq (h : opts.Valid) {bs : List UInt8} (hi : i + bs.length < 2 ^ 64) :
    printCellsIn opts (UInt64.ofNat i) bs = some (printCells opts i bs) := by
  induction bs generalizing i with
  | nil => rfl
  | cons b bs ih =>
    rw [List.length_cons] at hi
    have hnext : UInt64.ofNat i + 1 = UInt64.ofNat (i + 1) := (UInt64.ofNat_add i 1).symm
    rw [printCellsIn, separatorIn_eq h (by omega), hnext, ih (by omega)]
    rfl

/-- The padding count is not negative. -/
theorem missingBytesIn_eq (hn : n ≤ opts.width.toNat) :
    missingBytesIn opts (UInt64.ofNat n) = Int32.ofNat (opts.width.toNat - n) := by
  rw [missingBytesIn, ← UInt64.ofNat_uInt32ToNat, ← UInt64.ofNat_sub hn, UInt64.toUInt32_ofNat',
    UInt32.toInt32_ofNat']

theorem printMissingIn_eq (h : opts.Valid) {missing k : Nat} (hk : k + missing < 2 ^ 31)
    (hn : n < 2 ^ 31) :
    printMissingIn opts (UInt64.ofNat n) missing (Int32.ofNat k) =
      some ((List.range' k missing).flatMap fun k => separator opts (n + k) ++ blank opts) := by
  induction missing generalizing k with
  | zero => rfl
  | succ missing ih =>
    have hmax : (k : Int) ≤ Int32.maxValue.toInt := by
      rw [Int32.toInt_maxValue]
      omega
    have hsum : UInt64.ofNat n + (Int32.ofNat k).toInt64.toUInt64 = UInt64.ofNat (n + k) := by
      rw [Int32.toInt64_ofNat' hmax, Int64.toUInt64_ofNat', UInt64.ofNat_add]
    have hnext : Int32.ofNat k + 1 = Int32.ofNat (k + 1) := (Int32.ofNat_add k 1).symm
    rw [printMissingIn, hsum, separatorIn_eq h (by omega), hnext, ih (by omega), List.range'_succ,
      List.flatMap_cons]
    rfl

theorem printDataIn_eq (h : opts.Valid) {buffer : List UInt8} (hn : n ≤ opts.width.toNat)
    (hlen : (buffer.take n).length = n) :
    printDataIn opts buffer (UInt64.ofNat n) = some (printData opts (buffer.take n)) := by
  have hwidth := h.width_le
  have hnat : (UInt64.ofNat n).toNat = n :=
    UInt64.toNat_ofNat_of_lt' (show n < 2 ^ 64 by omega)
  have hcells : printCellsIn opts 0 (buffer.take n) = some (printCells opts 0 (buffer.take n)) :=
    printCellsIn_eq h (show 0 + (buffer.take n).length < 2 ^ 64 by omega)
  have heq : UInt64.ofNat n = opts.width.toUInt64 ↔ n = opts.width.toNat := by
    rw [← UInt64.toNat_inj, hnat, UInt32.toNat_toUInt64]
  have hmissing : opts.width.toNat - n < 2 ^ 31 := by omega
  have hnonneg : ¬ Int32.ofNat (opts.width.toNat - n) < 0 := by
    rw [Int32.lt_iff_toInt_lt, Int32.toInt_ofNat_of_lt hmissing]
    show ¬ ((opts.width.toNat - n : Nat) : Int) < 0
    omega
  have hcount : (missingBytes opts n).toNat = opts.width.toNat - n := by
    rw [missingBytes]
    omega
  rw [printDataIn, printData, hnat, hcells, hlen]
  by_cases hfull : n = opts.width.toNat
  · simp [hfull]
  · have hblanks : printMissingIn opts (UInt64.ofNat n) (opts.width.toNat - n) 0 = some _ :=
      printMissingIn_eq (k := 0) h (by omega) (by omega)
    have hne : UInt64.ofNat n ≠ opts.width.toUInt64 := fun hsame => hfull (heq.1 hsame)
    simp only [Option.bind_eq_bind, Option.bind_some, if_pos hne, if_pos hfull, missingBytesIn_eq hn,
      if_neg hnonneg, Int32.toNatClampNeg_ofNat_of_lt hmissing, hblanks, hcount, Option.pure_def,
      List.range_eq_range']

/-! ## The dump -/

theorem freadsOf_cons (opts : Options) (bytes : List UInt8) (stream : List (List UInt8)) :
    freadsOf opts (bytes :: stream) =
      if bytes.take opts.width.toNat = [] then []
      else bytes.take opts.width.toNat :: freadsOf opts stream := by
  rw [freadsOf, List.map_cons, List.takeWhile_cons]
  by_cases hnil : bytes.take opts.width.toNat = []
  · simp [hnil]
  · simp [hnil, freadsOf]

theorem hexdumpLoop_eq (h : opts.Valid) {buffer : List UInt8} (hbuffer : buffer.length = 256)
    (offset : UInt64) (stream : List (List UInt8)) :
    hexdumpLoop opts buffer offset stream = some (hexdump opts offset (freadsOf opts stream)) := by
  have hwidth := h.width_le
  induction stream generalizing buffer offset with
  | nil => rfl
  | cons bytes stream ih =>
    rw [hexdumpLoop, freadsOf_cons]
    by_cases hnil : bytes.take opts.width.toNat = []
    · simp only [if_pos hnil, hexdump]
    · have hle : (bytes.take opts.width.toNat).length ≤ opts.width.toNat := List.length_take_le ..
      simp only [if_neg hnil]
      generalize bytes.take opts.width.toNat = red at hle hnil ⊢
      have hroom : red.length ≤ buffer.length := by omega
      obtain ⟨buffer', hwrite, hbuffer', htake⟩ := writeAt_zero hroom
      have hdata : printDataIn opts buffer' (UInt64.ofNat red.length) = _ :=
        printDataIn_eq h hle (by rw [htake])
      rw [hwrite, Option.bind_eq_bind, Option.bind_some, hdata, htake]
      simp only [Option.bind_some, ih (hbuffer'.trans hbuffer), Option.pure_def, hexdump, printLine]

/-- With options that `parse_arguments` has accepted, whatever they are, `hexdump` reads no more than its
buffer has room for, takes no remainder by zero and has no negative padding count, on every stream. It
writes the dump of what it has read. -/
theorem accepted_options_safe {options : List Opt} {arguments : List String}
    (h : parseArguments options arguments = .ok opts) (stack : Memory) (stream : List (List UInt8)) :
    hexdumpIn opts stack stream = some (hexdump opts 0 (freadsOf opts stream)) :=
  hexdumpLoop_eq (parseArguments_valid h) bytesAt_length 0 stream

/-- The widest line, and the last of two groupings. -/
theorem widest_line_safe :
    parseArguments [.width 255, .group 8, .group 4] ["a"] =
      .ok { width := 255, grouping := 4, filename := some "a" } ∧
    hexdumpIn { width := 255, grouping := 4, filename := some "a" } (fun _ => 0) [[0], [1, 2]] =
      some (hexdump { width := 255, grouping := 4, filename := some "a" } 0 [[0], [1, 2]]) := by
  have h : parseArguments [.width 255, .group 8, .group 4] ["a"] =
      .ok { width := 255, grouping := 4, filename := some "a" } := rfl
  exact ⟨h, accepted_options_safe h (fun _ => 0) [[0], [1, 2]]⟩

end SystemsProgramming.Hexdump
