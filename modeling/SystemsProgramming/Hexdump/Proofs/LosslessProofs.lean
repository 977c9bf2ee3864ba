import SystemsProgramming.Foundations.Rows
import SystemsProgramming.Hexdump.Reader

/-!
# Proofs: a dump can be read back

The data of a line is a row of cells of equal width, a blank cell for each byte that is missing, so
every cell is found at its column; the first blank cell ends the bytes, since no byte is written with
spaces. A line has no newline in it, because what is not printable is shown as a dot.
-/

namespace SystemsProgramming.Hexdump

open Foundations

variable {opts : Options} {buffer : List UInt8}

/-! ## The options -/

theorem Options.Valid.grouping_pos (h : opts.Valid) : 0 < opts.grouping.toNat := by
  rcases h.grouping_mem with hg | hg | hg | hg <;> rw [hg] <;> decide

/-- Every option that is accepted leaves the width and the grouping in their ranges. -/
theorem parseOption_valid {opts' : Options} {opt : Opt} (hopts : opts.Valid)
    (h : parseOption opts opt = .ok opts') : opts'.Valid := by
  cases opt with
  | width optarg =>
    simp only [parseOption] at h
    split at h
    · cases h
    · rename_i hw
      cases h
      simp only [not_or, UInt32.not_lt, gt_iff_lt, UInt32.le_iff_toNat_le] at hw
      exact ⟨hw.1, hw.2, hopts.grouping_mem⟩
  | group optarg =>
    simp only [parseOption] at h
    split at h
    · cases h
    · rename_i hg
      cases h
      refine ⟨hopts.width_pos, hopts.width_le, ?_⟩
      simp only [ne_eq] at hg
      tauto
  | noAscii | noOffset | decimalOffset | binary | output =>
    cases h
    exact ⟨hopts.width_pos, hopts.width_le, hopts.grouping_mem⟩
  | help | unknown => cases h

/-- What `parse_arguments` accepts is valid, whatever the options, their order and their arguments. -/
theorem parseArguments_valid {options : List Opt} {arguments : List String}
    (h : parseArguments options arguments = .ok opts) : opts.Valid := by
  have hfold : ∀ (options : List Opt) (o o' : Options), o.Valid →
      options.foldlM parseOption o = .ok o' → o'.Valid := by
    intro options
    induction options with
    | nil =>
      intro o o' ho h
      cases h
      exact ho
    | cons opt options ih =>
      intro o o' ho h
      rw [List.foldlM_cons] at h
      cases hopt : parseOption o opt with
      | error e =>
        rw [hopt] at h
        cases h
      | ok o1 =>
        rw [hopt] at h
        exact ih o1 o' (parseOption_valid ho hopt) h
  unfold parseArguments at h
  split at h
  · cases h
  · rename_i o ho
    have hvalid := hfold options {} o ⟨by decide, by decide, Or.inl rfl⟩ ho
    cases arguments with
    | nil => cases h
    | cons filename arguments =>
      cases h
      exact ⟨hvalid.width_pos, hvalid.width_le, hvalid.grouping_mem⟩

/-! ## The cells -/

theorem length_blank (opts : Options) : (blank opts).length = opts.cellWidth := by
  unfold blank Options.cellWidth
  cases opts.dataFormat <;> rfl

theorem length_cell (opts : Options) (b : UInt8) : (cell opts b).length = opts.cellWidth := by
  have hb := b.toNat_lt
  unfold cell Options.cellWidth
  cases opts.dataFormat with
  | hex => exact length_zeroPadded_numeral (show 1 < 16 by decide) (show 0 < 2 by decide) hb
  | binary =>
    have hbit : ∀ j, (numeral 10 (b.toNat >>> j &&& 1)).length = 1 := by
      intro j
      rw [Nat.and_one_is_mod, numeral, List.length_map, Nat.toDigits_of_lt_base (by omega)]
      rfl
    simp only [List.flatMap_cons, List.flatMap_nil, List.length_append, hbit, List.length_nil]

/-- The bits of a byte, from the highest to the lowest, are its binary numeral. -/
theorem readNumeral_bits (b : UInt8) :
    readNumeral 2 ([7, 6, 5, 4, 3, 2, 1, 0].flatMap fun j => numeral 10 (b.toNat >>> j &&& 1)) =
      some b.toNat := by
  have hbit : ∀ j, numeral 10 (b.toNat >>> j &&& 1) = [digitByte (b.toNat / 2 ^ j % 2)] := by
    intro j
    rw [Nat.and_one_is_mod, Nat.shiftRight_eq_div_pow, numeral,
      Nat.toDigits_of_lt_base (show b.toNat / 2 ^ j % 2 < 10 by omega)]
    rfl
  have hdigit : ∀ j, (hexDigit (digitByte (b.toNat / 2 ^ j % 2))) =
      some (UInt8.ofNat (b.toNat / 2 ^ j % 2)) := fun j => hexDigit_digitByte (by omega)
  have htoNat : ∀ j, (UInt8.ofNat (b.toNat / 2 ^ j % 2)).toNat = b.toNat / 2 ^ j % 2 := by
    intro j
    rw [UInt8.toNat_ofNat', Nat.mod_eq_of_lt (by omega)]
  have hstep : ∀ j, 2 * (b.toNat / 2 ^ (j + 1)) + b.toNat / 2 ^ j % 2 = b.toNat / 2 ^ j := by
    intro j
    rw [Nat.pow_succ, ← Nat.div_div_eq_div_mul]
    exact Nat.div_add_mod _ 2
  have htop : 2 * 0 + b.toNat / 2 ^ 7 % 2 = b.toNat / 2 ^ 7 := by
    have hzero : b.toNat / 2 ^ (7 + 1) = 0 := Nat.div_eq_of_lt b.toNat_lt
    rw [← hzero, hstep]
  simp only [List.flatMap_cons, List.flatMap_nil, hbit, readNumeral, List.cons_append,
    List.nil_append, List.foldlM_cons, List.foldlM_nil, hdigit, Option.map_some, Option.bind_eq_bind,
    Option.bind_some, htoNat]
  rw [Option.pure_def]
  congr 1
  -- from the highest bit on, each bit completes the quotient by its power of two
  rw [htop, hstep 6, hstep 5, hstep 4, hstep 3, hstep 2, hstep 1, hstep 0, Nat.pow_zero, Nat.div_one]

/-- A byte is read back from its cell. -/
theorem readCell_cell (opts : Options) (b : UInt8) : readCell opts (cell opts b) = some b := by
  have h : readNumeral opts.cellBase (cell opts b) = some b.toNat := by
    unfold Options.cellBase cell
    cases opts.dataFormat with
    | hex =>
      simp only
      rw [readNumeral_zeroPadded, readNumeral_numeral (by decide) (by decide)]
    | binary => exact readNumeral_bits b
  rw [readCell, h, Option.map_some, UInt8.ofNat_toNat]

theorem cell_ne_blank (opts : Options) (b : UInt8) : cell opts b ≠ blank opts := by
  intro h
  have hread := readCell_cell opts b
  have hblank : readCell opts (blank opts) = none := by
    unfold readCell blank Options.cellBase
    cases opts.dataFormat <;> decide
  rw [h, hblank] at hread
  cases hread

/-! ## The data of a line -/

/-- The cells of a line: its bytes, and the blank cells of those that are missing. -/
def cells (opts : Options) (buffer : List UInt8) : List (List UInt8) :=
  buffer.map (cell opts) ++ List.replicate (opts.width.toNat - buffer.length) (blank opts)

theorem length_of_mem_cells {c : List UInt8} (h : c ∈ cells opts buffer) :
    c.length = opts.cellWidth := by
  rcases List.mem_append.1 h with h | h
  · obtain ⟨b, -, rfl⟩ := List.mem_map.1 h
    exact length_cell opts b
  · rw [List.eq_of_mem_replicate h]
    exact length_blank opts

theorem length_cells (h : buffer.length ≤ opts.width.toNat) :
    (cells opts buffer).length = opts.width.toNat := by
  rw [cells, List.length_append, List.length_map, List.length_replicate]
  omega

theorem printCells_eq_row (opts : Options) (i : Nat) (bs : List UInt8) :
    printCells opts i bs = row (separator opts) i (bs.map (cell opts)) := by
  induction bs generalizing i with
  | nil => rfl
  | cons b bs ih => rw [printCells, ih, List.map_cons, row]

/-- The padding loop writes blank cells. -/
theorem padding_eq_row (opts : Options) (i n : Nat) :
    ((List.range n).flatMap fun k => separator opts (i + k) ++ blank opts) =
      row (separator opts) i (List.replicate n (blank opts)) := by
  induction n generalizing i with
  | zero => rfl
  | succ n ih =>
    rw [List.range_succ_eq_map, List.flatMap_cons, List.flatMap_map, List.replicate_succ, row,
      ← ih (i + 1), Nat.add_zero]
    congr 1
    refine List.flatMap_congr fun k _ => ?_
    rw [Nat.succ_eq_add_one, show i + (k + 1) = i + 1 + k by omega]

theorem printData_eq_row (h : buffer.length ≤ opts.width.toNat) :
    printData opts buffer = row (separator opts) 0 (cells opts buffer) := by
  have hmissing : (missingBytes opts buffer.length).toNat = opts.width.toNat - buffer.length := by
    unfold missingBytes
    omega
  unfold printData
  rw [printCells_eq_row, hmissing, padding_eq_row, cells, row_append, List.length_map, Nat.zero_add]
  split
  · rfl
  · rename_i hlen
    have hlen' : opts.width.toNat - buffer.length = 0 := by
      rw [not_not] at hlen
      omega
    rw [hlen', List.replicate_zero, row]

theorem length_separator (h : opts.Valid) (i : Nat) :
    (separator opts (i + 1)).length =
      2 * ((i + 1) / opts.grouping.toNat) - 2 * (i / opts.grouping.toNat) := by
  have hg := h.grouping_pos
  unfold separator
  rw [Nat.succ_div]
  by_cases hdvd : opts.grouping.toNat ∣ i + 1
  · rw [if_pos ⟨Nat.succ_pos i, Nat.mod_eq_zero_of_dvd hdvd⟩, if_pos hdvd]
    have hlen : (ascii "  ").length = 2 := rfl
    omega
  · rw [if_neg (fun hc => hdvd (Nat.dvd_of_mod_eq_zero hc.2)), if_neg hdvd]
    simp

/-- The cells start where a reader looks for them. -/
theorem cellColumn_separator (h : opts.Valid) (i : Nat) :
    cellColumn (separator opts) opts.cellWidth i = opts.cellStart i := by
  unfold cellColumn Options.cellStart
  induction i with
  | zero => simp [rowEnd, separator]
  | succ i ih =>
    have hmono : i / opts.grouping.toNat ≤ (i + 1) / opts.grouping.toNat :=
      Nat.div_le_div_right (Nat.le_succ i)
    rw [rowEnd, ih, length_separator h, Nat.add_mul, Nat.one_mul]
    omega

theorem length_printData (h : opts.Valid) (hbuffer : buffer.length ≤ opts.width.toNat) :
    (printData opts buffer).length = opts.dataWidth := by
  rw [printData_eq_row hbuffer, length_row fun c hc => length_of_mem_cells hc, length_cells hbuffer]
  obtain ⟨w, hw⟩ := Nat.exists_eq_add_of_le' h.width_pos
  have hcol := cellColumn_separator h w
  unfold cellColumn Options.cellStart at hcol
  rw [Options.dataWidth, hw, rowEnd, Nat.add_sub_cancel, Nat.add_mul, Nat.one_mul]
  omega

/-- Each cell of the data is found at its column. -/
theorem map_cellAt_printData (h : opts.Valid) (hbuffer : buffer.length ≤ opts.width.toNat)
    (rest : List UInt8) :
    (List.range opts.width.toNat).map (cellAt opts (printData opts buffer ++ rest)) =
      cells opts buffer := by
  refine List.ext_getElem (by simp [length_cells hbuffer]) fun i h1 h2 => ?_
  have hpre : ([] : List UInt8).length = rowEnd (separator opts) opts.cellWidth 0 := rfl
  have hcell := take_drop_row (fun c hc => length_of_mem_cells hc) hpre h2 rest
  rw [Nat.zero_add, cellColumn_separator h, List.nil_append, ← printData_eq_row hbuffer] at hcell
  rw [List.getElem_map, List.getElem_range, cellAt, hcell]

/-- The bytes of a line are read back from its data. -/
theorem readData_printData (h : opts.Valid) (hbuffer : buffer.length ≤ opts.width.toNat)
    (rest : List UInt8) : readData opts (printData opts buffer ++ rest) = some buffer := by
  have htake : (cells opts buffer).takeWhile (· ≠ blank opts) = buffer.map (cell opts) := by
    have hcells : ∀ c ∈ buffer.map (cell opts), decide (c ≠ blank opts) = true := by
      intro c hc
      obtain ⟨b, -, rfl⟩ := List.mem_map.1 hc
      exact decide_eq_true (cell_ne_blank opts b)
    rw [cells, List.takeWhile_append_of_pos hcells]
    cases opts.width.toNat - buffer.length <;> simp [List.replicate_succ]
  rw [readData, map_cellAt_printData h hbuffer, htake,
    mapM_map_of_some fun b _ => readCell_cell opts b, List.map_id']

/-! ## A line -/

theorem readNumeral_offset (opts : Options) (offset : UInt64) :
    ∃ digits, printOffset opts offset = digits ++ ascii ":  " ∧
      readNumeral opts.offsetBase digits = some offset.toNat := by
  unfold printOffset Options.offsetBase
  cases opts.offsetFormat with
  | hex =>
    exact ⟨_, rfl, by rw [readNumeral_zeroPadded, readNumeral_numeral (by decide) (by decide)]⟩
  | decimal =>
    exact ⟨_, rfl, by rw [readNumeral_zeroPadded, readNumeral_numeral (by decide) (by decide)]⟩

theorem not_mem_digits {base v : Nat} {digits : List UInt8} {c : UInt8}
    (h : readNumeral base digits = some v) (hc : hexDigit c = none) : c ∉ digits :=
  fun hmem => hexDigit_of_readNumeral h c hmem hc

/-- The offset is read back, and what follows it is left. -/
theorem readOffset_printOffset (opts : Options) (offset : UInt64) (rest : List UInt8) :
    readOffset opts (printOffset opts offset ++ rest) = some (offset.toNat, rest) := by
  obtain ⟨digits, hdigits, hread⟩ := readNumeral_offset opts offset
  have hcolon : 58 ∉ digits := not_mem_digits hread (by decide)
  have hsplit : printOffset opts offset ++ rest = digits ++ 58 :: (ascii "  " ++ rest) := by
    rw [hdigits, List.append_assoc]
    rfl
  rw [readOffset, hsplit, takeWhile_append_cons hcolon,
    List.dropWhile_append_of_pos (ne_of_not_mem hcolon), hread]
  rfl

/-- A line is read back, and all of it. -/
theorem readLine_printLine (h : opts.Valid) (hbuffer : buffer.length ≤ opts.width.toNat)
    (offset : UInt64) :
    readLine opts (printLine opts offset buffer) =
      some ⟨if opts.showOffset then some offset.toNat else none, buffer,
        if opts.showAscii then some (buffer.map asciiByte) else none⟩ := by
  have htext : (if opts.showAscii then some ((printData opts buffer ++
      if opts.showAscii then printAscii buffer else []).drop (opts.dataWidth + 2)) else none) =
      if opts.showAscii then some (buffer.map asciiByte) else none := by
    cases opts.showAscii with
    | false => rfl
    | true =>
      simp only [if_true]
      rw [← List.drop_drop, ← length_printData h hbuffer, List.drop_left]
      rfl
  unfold readLine printLine
  cases opts.showOffset with
  | false =>
    simp only [Bool.false_eq_true, if_false, List.nil_append, Option.bind_eq_bind, Option.bind_some,
      readData_printData h hbuffer, htext]
    rfl
  | true =>
    simp only [if_true, List.append_assoc, readOffset_printOffset, Option.map_some,
      Option.bind_eq_bind, Option.bind_some, readData_printData h hbuffer, htext]
    rfl

/-! ## The lines of a dump -/

theorem newline_not_mem_printLine (opts : Options) (offset : UInt64) (buffer : List UInt8) :
    10 ∉ printLine opts offset buffer := by
  have hsep : ∀ i, 10 ∉ separator opts i := by
    intro i
    unfold separator
    split <;> decide
  have hblank : 10 ∉ blank opts := by
    unfold blank
    cases opts.dataFormat <;> decide
  have hcell : ∀ b, 10 ∉ cell opts b := by
    intro b
    have hread := readCell_cell opts b
    rw [readCell, Option.map_eq_some_iff] at hread
    obtain ⟨v, hv, -⟩ := hread
    exact not_mem_digits hv (by decide)
  have hcells : ∀ i bs, 10 ∉ printCells opts i bs := by
    intro i bs
    induction bs generalizing i with
    | nil => simp [printCells]
    | cons b bs ih => simp [printCells, hsep, hcell, ih]
  have hoffset : 10 ∉ printOffset opts offset := by
    obtain ⟨digits, hdigits, hread⟩ := readNumeral_offset opts offset
    have hcolon : 10 ∉ ascii ":  " := by decide
    rw [hdigits, List.mem_append, not_or]
    exact ⟨not_mem_digits hread (by decide), hcolon⟩
  have hascii : ∀ b, asciiByte b ≠ 10 := by
    intro b
    unfold asciiByte
    split
    · rename_i hb
      rintro rfl
      exact absurd hb (by decide)
    · decide
  have htext : 10 ∉ printAscii buffer := by
    have hspaces : 10 ∉ ascii "  " := by decide
    rw [printAscii, List.mem_append, not_or]
    refine ⟨hspaces, fun hmem => ?_⟩
    obtain ⟨b, -, hb⟩ := List.mem_map.1 hmem
    exact hascii b hb
  have hdata : 10 ∉ printData opts buffer := by
    rw [printData, List.mem_append, not_or]
    refine ⟨hcells 0 buffer, ?_⟩
    split
    · intro hmem
      obtain ⟨k, -, hk⟩ := List.mem_flatMap.1 hmem
      rcases List.mem_append.1 hk with hk | hk
      · exact hsep _ hk
      · exact hblank hk
    · simp
  rw [printLine, List.mem_append, List.mem_append, not_or, not_or]
  refine ⟨⟨?_, hdata⟩, ?_⟩ <;> split
  · exact hoffset
  · simp
  · exact htext
  · simp

theorem takeLine_append {line : List UInt8} (h : 10 ∉ line) (rest : List UInt8) :
    takeLine (line ++ ascii "\n" ++ rest) = some (line, rest) := by
  have hsplit : line ++ ascii "\n" ++ rest = line ++ 10 :: rest := by
    rw [List.append_assoc]
    rfl
  rw [takeLine, hsplit, if_pos (by simp), takeWhile_append_cons h,
    List.dropWhile_append_of_pos (ne_of_not_mem h)]
  rfl

/-- The lines of the dump: the piece `r` of the file stands on the line `r`, with its offset. -/
def dumpLines (opts : Options) (file : List UInt8) : List (List UInt8) :=
  (freads opts file).zipIdx.map fun p =>
    printLine opts (UInt64.ofNat (p.2 * opts.width.toNat)) p.1

theorem hexdump_eq_flatMap (h : opts.Valid) (r : Nat) (file : List UInt8) :
    hexdump opts (UInt64.ofNat (r * opts.width.toNat)) (freads opts file) =
      ((freads opts file).zipIdx r).flatMap fun p =>
        printLine opts (UInt64.ofNat (p.2 * opts.width.toNat)) p.1 ++ ascii "\n" := by
  have hw : 0 < opts.width.toNat := h.width_pos
  unfold freads
  induction file using chunks_induction hw generalizing r with
  | nil => rfl
  | drop file hne ih =>
    rw [chunks_of_ne_nil hw hne, hexdump, List.zipIdx_cons, List.flatMap_cons]
    congr 1
    by_cases hlast : file.drop opts.width.toNat = []
    · rw [hlast]
      rfl
    · -- this piece is not the last one, so it is a full one
      have hlen : (file.take opts.width.toNat).length = opts.width.toNat := by
        rw [List.drop_eq_nil_iff] at hlast
        rw [List.length_take]
        omega
      rw [hlen, ← UInt64.ofNat_add, ← Nat.succ_mul]
      exact ih (r + 1)

theorem dump_eq_flatMap (h : opts.Valid) (file : List UInt8) :
    dump opts file = (dumpLines opts file).flatMap (· ++ ascii "\n") := by
  have hdump := hexdump_eq_flatMap h 0 file
  rw [Nat.zero_mul] at hdump
  rw [dump, dumpLines, List.flatMap_map]
  exact hdump

theorem lines_dump (h : opts.Valid) (file : List UInt8) :
    lines (dump opts file) = some (dumpLines opts file) := by
  rw [dump_eq_flatMap h, lines]
  refine readRecords_flatMap (fun line hline rest => ?_) fun line _ => by simp [ascii]
  obtain ⟨p, -, rfl⟩ := List.mem_map.1 hline
  exact takeLine_append (newline_not_mem_printLine opts _ _) rest

theorem length_dumpLines (h : opts.Valid) (file : List UInt8) :
    (dumpLines opts file).length =
      (file.length + opts.width.toNat - 1) / opts.width.toNat := by
  rw [dumpLines, List.length_map, List.length_zipIdx, freads, length_chunks h.width_pos]

theorem getElem_dumpLines (h : opts.Valid) (file : List UInt8) (r : Nat)
    (hr : r < (dumpLines opts file).length) :
    (dumpLines opts file)[r] = printLine opts (UInt64.ofNat (r * opts.width.toNat))
      ((file.drop (r * opts.width.toNat)).take opts.width.toNat) := by
  have hr' : r < (freads opts file).length := by
    rwa [dumpLines, List.length_map, List.length_zipIdx] at hr
  have hpiece : (freads opts file)[r] =
      (file.drop (r * opts.width.toNat)).take opts.width.toNat := getElem_chunks h.width_pos hr'
  simp only [dumpLines, List.getElem_map, List.getElem_zipIdx, Nat.zero_add, hpiece]

/-- What the reader finds on a line. -/
theorem readLine_dumpLines (h : opts.Valid) (file : List UInt8) (r : Nat)
    (hr : r < (dumpLines opts file).length) :
    readLine opts (dumpLines opts file)[r] =
      some ⟨if opts.showOffset then some (r * opts.width.toNat % 2 ^ 64) else none,
        (file.drop (r * opts.width.toNat)).take opts.width.toNat,
        if opts.showAscii then
          some (((file.drop (r * opts.width.toNat)).take opts.width.toNat).map asciiByte)
        else none⟩ := by
  rw [getElem_dumpLines h, readLine_printLine h (List.length_take_le ..), UInt64.toNat_ofNat']

/-- The file is recovered from its dump. -/
theorem decode_dump (h : opts.Valid) (file : List UInt8) :
    decode opts (dump opts file) = some file := by
  have hread : ∀ p ∈ (freads opts file).zipIdx,
      readLine opts (printLine opts (UInt64.ofNat (p.2 * opts.width.toNat)) p.1) = some
        ⟨if opts.showOffset then some (UInt64.ofNat (p.2 * opts.width.toNat)).toNat else none, p.1,
          if opts.showAscii then some (p.1.map asciiByte) else none⟩ := by
    intro p hp
    have hmem : p.1 ∈ freads opts file := List.fst_mem_of_mem_zipIdx hp
    exact readLine_printLine h (ne_nil_of_mem_chunks h.width_pos hmem).2 _
  have hbytes : (freads opts file).zipIdx.flatMap Prod.fst = file := by
    rw [List.flatMap_def, List.zipIdx_map_fst, freads, flatten_chunks h.width_pos]
  rw [decode, lines_dump h, dumpLines, Option.bind_eq_bind, Option.bind_some,
    mapM_map_of_some hread, Option.bind_eq_bind, Option.bind_some, List.flatMap_map]
  exact congrArg some hbytes

/-- The dump has a line for every `width` bytes begun. The line with the number `r` has the offset
`r * width`, its data are the bytes from there on, and there is one character for each of them. The
file is recovered, so two files never have the same dump. -/
theorem hexdump_lossless (h : opts.Valid) (file : List UInt8) :
    (∃ ls, lines (dump opts file) = some ls ∧
      ls.length = (file.length + opts.width.toNat - 1) / opts.width.toNat ∧
      ∀ (r : Nat) (hr : r < ls.length), ∃ bytes,
        bytes = (file.drop (r * opts.width.toNat)).take opts.width.toNat ∧
        readLine opts ls[r] = some
          ⟨if opts.showOffset then some (r * opts.width.toNat % 2 ^ 64) else none, bytes,
            if opts.showAscii then some (bytes.map asciiByte) else none⟩ ∧
        (file.length ≤ 2 ^ 64 → r * opts.width.toNat % 2 ^ 64 = r * opts.width.toNat)) ∧
    decode opts (dump opts file) = some file ∧
    ∀ file', dump opts file = dump opts file' → file = file' := by
  refine ⟨⟨dumpLines opts file, lines_dump h file, length_dumpLines h file, fun r hr => ?_⟩,
    decode_dump h file, fun file' heq => ?_⟩
  · refine ⟨_, rfl, readLine_dumpLines h file r hr, fun hlen => Nat.mod_eq_of_lt ?_⟩
    have hw : 0 < opts.width.toNat := h.width_pos
    have hr' : (r + 1) * opts.width.toNat ≤ file.length + opts.width.toNat - 1 := by
      rw [length_dumpLines h] at hr
      exact (Nat.le_div_iff_mul_le hw).1 hr
    rw [Nat.add_mul, Nat.one_mul] at hr'
    omega
  · have hread := decode_dump h file
    rw [heq, decode_dump h file'] at hread
    exact (Option.some.inj hread).symm

/-- Three bytes to a line in groups of two, for a file whose last line is short and whose text looks
like a part of the dump. -/
theorem hexdump_lossless_short_line :
    (⟨3, false, true, .decimal, .binary, 2, none, none⟩ : Options).Valid ∧
    decode ⟨3, false, true, .decimal, .binary, 2, none, none⟩
      (dump ⟨3, false, true, .decimal, .binary, 2, none, none⟩ (ascii "0A: ")) =
        some (ascii "0A: ") := by
  have h : (⟨3, false, true, .decimal, .binary, 2, none, none⟩ : Options).Valid :=
    ⟨by decide, by decide, Or.inr (Or.inl rfl)⟩
  exact ⟨h, (hexdump_lossless h (ascii "0A: ")).2.1⟩

end SystemsProgramming.Hexdump
