import SystemsProgramming.Hexdump.Proofs.LosslessProofs

/-!
# Proofs: the columns of a dump

The loop over the bytes and the one over the cells that are missing write one row of cells: the second
goes on with the number at which the first has stopped, so the separators do not depend on where that
is.
-/

namespace SystemsProgramming.Hexdump

open Foundations

variable {opts : Options} {buffer : List UInt8} {i : Nat}

/-! ## The cells of a line -/

/-- What `print_data` has written when it comes to the cell `i`: the cells of the bytes before it, those
of the missing bytes before it, and its separator. -/
def writtenBefore (opts : Options) (buffer : List UInt8) (i : Nat) : List UInt8 :=
  printCells opts 0 (buffer.take i) ++
    ((List.range (i - buffer.length)).flatMap fun k =>
      separator opts (buffer.length + k) ++ blank opts) ++
    separator opts i

/-- The cell `i`: that of a byte, or a blank one. -/
def cellOrBlank (opts : Options) (buffer : List UInt8) (i : Nat) : List UInt8 :=
  match buffer[i]? with
  | some b => cell opts b
  | none => blank opts

theorem getElem_cells (hi : i < (cells opts buffer).length) :
    (cells opts buffer)[i] = cellOrBlank opts buffer i := by
  unfold cellOrBlank
  by_cases hbyte : i < buffer.length
  · have hmap : i < (buffer.map (cell opts)).length := by rwa [List.length_map]
    simp only [cells, List.getElem_append_left hmap, List.getElem_map, List.getElem?_eq_getElem hbyte]
  · have hmap : (buffer.map (cell opts)).length ≤ i := by
      rw [List.length_map]
      omega
    simp only [cells, List.getElem_append_right hmap, List.getElem_replicate,
      List.getElem?_eq_none (Nat.le_of_not_lt hbyte)]

/-- The first cells of a line are the bytes before a cell and the missing ones before it. -/
theorem take_cells (hi : i ≤ opts.width.toNat) : (cells opts buffer).take i =
    (buffer.take i).map (cell opts) ++ List.replicate (i - buffer.length) (blank opts) := by
  rw [cells, List.take_append, List.length_map, List.map_take, List.take_replicate]
  congr 2
  omega

theorem writtenBefore_eq_row (hi : i ≤ opts.width.toNat) : writtenBefore opts buffer i =
    row (separator opts) 0 ((cells opts buffer).take i) ++ separator opts i := by
  rw [writtenBefore, take_cells hi, row_append, printCells_eq_row, padding_eq_row]
  congr 2
  rw [List.length_map, List.length_take, Nat.zero_add]
  by_cases hmissing : i ≤ buffer.length
  · rw [Nat.sub_eq_zero_of_le hmissing]
    rfl
  · rw [Nat.min_eq_right (by omega)]

/-- The cell `i` starts where a reader looks for it, whether it holds a byte or not. -/
theorem length_writtenBefore (h : opts.Valid) (hbuffer : buffer.length ≤ opts.width.toNat)
    (hi : i ≤ opts.width.toNat) : (writtenBefore opts buffer i).length = opts.cellStart i := by
  have hcells : i ≤ (cells opts buffer).length := by rwa [length_cells hbuffer]
  rw [writtenBefore_eq_row hi, List.length_append,
    length_row_take (fun c hc => length_of_mem_cells hc) hcells]
  exact cellColumn_separator h i

theorem writtenBefore_append_prefix (hbuffer : buffer.length ≤ opts.width.toNat)
    (hi : i < opts.width.toNat) :
    writtenBefore opts buffer i ++ cellOrBlank opts buffer i <+: printData opts buffer := by
  have hcells : i < (cells opts buffer).length := by rwa [length_cells hbuffer]
  rw [writtenBefore_eq_row (Nat.le_of_lt hi), ← getElem_cells hcells, printData_eq_row hbuffer,
    row_eq_take_append _ hcells]
  exact List.prefix_append ..

/-! ## The column of the characters -/

/-- The columns in front of the characters of a line whose offset has eight digits. -/
def asciiColumn (opts : Options) : Nat := (if opts.showOffset then 8 + 3 else 0) + opts.dataWidth

theorem length_printOffset {offset : UInt64} (h : offset.toNat < opts.offsetBase ^ 8) :
    (printOffset opts offset).length = 8 + 3 := by
  unfold Options.offsetBase at h
  unfold printOffset
  cases hformat : opts.offsetFormat with
  | hex | decimal =>
    rw [hformat] at h
    rw [List.length_append, length_zeroPadded_numeral (by decide) (by decide) h]
    rfl

theorem printLine_eq (h : opts.Valid) (hbuffer : buffer.length ≤ opts.width.toNat) {offset : UInt64}
    (hoffset : opts.showOffset = true → offset.toNat < opts.offsetBase ^ 8)
    (hascii : opts.showAscii = true) :
    ∃ columns, printLine opts offset buffer = columns ++ printAscii buffer ∧
      columns.length = asciiColumn opts := by
  refine ⟨(if opts.showOffset then printOffset opts offset else []) ++ printData opts buffer, ?_, ?_⟩
  · rw [printLine, if_pos hascii]
  · rw [List.length_append, length_printData h hbuffer, asciiColumn]
    cases hshow : opts.showOffset with
    | false => rfl
    | true =>
      rw [if_pos rfl, length_printOffset (hoffset hshow)]
      rfl

/-- The data of a line always take the same columns, and so does each of its cells, whether it holds a
byte or not. On every line of a dump whose offset has eight digits, if there are offsets, the characters
start at the same column. -/
theorem columns_aligned (h : opts.Valid) :
    (∀ buffer, buffer.length ≤ opts.width.toNat →
      (printData opts buffer).length = opts.width.toNat * opts.cellWidth +
        2 * ((opts.width.toNat - 1) / opts.grouping.toNat) ∧
      ∀ i < opts.width.toNat,
        (writtenBefore opts buffer i).length =
          i * opts.cellWidth + 2 * (i / opts.grouping.toNat) ∧
        writtenBefore opts buffer i ++ cellOrBlank opts buffer i <+: printData opts buffer) ∧
    ∀ file, ∃ ls, lines (dump opts file) = some ls ∧
      ls.length = (file.length + opts.width.toNat - 1) / opts.width.toNat ∧
      ∀ (r : Nat) (hr : r < ls.length), opts.showAscii = true →
        (opts.showOffset = true → r * opts.width.toNat % 2 ^ 64 < opts.offsetBase ^ 8) →
        ∃ columns, ls[r] = columns ++
            printAscii ((file.drop (r * opts.width.toNat)).take opts.width.toNat) ∧
          columns.length = asciiColumn opts := by
  refine ⟨fun buffer hbuffer => ⟨length_printData h hbuffer, fun i hi => ?_⟩, fun file => ?_⟩
  · exact ⟨length_writtenBefore h hbuffer (Nat.le_of_lt hi), writtenBefore_append_prefix hbuffer hi⟩
  · refine ⟨dumpLines opts file, lines_dump h file, length_dumpLines h file, ?_⟩
    intro r hr hascii hoffset
    rw [getElem_dumpLines h]
    refine printLine_eq h (List.length_take_le ..) (fun hshow => ?_) hascii
    rw [UInt64.toNat_ofNat']
    exact hoffset hshow

/-- Five bytes to a line in groups of four: the second line ends behind the first group, and its
characters start below those of the first line. -/
theorem short_line_aligned :
    (printData { width := 5, grouping := 4 } (ascii "nine")).length = 12 ∧
    ∃ ls, lines (dump { width := 5, grouping := 4 } (ascii "five nine")) = some ls ∧
      ∀ (r : Nat) (hr : r < ls.length), ∃ columns, columns.length = 23 ∧
        ls[r] = columns ++ printAscii (((ascii "five nine").drop (r * 5)).take 5) := by
  have h : ({ width := 5, grouping := 4 } : Options).Valid :=
    ⟨by decide, by decide, Or.inr (Or.inr (Or.inl rfl))⟩
  obtain ⟨hdata, hdump⟩ := columns_aligned h
  obtain ⟨ls, hls, hlen, hlines⟩ := hdump (ascii "five nine")
  refine ⟨(hdata _ (by decide)).1, ls, hls, fun r hr => ?_⟩
  have hcount : ls.length = 2 := hlen
  have hoffset : r * 5 % 2 ^ 64 < 16 ^ 8 := Nat.lt_of_le_of_lt (Nat.mod_le ..) (by omega)
  obtain ⟨columns, hline, hcolumns⟩ := hlines r hr rfl fun _ => hoffset
  exact ⟨columns, hcolumns, hline⟩

end SystemsProgramming.Hexdump
