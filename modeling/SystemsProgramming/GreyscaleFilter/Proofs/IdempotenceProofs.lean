import SystemsProgramming.GreyscaleFilter.Proofs.ImageProofs

/-!
# Proofs: filtering twice

The mean of three equal channels is the channel. So when the rows of the input start right behind its
headers, the output is a file that the filter leaves as it is.
-/

namespace SystemsProgramming.GreyscaleFilter

open Foundations

variable {env env' : Env} {file output row : List UInt8}

theorem filter_filter (p : RgbTriple) : p.filter.filter = p.filter := by
  have havg : p.filter.avg = p.avg := by
    have hlt := p.avg.toNat_lt
    show UInt8.ofNat ((p.avg.toNat + p.avg.toNat + p.avg.toNat) / 3) = p.avg
    rw [show (p.avg.toNat + p.avg.toNat + p.avg.toNat) / 3 = p.avg.toNat by omega, UInt8.ofNat_toNat]
  rw [RgbTriple.filter, havg, RgbTriple.filter]

theorem filteredRow_filteredRow (row : List UInt8) : filteredRow (filteredRow row) = filteredRow row := by
  have htwice : RgbTriple.filter ∘ RgbTriple.filter = RgbTriple.filter := funext filter_filter
  rw [filteredRow_eq (filteredRow row), filteredRow_eq row, triples_flatMap_bytes, List.map_map, htwice]

/-- A reader of the output finds the rows filtered. -/
theorem fileRow_output_eq (h : HasRows file) (hoff : offBits file = 54) {i : Nat}
    (hi : i < imageHeight file) :
    fileRow (file.take 54 ++ (writtenRows file).flatten) i = filteredRow (fileRow file i) := by
  rw [fileRow_output h (by omega) (by omega) hi, hoff, Nat.sub_self, List.drop_zero, List.take_left]

theorem writtenRows_output (h : HasRows file) (hoff : offBits file = 54) :
    writtenRows (file.take 54 ++ (writtenRows file).flatten) = writtenRows file := by
  rw [writtenRows, imageHeight_output h, zerosAfter, imageWidth_output h, ← zerosAfter]
  conv_rhs => rw [writtenRows]
  refine List.map_congr_left fun i hi => ?_
  rw [fileRow_output_eq h hoff (List.mem_range.1 hi), filteredRow_filteredRow]

theorem blockSize_output (h : HasRows file) :
    blockSize (file.take 54 ++ (writtenRows file).flatten) = blockSize file := by
  rw [blockSize, blockSize, signedHeight, signedHeight, imageWidth_output h, imageHeight_output h]

/-- When the filter saves a file, there was memory and the output could be opened. -/
theorem resources_of_saved (h : HasRows file) (hsaved : main env file = .saved output) :
    (env.malloc (blockSize file)).isSome = true ∧ env.created = true := by
  rw [main_eq h] at hsaved
  cases hmalloc : env.malloc (blockSize file) with
  | none => simp [hmalloc] at hsaved
  | some block =>
    refine ⟨rfl, ?_⟩
    by_contra hcreated
    simp [hmalloc, hcreated] at hsaved

/-- Run on the file that it has saved, the filter saves the same file, whatever memory contains. -/
theorem greyscale_idempotent (h : HasRows file) (hoff : offBits file = 54)
    (hsaved : main env file = .saved output) (hsame : SameSystem env env') :
    main env' output = .saved output := by
  obtain ⟨hmalloc, hcreated⟩ := resources_of_saved h hsaved
  obtain rfl := main_saved h hsaved
  have houtput : HasRows (file.take 54 ++ (writtenRows file).flatten) :=
    (hasRows_output_iff h).2 (by omega)
  rw [hsame.malloc, Option.isSome_iff_exists] at hmalloc
  obtain ⟨block, hblock⟩ := hmalloc
  rw [main_eq houtput, blockSize_output h, hblock, ← hsame.created, hcreated,
    writtenRows_output h hoff, List.take_left' h.length_take]
  rfl

/-- A white pixel with something else than zero in its padding, and a byte behind it. -/
theorem padded_pixel_idempotent : ∃ output,
    main ⟨fun _ => 7, fun _ => 7, fun _ => some fun _ => 7, true⟩
      ((whitePixel 54).take 57 ++ [9, 9]) = .saved output ∧
    main ⟨fun _ => 8, fun _ => 8, fun _ => some fun _ => 8, true⟩ output = .saved output := by
  have h : HasRows ((whitePixel 54).take 57 ++ [9, 9]) := by
    refine ⟨⟨?_, ?_, ?_, ?_, ?_⟩, ?_, ?_, ?_⟩ <;> decide
  have hsaved := main_eq h ⟨fun _ => 7, fun _ => 7, fun _ => some fun _ => 7, true⟩
  exact ⟨_, hsaved, greyscale_idempotent h (by decide) hsaved ⟨fun _ => rfl, rfl⟩⟩

end SystemsProgramming.GreyscaleFilter
