import SystemsProgramming.Foundations.Chunks
import SystemsProgramming.GreyscaleFilter.Bitmap

/-!
# Proofs: the image in the output

The rows are read from `bfOffBits` on but written right behind the headers, which are copied as they
are. So a reader of the output starts as many bytes behind the first row as `bfOffBits` is behind the
headers, and sees the filtered image only when that is none, or when every byte there is zero.
-/

namespace SystemsProgramming.GreyscaleFilter

open Foundations

variable {env : Env} {file output row : List UInt8} {width : Nat}

/-! ## Triples -/

theorem triples_flatMap_bytes (ps : List RgbTriple) : triples (ps.flatMap RgbTriple.bytes) = ps := by
  induction ps with
  | nil => rfl
  | cons p ps ih => rw [List.flatMap_cons, RgbTriple.bytes, List.cons_append, List.cons_append,
      List.cons_append, List.nil_append, triples, ih]

theorem bytes_triples {n : Nat} (h : row.length = 3 * n) :
    (triples row).flatMap RgbTriple.bytes = row := by
  induction n generalizing row with
  | zero =>
    obtain rfl := List.eq_nil_of_length_eq_zero h
    rfl
  | succ n ih =>
    match row with
    | b :: g :: r :: rest =>
      have hrest : rest.length = 3 * n := by
        simp only [List.length_cons] at h
        omega
      rw [triples, List.flatMap_cons, ih hrest]
      rfl
    | [] | [_] | [_, _] =>
      simp only [List.length_cons, List.length_nil] at h
      omega

theorem length_flatMap_bytes (ps : List RgbTriple) :
    (ps.flatMap RgbTriple.bytes).length = 3 * ps.length := by
  induction ps with
  | nil => rfl
  | cons p ps ih =>
    rw [List.flatMap_cons, List.length_append, ih, List.length_cons, Nat.mul_succ, Nat.add_comm]
    rfl

theorem length_triples {n : Nat} (h : row.length = 3 * n) : (triples row).length = n := by
  have hbytes := congrArg List.length (bytes_triples h)
  rw [length_flatMap_bytes, h] at hbytes
  omega

/-- The bytes of a row after the filter. -/
def filteredRow (row : List UInt8) : List UInt8 := (triples row).flatMap fun p => p.filter.bytes

theorem filteredRow_eq (row : List UInt8) :
    filteredRow row = ((triples row).map RgbTriple.filter).flatMap RgbTriple.bytes := by
  rw [filteredRow, List.flatMap_map]

theorem length_filteredRow {n : Nat} (h : row.length = 3 * n) :
    (filteredRow row).length = 3 * n := by
  rw [filteredRow_eq, length_flatMap_bytes, List.length_map, length_triples h]

/-- A row reads as the filtered one exactly when it has the same bytes. -/
theorem triples_eq_filter_iff {n : Nat} {bytes : List UInt8} (hbytes : bytes.length = 3 * n) :
    triples bytes = (triples row).map RgbTriple.filter ↔ bytes = filteredRow row := by
  rw [filteredRow_eq]
  constructor
  · intro h
    rw [← h, bytes_triples hbytes]
  · intro h
    rw [h, triples_flatMap_bytes]

theorem avg_eq_zero_iff (p : RgbTriple) :
    p.avg = 0 ↔ p.rgbtRed.toNat + p.rgbtGreen.toNat + p.rgbtBlue.toNat < 3 := by
  have hr := p.rgbtRed.toNat_lt
  have hg := p.rgbtGreen.toNat_lt
  have hb := p.rgbtBlue.toNat_lt
  rw [← UInt8.toNat_inj, RgbTriple.avg, UInt8.toNat_ofNat']
  show _ = 0 ↔ _
  omega

/-- A filtered row is black when the channels of every pixel add up to less than three. -/
theorem filteredRow_eq_zero_iff (row : List UInt8) : (∀ b ∈ filteredRow row, b = 0) ↔
    ∀ p ∈ triples row, p.rgbtRed.toNat + p.rgbtGreen.toNat + p.rgbtBlue.toNat < 3 := by
  simp only [← avg_eq_zero_iff, filteredRow, List.mem_flatMap]
  constructor
  · intro h p hp
    exact h p.avg ⟨p, hp, by simp [RgbTriple.filter, RgbTriple.bytes]⟩
  · rintro h b ⟨p, hp, hb⟩
    have hp' := h p hp
    simpa [RgbTriple.filter, RgbTriple.bytes, hp'] using hb

/-! ## A row that is read too late -/

/-- Bytes followed by zeros look the same from a later byte on only when they are all zero. -/
theorem take_drop_eq_self_iff {bytes : List UInt8} {zeros d : Nat} (hd : d ≤ zeros) :
    ((bytes ++ List.replicate zeros 0).drop d).take bytes.length = bytes ↔
      d = 0 ∨ ∀ b ∈ bytes, b = 0 := by
  by_cases hzero : d = 0
  · subst hzero
    simp
  · rw [or_iff_right hzero]
    have hlen : (((bytes ++ List.replicate zeros 0).drop d).take bytes.length).length =
        bytes.length := by
      rw [List.length_take, List.length_drop, List.length_append, List.length_replicate]
      omega
    constructor
    · intro h
      have hbehind : ∀ k < bytes.length, d + k < (bytes ++ List.replicate zeros (0 : UInt8)).length := by
        intro k hk
        rw [List.length_append, List.length_replicate]
        omega
      have hshift : ∀ (k : Nat) (hk : k < bytes.length)
          (hdk : d + k < (bytes ++ List.replicate zeros (0 : UInt8)).length),
          bytes[k] = (bytes ++ List.replicate zeros 0)[d + k] := by
        intro k hk _
        have hget := List.getElem_of_eq h (hlen ▸ hk)
        rw [List.getElem_take, List.getElem_drop] at hget
        exact hget.symm
      -- every byte is equal to one behind it, and so to one of the zeros
      have hall : ∀ (n k : Nat) (hk : k < bytes.length), bytes.length - k ≤ n → bytes[k] = 0 := by
        intro n
        induction n with
        | zero =>
          intro k hk hn
          omega
        | succ n ih =>
          intro k hk hn
          rw [hshift k hk (hbehind k hk), List.getElem_append]
          split
          · exact ih (d + k) ‹_› (by omega)
          · exact List.getElem_replicate ..
      intro b hb
      obtain ⟨k, hk, rfl⟩ := List.getElem_of_mem hb
      exact hall _ k hk (Nat.le_refl _)
    · intro h
      have hbytes : bytes = List.replicate bytes.length 0 := List.eq_replicate_of_mem h
      have happend : bytes ++ List.replicate zeros 0 = List.replicate (bytes.length + zeros) 0 := by
        rw [List.replicate_add, ← hbytes]
      rw [happend, List.drop_replicate, List.take_replicate]
      exact (congrArg (fun n => List.replicate n 0) (by omega)).trans hbytes.symm

/-! ## Reading the headers -/

theorem fread_eq {pos n : Nat} {m : Memory} (h : pos + n ≤ file.length) :
    fread file pos n m = (file.drop pos).take n := by
  have hlen : ((file.drop pos).take n).length = n := by
    rw [List.length_take, List.length_drop]
    omega
  rw [fread, bytesAt_overlay (by omega), List.drop_zero, List.take_of_length_le (by omega)]

/-- A field of a part of the file. -/
theorem field_take_drop {pos size i n : Nat} (h : i + n ≤ size) :
    field ((file.drop pos).take size) i n = field file (pos + i) n := by
  rw [field, field, List.drop_take, List.take_take, List.drop_drop, Nat.min_eq_left (by omega)]

theorem field_lt (file : List UInt8) (i n : Nat) : field file i n < 256 ^ n := by
  refine lt_of_lt_of_le (ofLe_lt rfl) (Nat.pow_le_pow_right (by decide) ?_)
  exact List.length_take_le n _

/-- The height as `main` has it, a signed number. -/
def signedHeight (file : List UInt8) : Int := (UInt32.ofNat (imageHeight file)).toInt32.toInt

theorem toInt_toInt32 {v : Nat} (h : v < 2 ^ 31) : (UInt32.ofNat v).toInt32.toInt = v := by
  rw [UInt32.toInt32_ofNat', Int32.toInt_ofNat_of_lt h]

theorem HasRows.signedHeight (h : HasRows file) : signedHeight file = imageHeight file :=
  toInt_toInt32 h.height_lt

/-- The fields that `main` uses are those that a reader finds in the file. -/
theorem headers_eq (env : Env) (h : 54 ≤ file.length) :
    fread file 0 headerSize env.header = file.take 14 ∧
    fread file headerSize infoHeaderSize env.infoHeader = (file.drop 14).take 40 ∧
    bfType (file.take 14) = UInt16.ofNat (field file 0 2) ∧
    biBitCount ((file.drop 14).take 40) = UInt16.ofNat (field file 28 2) ∧
    (bfOffBits (file.take 14)).toNat = offBits file ∧
    (biWidth ((file.drop 14).take 40)).toInt = (UInt32.ofNat (imageWidth file)).toInt32.toInt ∧
    (biHeight ((file.drop 14).take 40)).toInt = signedHeight file := by
  have htake : ∀ i n, i + n ≤ 14 → field (file.take 14) i n = field file i n := by
    intro i n hin
    have hfield : field ((file.drop 0).take 14) i n = field file (0 + i) n := field_take_drop hin
    rwa [List.drop_zero, Nat.zero_add] at hfield
  refine ⟨fread_eq (show 0 + 14 ≤ file.length by omega), fread_eq (show 14 + 40 ≤ file.length from h),
    ?_, ?_, ?_, ?_, ?_⟩
  · rw [bfType, htake 0 2 (by omega)]
  · rw [biBitCount, field_take_drop (by omega)]
  · rw [bfOffBits, htake 10 4 (by omega), UInt32.toNat_ofNat_of_lt' (field_lt file 10 4), offBits]
  · rw [biWidth, field_take_drop (by omega)]
    rfl
  · rw [biHeight, field_take_drop (by omega)]
    rfl

/-- The padding takes a row to the next multiple of four. -/
theorem padding_eq {w : Int32} (hw : w.toInt = width) :
    3 * width + padding w = stride width := by
  unfold padding stride
  rw [hw]
  omega

/-! ## Reading and writing the rows -/

theorem readRows_eq {block : Memory} {rowBytes padding rounds i pos : Nat}
    (h : pos + (rounds - 1) * (rowBytes + padding) + rowBytes ≤ file.length) :
    readRows file block rowBytes padding rounds i pos =
      (List.range rounds).map fun j => (file.drop (pos + j * (rowBytes + padding))).take rowBytes := by
  induction rounds generalizing i pos with
  | zero => rfl
  | succ rounds ih =>
    rw [Nat.add_sub_cancel] at h
    have hlen : ((file.drop pos).take rowBytes).length = rowBytes := by
      rw [List.length_take, List.length_drop]
      omega
    rw [readRows, fread_eq (by omega), hlen, List.range_succ_eq_map, List.map_cons, List.map_map,
      Nat.zero_mul, Nat.add_zero]
    congr 1
    cases rounds with
    | zero => rfl
    | succ rounds =>
      have hnext : pos + rowBytes + padding + (rounds + 1 - 1) * (rowBytes + padding) + rowBytes ≤
          file.length := by
        rw [Nat.succ_mul] at h
        rw [Nat.add_sub_cancel]
        omega
      rw [ih hnext]
      refine List.map_congr_left fun j _ => ?_
      rw [Function.comp_apply, Nat.succ_mul, show pos + rowBytes + padding + j * (rowBytes + padding) =
        pos + (j * (rowBytes + padding) + (rowBytes + padding)) by omega]

/-- The zeros that fill a row up. -/
def zerosAfter (file : List UInt8) : Nat := stride (imageWidth file) - 3 * imageWidth file

theorem stride_eq (file : List UInt8) :
    stride (imageWidth file) = 3 * imageWidth file + zerosAfter file := by
  unfold zerosAfter stride
  omega

/-- The rows that `main` writes, filled up. -/
def writtenRows (file : List UInt8) : List (List UInt8) :=
  (List.range (imageHeight file)).map fun i =>
    filteredRow (fileRow file i) ++ List.replicate (zerosAfter file) 0

/-- What `main` passes to `malloc`. -/
def blockSize (file : List UInt8) : Nat :=
  (signedHeight file * (3 * imageWidth file : Nat) % 2 ^ 64).toNat

theorem padding_width {w : Int32} (hw : w.toInt = imageWidth file) : padding w = zerosAfter file := by
  have hpad := padding_eq hw
  unfold zerosAfter
  omega

/-- What `main` does with a file whose headers it accepts: it saves them as they are, and right behind
them the rows that it has read, filtered and filled up, unless there is no memory or the output cannot be
opened. -/
theorem main_eq_of_readable (h : Readable file) (env : Env) : main env file =
    match env.malloc (blockSize file) with
    | none => .noMemory
    | some block =>
      if env.created then
        .saved (file.take 54 ++ (readRows file block (3 * imageWidth file) (zerosAfter file)
          (signedHeight file).toNat 0 (offBits file)).flatMap (writeRow (zerosAfter file)))
      else .notCreated := by
  obtain ⟨hheader, hinfo, htype, hbits, hoff, hwidth, hheight⟩ := headers_eq env h.headers
  rw [toInt_toInt32 h.width_lt] at hwidth
  have hwpos := h.width_pos
  have htype' : UInt16.ofNat (field file 0 2) = 0x4d42 := congrArg _ h.type
  have hbits' : UInt16.ofNat (field file 28 2) = 24 := congrArg _ h.bitCount
  have hheaders : file.take 14 ++ (file.drop 14).take 40 = file.take 54 := by rw [← List.take_add]
  unfold main
  simp only [hheader, hinfo, htype, htype', hbits, hbits', hoff, hwidth, padding_width hwidth, hheight,
    ne_eq, not_true, or_self, if_false, Int.toNat_natCast]
  rw [if_neg (by omega), hheaders]
  rfl

/-- When all rows are complete, nothing in the output depends on the block. -/
theorem main_eq (h : HasRows file) (env : Env) : main env file =
    match env.malloc (blockSize file) with
    | none => .noMemory
    | some _ =>
      if env.created then .saved (file.take 54 ++ (writtenRows file).flatten) else .notCreated := by
  have hcomplete := h.complete
  rw [main_eq_of_readable h.toReadable]
  cases env.malloc (blockSize file) with
  | none => rfl
  | some block =>
    rw [stride_eq] at hcomplete
    simp only
    rw [h.signedHeight, Int.toNat_natCast, readRows_eq hcomplete, List.flatMap_map, List.flatMap_def,
      ← stride_eq]
    rfl

theorem main_saved (h : HasRows file) (hsaved : main env file = .saved output) :
    output = file.take 54 ++ (writtenRows file).flatten := by
  have heq := main_eq h env
  rw [hsaved] at heq
  split at heq
  · cases heq
  · split at heq
    · cases heq
      rfl
    · cases heq

/-! ## Reading the output -/

theorem length_fileRow (h : HasRows file) {i : Nat} (hi : i < imageHeight file) :
    (fileRow file i).length = 3 * imageWidth file := by
  have hcomplete := h.complete
  have hmul : i * stride (imageWidth file) ≤ (imageHeight file - 1) * stride (imageWidth file) :=
    Nat.mul_le_mul_right _ (by omega)
  rw [fileRow, List.length_take, List.length_drop]
  omega

theorem length_of_mem_writtenRows (h : HasRows file) {row : List UInt8}
    (hrow : row ∈ writtenRows file) : row.length = stride (imageWidth file) := by
  obtain ⟨i, hi, rfl⟩ := List.mem_map.1 hrow
  rw [List.length_append, List.length_replicate,
    length_filteredRow (length_fileRow h (List.mem_range.1 hi)), stride_eq]

/-- The headers of the output are those of the input. -/
theorem field_output (h : HasRows file) {rest : List UInt8} {i n : Nat} (hin : i + n ≤ 54) :
    field (file.take 54 ++ rest) i n = field file i n := by
  have hlen := h.headers
  unfold field
  rw [List.drop_append_of_le_length (by rw [List.length_take]; omega),
    List.take_append_of_le_length (by rw [List.length_drop, List.length_take]; omega), List.drop_take,
    List.take_take, Nat.min_eq_left (by omega)]

theorem offBits_output (h : HasRows file) {rest : List UInt8} :
    offBits (file.take 54 ++ rest) = offBits file := field_output h (by decide)

theorem imageWidth_output (h : HasRows file) {rest : List UInt8} :
    imageWidth (file.take 54 ++ rest) = imageWidth file := field_output h (by decide)

theorem imageHeight_output (h : HasRows file) {rest : List UInt8} :
    imageHeight (file.take 54 ++ rest) = imageHeight file := field_output h (by decide)

theorem HasRows.length_take (h : HasRows file) : (file.take 54).length = 54 :=
  List.length_take_of_le h.headers

/-- A row of the output, for a reader that starts it some bytes late but not beyond the zeros. -/
theorem fileRow_output (h : HasRows file) (hoff : 54 ≤ offBits file)
    (hlate : offBits file - 54 ≤ zerosAfter file) {i : Nat} (hi : i < imageHeight file) :
    fileRow (file.take 54 ++ (writtenRows file).flatten) i =
      ((filteredRow (fileRow file i) ++ List.replicate (zerosAfter file) 0).drop
        (offBits file - 54)).take (filteredRow (fileRow file i)).length := by
  have hi' : i < (writtenRows file).length := by
    rwa [writtenRows, List.length_map, List.length_range]
  have hdrop : (file.take 54 ++ (writtenRows file).flatten).drop
      (offBits file + i * stride (imageWidth file)) =
      ((writtenRows file).drop i).flatten.drop (offBits file - 54) := by
    have hbody : (file.take 54 ++ (writtenRows file).flatten).drop 54 =
        (writtenRows file).flatten := List.drop_left' h.length_take
    rw [show offBits file + i * stride (imageWidth file) =
        54 + (i * stride (imageWidth file) + (offBits file - 54)) by omega, ← List.drop_drop, hbody,
      ← List.drop_drop, drop_flatten fun row => length_of_mem_writtenRows h]
  have hrow : (writtenRows file)[i] =
      filteredRow (fileRow file i) ++ List.replicate (zerosAfter file) 0 := by
    rw [List.getElem_of_eq rfl hi']
    simp only [writtenRows, List.getElem_map, List.getElem_range]
  have hlenRow := length_filteredRow (length_fileRow h hi)
  rw [fileRow, offBits_output h, imageWidth_output h, hdrop, List.drop_eq_getElem_cons hi',
    List.flatten_cons, hrow, hlenRow]
  rw [List.drop_append_of_le_length, List.take_append_of_le_length]
  · rw [List.length_drop, List.length_append, List.length_replicate, hlenRow]
    omega
  · rw [List.length_append, List.length_replicate, hlenRow]
    omega

/-- The output has complete rows if and only if a reader starts no later than within the zeros of a
row. -/
theorem hasRows_output_iff (h : HasRows file) :
    HasRows (file.take 54 ++ (writtenRows file).flatten) ↔ offBits file ≤ 54 + zerosAfter file := by
  have hheight := h.height_pos
  have hflat : (writtenRows file).flatten.length = imageHeight file * stride (imageWidth file) := by
    rw [length_flatten_of_length fun row => length_of_mem_writtenRows h, writtenRows, List.length_map,
      List.length_range]
  have hmul : imageHeight file * stride (imageWidth file) =
      (imageHeight file - 1) * stride (imageWidth file) + stride (imageWidth file) := by
    rw [← Nat.succ_mul, Nat.succ_eq_add_one, Nat.sub_add_cancel hheight]
  have hstride := stride_eq file
  constructor
  · intro hout
    have hcomplete := hout.complete
    rw [offBits_output h, imageWidth_output h, imageHeight_output h, List.length_append,
        h.length_take, hflat, hmul] at hcomplete
    omega
  · intro hle
    refine ⟨⟨?_, ?_, ?_, ?_, ?_⟩, ?_, ?_, ?_⟩
    · rw [List.length_append, h.length_take]
      omega
    · rw [field_output h (by decide), h.type]
    · rw [field_output h (by decide), h.bitCount]
    · rw [imageWidth_output h]
      exact h.width_pos
    · rw [imageWidth_output h]
      exact h.width_lt
    · rw [imageHeight_output h]
      exact h.height_pos
    · rw [imageHeight_output h]
      exact h.height_lt
    · rw [offBits_output h, imageWidth_output h, imageHeight_output h, List.length_append,
        h.length_take, hflat, hmul]
      omega

theorem isBitmap_output_iff (h : IsBitmap file) :
    IsBitmap (file.take 54 ++ (writtenRows file).flatten) ↔ offBits file ≤ 54 + zerosAfter file := by
  rw [← hasRows_output_iff h.hasRows]
  constructor
  · exact IsBitmap.hasRows
  · intro hout
    refine { hout with compression := ?_, offBits_le := ?_ }
    · rw [field_output h.hasRows (by decide), h.compression]
    · rw [offBits_output h.hasRows]
      exact h.offBits_le

/-- A reader of the output sees the greyscale image if and only if the rows of the input start right
behind its headers, or start within the width of the padding behind them and the whole greyscale image
is black. -/
theorem greyscale_correct_iff (h : IsBitmap file) (hsaved : main env file = .saved output) :
    (IsBitmap output ∧ image output = (image file).grey) ↔
      offBits file = 54 ∨
      (offBits file ≤ 54 + (stride (imageWidth file) - 3 * imageWidth file) ∧
        ∀ row ∈ (image file).rows, ∀ p ∈ row,
          p.rgbtRed.toNat + p.rgbtGreen.toNat + p.rgbtBlue.toNat < 3) := by
  have houtput : output = file.take 54 ++ (writtenRows file).flatten := main_saved h.hasRows hsaved
  have hoff := h.offBits_le
  have himage : offBits file ≤ 54 + zerosAfter file →
      (image output = (image file).grey ↔ offBits file = 54 ∨
        ∀ row ∈ (image file).rows, ∀ p ∈ row,
          p.rgbtRed.toNat + p.rgbtGreen.toNat + p.rgbtBlue.toNat < 3) := by
    intro hle
    have hwidth : imageWidth output = imageWidth file := by rw [houtput, imageWidth_output h.hasRows]
    have hheight : imageHeight output = imageHeight file := by
      rw [houtput, imageHeight_output h.hasRows]
    have hrow : ∀ i < imageHeight file,
        (triples (fileRow output i) = (triples (fileRow file i)).map RgbTriple.filter ↔
          offBits file = 54 ∨ ∀ p ∈ triples (fileRow file i),
            p.rgbtRed.toNat + p.rgbtGreen.toNat + p.rgbtBlue.toNat < 3) := by
      intro i hi
      have hlate : offBits file - 54 ≤ zerosAfter file := by omega
      have hlen := length_filteredRow (length_fileRow h.hasRows hi)
      have hbytes : (fileRow output i).length = 3 * imageWidth file := by
        rw [houtput, fileRow_output h.hasRows hoff hlate hi, List.length_take, List.length_drop,
          List.length_append, List.length_replicate, hlen]
        omega
      rw [triples_eq_filter_iff hbytes, houtput, fileRow_output h.hasRows hoff hlate hi,
        take_drop_eq_self_iff hlate, filteredRow_eq_zero_iff]
      refine or_congr_left ?_
      omega
    have hall : image output = (image file).grey ↔ ∀ i < imageHeight file,
        triples (fileRow output i) = (triples (fileRow file i)).map RgbTriple.filter := by
      rw [image, hwidth, hheight, Image.grey, image, Image.mk.injEq, List.map_map]
      simp only [true_and, List.map_inj_left, List.mem_range]
      rfl
    rw [hall]
    simp only [image, List.mem_map, List.mem_range, forall_exists_index, and_imp,
      forall_apply_eq_imp_iff₂]
    constructor
    · intro hrows
      rw [or_iff_not_imp_left]
      intro hne i hi
      exact ((hrow i hi).1 (hrows i hi)).resolve_left hne
    · intro hcond i hi
      exact (hrow i hi).2 (hcond.imp_right fun hblack => hblack i hi)
  rw [houtput, isBitmap_output_iff h, ← houtput]
  show _ ↔ offBits file = 54 ∨ (offBits file ≤ 54 + zerosAfter file ∧ _)
  constructor
  · rintro ⟨hle, heq⟩
    exact ((himage hle).1 heq).imp_right fun hblack => ⟨hle, hblack⟩
  · rintro (heq | ⟨hle, hblack⟩)
    · have hle : offBits file ≤ 54 + zerosAfter file := by omega
      exact ⟨hle, (himage hle).2 (Or.inl heq)⟩
    · exact ⟨hle, (himage hle).2 (Or.inr hblack)⟩

/-- A bitmap with one white pixel, and a header of so many bytes. -/
def whitePixel (headerBytes : Nat) : List UInt8 :=
  toLe 2 0x4d42 ++ toLe 4 (headerBytes + 4) ++ toLe 4 0 ++ toLe 4 headerBytes ++
    toLe 4 (headerBytes - 14) ++ toLe 4 1 ++ toLe 4 1 ++ toLe 2 1 ++ toLe 2 24 ++
    List.replicate (headerBytes - 30) 0 ++ [255, 255, 255, 0]

/-- With a header of 54 bytes, the greyscale image of a white pixel is read back. -/
theorem short_header_correct :
    IsBitmap (whitePixel 54) ∧
    image (whitePixel 54) = (image (whitePixel 54)).grey := by
  have h : IsBitmap (whitePixel 54) := by constructor <;> decide
  have hsaved : main ⟨fun _ => 7, fun _ => 7, fun _ => some fun _ => 7, true⟩ (whitePixel 54) =
      .saved (whitePixel 54) := by decide
  exact (greyscale_correct_iff h hsaved).2 (Or.inl (by decide))

/-- A header of 70 bytes, with the bit masks that some programs write, is followed in the output by the
row that the header states to be 16 bytes further on. -/
theorem long_header_incorrect : ¬ ∀ (env : Env) (file output : List UInt8), IsBitmap file →
    main env file = .saved output → IsBitmap output ∧ image output = (image file).grey := by
  intro h
  have hfile : IsBitmap (whitePixel 70) := by constructor <;> decide
  have hsaved := main_eq hfile.hasRows ⟨fun _ => 7, fun _ => 7, fun _ => some fun _ => 7, true⟩
  have hle := (isBitmap_output_iff hfile).1 (h _ _ _ hfile hsaved).1
  revert hle
  decide

end SystemsProgramming.GreyscaleFilter
