import SystemsProgramming.GreyscaleFilter.Proofs.ImageProofs

/-!
# Proofs: what the output depends on

No result of `fread` is looked at. So a header that is cut short keeps some of what its variable
contained, and so does a row in the block: the byte that is missing shows in the mean of its pixel.
-/

namespace SystemsProgramming.GreyscaleFilter

open Foundations

variable {env : Env} {file : List UInt8}

/-! ## The bytes that are read -/

/-- A byte that is read, or that is left as it was because the file has ended. -/
theorem getElem?_fread {pos n k : Nat} (m : Memory) (hk : k < n) :
    (fread file pos n m)[k]? = some (file[pos + k]?.getD (m k)) := by
  have hlt : k < ((List.range n).map fun k => overlay ((file.drop pos).take n) m (0 + k)).length := by
    rwa [List.length_map, List.length_range]
  rw [fread, bytesAt, List.getElem?_eq_getElem hlt, List.getElem_map, List.getElem_range, Nat.zero_add,
    overlay, List.getElem?_take_of_lt hk, List.getElem?_drop]

theorem length_fread (pos n : Nat) (m : Memory) : (fread file pos n m).length = n := bytesAt_length

/-- A field of two bytes. -/
theorem field_two {bytes : List UInt8} {i : Nat} {a b : UInt8} (ha : bytes[i]? = some a)
    (hb : bytes[i + 1]? = some b) : field bytes i 2 = a.toNat + 256 * b.toNat := by
  obtain ⟨hi, rfl⟩ := List.getElem?_eq_some_iff.1 ha
  obtain ⟨hi', rfl⟩ := List.getElem?_eq_some_iff.1 hb
  rw [field, List.drop_eq_getElem_cons hi, List.drop_eq_getElem_cons hi', List.take_succ_cons,
    List.take_succ_cons, List.take_zero, ofLe_cons, ofLe_cons, ofLe_nil, Nat.mul_zero, Nat.add_zero]

theorem ofNat_two_iff (a b c d : UInt8) :
    UInt16.ofNat (a.toNat + 256 * b.toNat) = UInt16.ofNat (c.toNat + 256 * d.toNat) ↔
      a = c ∧ b = d := by
  have ha := a.toNat_lt
  have hb := b.toNat_lt
  have hc := c.toNat_lt
  have hd := d.toNat_lt
  rw [← UInt16.toNat_inj, UInt16.toNat_ofNat', UInt16.toNat_ofNat', ← UInt8.toNat_inj (a := a),
    ← UInt8.toNat_inj (a := b)]
  omega

/-! ## The check of the headers -/

/-- The file passes the check of `main`: the four bytes that decide it are right, read or left as they
were. -/
def Passes (env : Env) (file : List UInt8) : Prop :=
  (file[0]?.getD (env.header 0) = 0x42 ∧ file[1]?.getD (env.header 1) = 0x4d) ∧
    file[28]?.getD (env.infoHeader 14) = 24 ∧ file[29]?.getD (env.infoHeader 15) = 0

theorem passes_iff (env : Env) (file : List UInt8) : Passes env file ↔
    bfType (fread file 0 headerSize env.header) = 0x4d42 ∧
      biBitCount (fread file headerSize infoHeaderSize env.infoHeader) = 24 := by
  have htype := ofNat_two_iff (file[0]?.getD (env.header 0)) (file[1]?.getD (env.header 1)) 0x42 0x4d
  have hbits := ofNat_two_iff (file[28]?.getD (env.infoHeader 14)) (file[29]?.getD (env.infoHeader 15))
    24 0
  rw [Passes, ← htype, ← hbits, bfType, biBitCount,
    field_two (getElem?_fread _ (by decide)) (getElem?_fread _ (by decide)),
    field_two (getElem?_fread _ (by decide)) (getElem?_fread _ (by decide))]
  rfl

/-! ## A row that is cut short -/

theorem getElem?_triples {row : List UInt8} {j : Nat} {b g r : UInt8} (hb : row[3 * j]? = some b)
    (hg : row[3 * j + 1]? = some g) (hr : row[3 * j + 2]? = some r) :
    (triples row)[j]? = some ⟨b, g, r⟩ := by
  induction j generalizing row with
  | zero =>
    match row with
    | b' :: g' :: r' :: rest =>
      obtain rfl := Option.some.inj hb
      obtain rfl := Option.some.inj hg
      obtain rfl := Option.some.inj hr
      rfl
    | [] | [_] | [_, _] => simp at hr
  | succ j ih =>
    match row with
    | b' :: g' :: r' :: rest =>
      rw [triples, List.getElem?_cons_succ]
      rw [show 3 * (j + 1) = 3 * j + 1 + 1 + 1 by omega] at hb hg hr
      simp only [Nat.add_right_comm _ 1, List.getElem?_cons_succ] at hb hg hr
      exact ih hb hg hr
    | [] | [_] | [_, _] => simp at hr

/-- The mean sees whether the last byte of a pixel was read. -/
theorem avg_ne {b g b' g' : UInt8} (hb : b.toNat ≤ b'.toNat) (hg : g.toNat ≤ g'.toNat) :
    (RgbTriple.mk b g 0).avg ≠ (RgbTriple.mk b' g' 255).avg := by
  have hb' := b'.toNat_lt
  have hg' := g'.toNat_lt
  rw [ne_eq, ← UInt8.toNat_inj, RgbTriple.avg, RgbTriple.avg, UInt8.toNat_ofNat', UInt8.toNat_ofNat']
  simp only [UInt8.reduceToNat]
  omega

theorem getD_le (o : Option UInt8) : (o.getD 0).toNat ≤ (o.getD 255).toNat := by
  cases o with
  | none => decide
  | some b => exact Nat.le_refl _

/-- A row that comes out the same from two blocks without a byte in common was in the file. -/
theorem row_complete {pos n : Nat} (hn : 0 < n)
    (heq : filteredRow (fread file pos (3 * n) fun _ => 0) =
      filteredRow (fread file pos (3 * n) fun _ => 255)) : pos + 3 * n ≤ file.length := by
  by_contra hshort
  obtain ⟨j, rfl⟩ : ∃ j, n = j + 1 := ⟨n - 1, by omega⟩
  have hlast : ∀ c : UInt8, (triples (fread file pos (3 * (j + 1)) fun _ => c))[j]? =
      some ⟨file[pos + 3 * j]?.getD c, file[pos + (3 * j + 1)]?.getD c, c⟩ := by
    intro c
    refine getElem?_triples (getElem?_fread _ (by omega)) (getElem?_fread _ (by omega)) ?_
    rw [getElem?_fread _ (by omega), List.getElem?_eq_none (by omega), Option.getD_none]
  rw [filteredRow_eq, filteredRow_eq] at heq
  have hmap := congrArg triples heq
  rw [triples_flatMap_bytes, triples_flatMap_bytes] at hmap
  have hpixel := congrArg (·[j]?) hmap
  simp only [List.getElem?_map, hlast, Option.map_some, Option.some.injEq, RgbTriple.filter,
    RgbTriple.mk.injEq, and_self] at hpixel
  exact avg_ne (getD_le _) (getD_le _) hpixel

/-- So do all the rows. -/
theorem rows_complete {padding n rounds i pos : Nat} (hn : 0 < n)
    (heq : (readRows file (fun _ => 0) (3 * n) padding rounds i pos).flatMap (writeRow padding) =
      (readRows file (fun _ => 255) (3 * n) padding rounds i pos).flatMap (writeRow padding)) :
    rounds = 0 ∨ pos + (rounds - 1) * (3 * n + padding) + 3 * n ≤ file.length := by
  induction rounds generalizing i pos with
  | zero => exact Or.inl rfl
  | succ rounds ih =>
    rw [readRows, readRows, List.flatMap_cons, List.flatMap_cons] at heq
    have hlen : ∀ c : UInt8, (writeRow padding (fread file pos (3 * n) fun _ => c)).length =
        3 * n + padding := by
      intro c
      rw [writeRow, List.length_append, List.length_replicate]
      exact congrArg (· + padding) (length_filteredRow (length_fread ..))
    obtain ⟨hrow, hrest⟩ := List.append_inj heq ((hlen 0).trans (hlen 255).symm)
    have hfirst : pos + 3 * n ≤ file.length := row_complete hn (List.append_cancel_right hrow)
    have hread : ((file.drop pos).take (3 * n)).length = 3 * n := by
      rw [List.length_take, List.length_drop]
      omega
    rw [hread] at hrest
    right
    rw [Nat.add_sub_cancel]
    rcases ih hrest with hzero | hlater
    · rw [hzero, Nat.zero_mul]
      omega
    · cases rounds with
      | zero => omega
      | succ rounds =>
        rw [Nat.add_sub_cancel] at hlater
        rw [Nat.succ_mul]
        omega

/-! ## Two runs -/

/-- What a run leaves behind: the bytes of `greyscale.bmp` if it is written. A run that is undefined may
leave anything. -/
def Outcome.written : Outcome → Option (Option (List UInt8))
  | .undefined => none
  | .saved output => some (some output)
  | .rejected | .noMemory | .notCreated => some none

/-- What a run on the file leaves behind does not depend on what memory contains at first. -/
def Determined (file : List UInt8) : Prop :=
  ∀ env env' : Env, SameSystem env env' →
    ∃ w, (main env file).written = some w ∧ (main env' file).written = some w

/-- No byte in the file contradicts the check. -/
def MayPass (file : List UInt8) : Prop :=
  ((∀ b ∈ file[0]?, b = 0x42) ∧ ∀ b ∈ file[1]?, b = 0x4d) ∧
    (∀ b ∈ file[28]?, b = 24) ∧ ∀ b ∈ file[29]?, b = 0

/-- The headers are complete and state a positive width, and the rows are complete if there are any. -/
structure Filled (file : List UInt8) : Prop where
  headers : 54 ≤ file.length
  width_pos : 0 < imageWidth file
  width_lt : imageWidth file < 2 ^ 31
  rows : imageHeight file = 0 ∨ 2 ^ 31 ≤ imageHeight file ∨
    offBits file + (imageHeight file - 1) * stride (imageWidth file) + 3 * imageWidth file ≤ file.length

theorem getD_eq_of_mayPass {o : Option UInt8} {b c : UInt8} (h : ∀ b ∈ o, b = c) (hb : b = c) :
    o.getD b = c := by
  cases o with
  | none => exact hb
  | some d => exact h d rfl

theorem passes_of_mayPass (h : MayPass file) (h0 : env.header 0 = 0x42) (h1 : env.header 1 = 0x4d)
    (h14 : env.infoHeader 14 = 24) (h15 : env.infoHeader 15 = 0) : Passes env file :=
  ⟨⟨getD_eq_of_mayPass h.1.1 h0, getD_eq_of_mayPass h.1.2 h1⟩,
    getD_eq_of_mayPass h.2.1 h14, getD_eq_of_mayPass h.2.2 h15⟩

theorem mayPass_of_passes (h : Passes env file) : MayPass file := by
  have hread : ∀ {o : Option UInt8} {b c : UInt8}, o.getD b = c → ∀ d ∈ o, d = c := by
    intro o b c hget d hd
    rwa [Option.mem_def.1 hd, Option.getD_some] at hget
  exact ⟨⟨hread h.1.1, hread h.1.2⟩, hread h.2.1, hread h.2.2⟩

/-- With the headers complete, the check is one of the file. -/
theorem passes_iff_of_headers (hlen : 54 ≤ file.length) (env : Env) :
    Passes env file ↔ field file 0 2 = 0x4d42 ∧ field file 28 2 = 24 := by
  obtain ⟨hheader, hinfo, htype, hbits, -⟩ := headers_eq env hlen
  have hfield : ∀ {i v : Nat}, v < 256 ^ 2 → (UInt16.ofNat (field file i 2) = UInt16.ofNat v ↔
      field file i 2 = v) := by
    intro i v hv
    rw [← UInt16.toNat_inj, UInt16.toNat_ofNat_of_lt' (field_lt ..), UInt16.toNat_ofNat_of_lt' hv]
  rw [passes_iff, hheader, hinfo, htype, hbits]
  exact and_congr (hfield (v := 0x4d42) (by decide)) (hfield (v := 24) (by decide))

theorem main_of_not_passes (h : ¬ Passes env file) : main env file = .rejected := by
  rw [passes_iff, not_and_or] at h
  exact if_pos h

theorem not_rejected_of_passes (h : Passes env file) :
    ¬ (bfType (fread file 0 headerSize env.header) ≠ 0x4d42 ∨
      biBitCount (fread file headerSize infoHeaderSize env.infoHeader) ≠ 24) := by
  rw [← not_and_or, ← passes_iff, not_not]
  exact h

/-- A signed number is not positive if its field is zero or has the sign bit. -/
theorem toInt_toInt32_le_zero_iff {v : Nat} (h : v < 2 ^ 32) :
    (UInt32.ofNat v).toInt32.toInt ≤ 0 ↔ v = 0 ∨ 2 ^ 31 ≤ v := by
  have hsize : (Int32.size : Int) = 2 ^ 32 := rfl
  rw [UInt32.toInt32_ofNat', Int32.toInt_ofNat', Int.bmod_def, hsize]
  omega

theorem signedHeight_le_zero_iff (file : List UInt8) :
    signedHeight file ≤ 0 ↔ imageHeight file = 0 ∨ 2 ^ 31 ≤ imageHeight file :=
  toInt_toInt32_le_zero_iff (field_lt file 22 4)

theorem main_of_width (hpass : Passes env file) (hlen : 54 ≤ file.length)
    (hwidth : imageWidth file = 0 ∨ 2 ^ 31 ≤ imageWidth file) : main env file = .undefined := by
  obtain ⟨-, hinfo, -, -, -, hinfoWidth, -⟩ := headers_eq env hlen
  have hle : (biWidth (fread file headerSize infoHeaderSize env.infoHeader)).toInt ≤ 0 := by
    rw [hinfo, hinfoWidth]
    exact (toInt_toInt32_le_zero_iff (field_lt file 18 4)).2 hwidth
  exact (if_neg (not_rejected_of_passes hpass)).trans (if_pos hle)

/-- A file that passes and is filled is treated in one way, whatever memory contains. -/
theorem main_of_filled (h : Readable file) (hfill : Filled file) : ∃ body : List UInt8, ∀ env : Env,
    main env file = if (env.malloc (blockSize file)).isSome then
      if env.created then .saved (file.take 54 ++ body) else .notCreated else .noMemory := by
  have hrows : ∃ rows, ∀ block, readRows file block (3 * imageWidth file) (zerosAfter file)
      (signedHeight file).toNat 0 (offBits file) = rows := by
    by_cases hnone : signedHeight file ≤ 0
    · refine ⟨[], fun block => ?_⟩
      rw [Int.toNat_of_nonpos hnone]
      rfl
    · rw [signedHeight_le_zero_iff, not_or, Nat.not_le] at hnone
      have hcomplete := (hfill.rows.resolve_left hnone.1).resolve_left (Nat.not_le.2 hnone.2)
      rw [stride_eq] at hcomplete
      rw [signedHeight, toInt_toInt32 hnone.2, Int.toNat_natCast]
      exact ⟨_, fun block => readRows_eq hcomplete⟩
  obtain ⟨rows, hrows⟩ := hrows
  refine ⟨rows.flatMap (writeRow (zerosAfter file)), fun env => ?_⟩
  rw [main_eq_of_readable h env]
  cases env.malloc (blockSize file) with
  | none => rfl
  | some block =>
    simp only [hrows, Option.isSome_some, if_true]

/-- Memory in which everything a file may leave out of the headers passes the check. The byte `c` is the
last one of them, the block contains nothing else. -/
def passingEnv (c : UInt8) : Env where
  header := fun i => if i = 0 then 0x42 else 0x4d
  infoHeader := fun i => if i = 14 then 24 else if i = 39 then c else 0
  malloc := fun _ => some fun _ => c
  created := true

theorem passingEnv_sameSystem (c c' : UInt8) : SameSystem (passingEnv c) (passingEnv c') :=
  ⟨fun _ => rfl, rfl⟩

theorem passes_passingEnv (h : MayPass file) (c : UInt8) : Passes (passingEnv c) file :=
  passes_of_mayPass h rfl rfl rfl rfl

/-- A file that passes is saved with the headers as they are in memory, or the run is undefined. -/
theorem main_of_passes (h : MayPass file) (c : UInt8) : main (passingEnv c) file = .undefined ∨
    ∃ body, main (passingEnv c) file = .saved (fread file 0 headerSize (passingEnv c).header ++
      fread file headerSize infoHeaderSize (passingEnv c).infoHeader ++ body) := by
  have hnot := not_rejected_of_passes (passes_passingEnv h c)
  by_cases hwidth : (biWidth (fread file headerSize infoHeaderSize (passingEnv c).infoHeader)).toInt ≤ 0
  · exact Or.inl ((if_neg hnot).trans (if_pos hwidth))
  · exact Or.inr ⟨_, (if_neg hnot).trans (if_neg hwidth)⟩

/-- The two runs save the same bytes. -/
theorem saved_of_determined (hdet : Determined file) (hpass : MayPass file) : ∃ output,
    main (passingEnv 0) file = .saved output ∧ main (passingEnv 255) file = .saved output := by
  obtain ⟨w, hw, hw'⟩ := hdet _ _ (passingEnv_sameSystem 0 255)
  rcases main_of_passes hpass 0 with hmain | ⟨body, hmain⟩
  · rw [hmain] at hw
    cases hw
  rcases main_of_passes hpass 255 with hmain' | ⟨body', hmain'⟩
  · rw [hmain'] at hw'
    cases hw'
  rw [hmain] at hw
  rw [hmain', ← hw] at hw'
  have heq := Option.some.inj (Option.some.inj hw')
  exact ⟨_, hmain, hmain'.trans (congrArg Outcome.saved heq)⟩

theorem headers_of_determined (hdet : Determined file) (hpass : MayPass file) : 54 ≤ file.length := by
  obtain ⟨output, hsaved, hsaved'⟩ := saved_of_determined hdet hpass
  have hlast : ∀ c, main (passingEnv c) file = .saved output →
      output[53]? = some (file[53]?.getD c) := by
    intro c hmain
    rcases main_of_passes hpass c with hundefined | ⟨body, hbody⟩
    · rw [hundefined] at hmain
      cases hmain
    · rw [hbody] at hmain
      obtain rfl := Outcome.saved.inj hmain
      have hheader : (fread file 0 headerSize (passingEnv c).header).length = 14 := length_fread ..
      have hinfo : (fread file headerSize infoHeaderSize (passingEnv c).infoHeader).length = 40 :=
        length_fread ..
      rw [List.getElem?_append_left (by rw [List.length_append, hheader, hinfo]; decide),
        List.getElem?_append_right (by rw [hheader]; decide), hheader]
      exact getElem?_fread _ (by decide)
  by_contra hshort
  have hbytes := (hlast 0 hsaved).symm.trans (hlast 255 hsaved')
  rw [List.getElem?_eq_none (by omega)] at hbytes
  revert hbytes
  decide

/-- A file that may pass is treated in one way only if it is filled. -/
theorem filled_of_determined (hdet : Determined file) (hpass : MayPass file) : Filled file := by
  have hheaders := headers_of_determined hdet hpass
  obtain ⟨output, hsaved, hsaved'⟩ := saved_of_determined hdet hpass
  obtain ⟨htype, hbits⟩ := (passes_iff_of_headers hheaders _).1 (passes_passingEnv hpass 0)
  have hwidth : 0 < imageWidth file ∧ imageWidth file < 2 ^ 31 := by
    by_contra hwidth
    rw [main_of_width (passes_passingEnv hpass 0) hheaders (by omega)] at hsaved
    cases hsaved
  refine ⟨hheaders, hwidth.1, hwidth.2, ?_⟩
  have hread : Readable file := ⟨hheaders, htype, hbits, hwidth.1, hwidth.2⟩
  have hblock : ∀ c, main (passingEnv c) file = .saved (file.take 54 ++
      (readRows file (fun _ => c) (3 * imageWidth file) (zerosAfter file) (signedHeight file).toNat 0
        (offBits file)).flatMap (writeRow (zerosAfter file))) := fun c =>
    main_eq_of_readable hread (passingEnv c)
  have hrows : (signedHeight file).toNat = 0 ∨ offBits file +
      ((signedHeight file).toNat - 1) * (3 * imageWidth file + zerosAfter file) +
      3 * imageWidth file ≤ file.length := by
    rw [hblock] at hsaved hsaved'
    have hbytes := (Outcome.saved.inj hsaved).trans (Outcome.saved.inj hsaved').symm
    exact rows_complete hwidth.1 (List.append_cancel_left hbytes)
  rw [← or_assoc, ← signedHeight_le_zero_iff]
  by_cases hnone : signedHeight file ≤ 0
  · exact Or.inl hnone
  · right
    have hlt : imageHeight file < 2 ^ 31 := by
      rw [signedHeight_le_zero_iff, not_or, Nat.not_le] at hnone
      exact hnone.2
    have heq : signedHeight file = imageHeight file := toInt_toInt32 hlt
    rw [heq, Int.toNat_natCast, ← stride_eq] at hrows
    exact hrows.resolve_left (by omega)

/-- What a run leaves behind depends on the file alone if and only if a byte of the file contradicts the
check of the headers, or the headers are complete and state a positive width, and the rows are complete
or there are none. -/
theorem determined_iff (file : List UInt8) : Determined file ↔ ¬ MayPass file ∨ Filled file := by
  constructor
  · intro hdet
    by_cases hpass : MayPass file
    · exact Or.inr (filled_of_determined hdet hpass)
    · exact Or.inl hpass
  · by_cases hpass : MayPass file
    · intro hcond env env' hsame
      have hfill := hcond.resolve_left (not_not_intro hpass)
      obtain ⟨htype, hbits⟩ :=
        (passes_iff_of_headers hfill.headers _).1 (passes_passingEnv hpass 0)
      obtain ⟨body, hbody⟩ :=
        main_of_filled ⟨hfill.headers, htype, hbits, hfill.width_pos, hfill.width_lt⟩ hfill
      rw [hbody env, hbody env', ← hsame.malloc, ← hsame.created]
      cases (env.malloc (blockSize file)).isSome <;> cases env.created <;> exact ⟨_, rfl, rfl⟩
    · intro _ env env' _
      have hrejected : ∀ env, main env file = .rejected := fun env =>
        main_of_not_passes fun h => hpass (mayPass_of_passes h)
      rw [hrejected env, hrejected env']
      exact ⟨_, rfl, rfl⟩

/-- The headers of a white pixel without the pixel: its mean is that of what the block contains. -/
theorem missing_pixel_undetermined : ¬ ∀ file, Determined file := by
  intro h
  have hpass : Passes (passingEnv 0) ((whitePixel 54).take 54) := by
    refine ⟨⟨?_, ?_⟩, ?_, ?_⟩ <;> decide
  have hrows := (filled_of_determined (h _) (mayPass_of_passes hpass)).rows
  revert hrows
  decide

end SystemsProgramming.GreyscaleFilter
