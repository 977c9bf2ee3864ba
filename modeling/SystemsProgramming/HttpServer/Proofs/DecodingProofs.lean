import SystemsProgramming.HttpServer.Filename
import SystemsProgramming.HttpServer.Proofs.ContentTypeProofs

/-!
# Proofs: what `get_filename` makes of escapes

An escape in order is decoded to the byte it spells, whatever stands around it, and takes more room in
the URL than in the name. An escape that `sscanf` finds no number in leaves `hex` as it was, and the
name depends on that unless it has ended before.
-/

namespace SystemsProgramming.HttpServer

open Foundations

variable {hex hex' : Nat → UInt8} {file result s name : List UInt8}

/-! ## The block -/

/-- One round of the loop: an escape takes three characters of the URL, everything else one. -/
theorem getFilename_cons (hex : Nat → UInt8) (i : Nat) (c : UInt8) (s : List UInt8) :
    getFilename hex i (c :: s) =
      if c = 37 ∧ 2 ≤ s.length then (sscanf s).getD (hex i) :: getFilename hex (i + 3) (s.drop 2)
      else c :: getFilename hex (i + 1) s := by
  match s with
  | [] | [_] => simp [getFilename]
  | d :: e :: s =>
    have hlen : 2 ≤ (d :: e :: s).length := by
      rw [List.length_cons, List.length_cons]
      omega
    rw [getFilename]
    by_cases hc : c = 37
    · rw [if_pos hc, if_pos ⟨hc, hlen⟩]
      rfl
    · rw [if_neg hc, if_neg fun h => hc h.1]

theorem getFilename_escape (hs : 2 ≤ s.length) (i : Nat) :
    getFilename hex i (37 :: s) =
      (sscanf s).getD (hex i) :: getFilename hex (i + 3) (s.drop 2) := by
  rw [getFilename_cons, if_pos ⟨rfl, hs⟩]

theorem store_bind_eq {b : UInt8} {k : Nat} {bytes : List UInt8}
    {f : List UInt8 → Option (List UInt8)} (hk : k < result.length)
    (h : f (result.set k b) = some ((result.set k b).take (k + 1) ++ bytes ++
      0 :: (result.set k b).drop (k + 1 + bytes.length + 1))) :
    (store result k b).bind f = some (result.take k ++ b :: bytes ++
      0 :: result.drop (k + (b :: bytes).length + 1)) := by
  have htake : (result.set k b).take (k + 1) = result.take k ++ [b] := by
    rw [List.take_succ_eq_append_getElem (by rwa [List.length_set]), List.take_set_of_le (Nat.le_refl k),
      List.getElem_set_self]
  rw [store, if_pos hk, Option.bind_some, h, htake, List.drop_set_of_lt (by omega), List.length_cons,
    show k + 1 + bytes.length + 1 = k + (bytes.length + 1) + 1 by omega]
  simp only [List.append_assoc, List.cons_append, List.nil_append]

/-- With room for a byte for each character that is left and for the terminator, no store is outside the
block, and what is written are the bytes of `getFilename`. -/
theorem filenameLoop_eq {rounds i resultLen : Nat} (hi : i ≤ file.length)
    (hrounds : file.length < i + rounds)
    (hroom : resultLen + (file.length - i) < result.length) :
    filenameLoop hex file rounds i resultLen result =
      some (result.take resultLen ++ getFilename hex i (file.drop i) ++
        0 :: result.drop (resultLen + (getFilename hex i (file.drop i)).length + 1)) := by
  induction rounds generalizing i resultLen result with
  | zero => omega
  | succ rounds ih =>
    rw [filenameLoop]
    by_cases hlt : i < file.length
    · have hdrop : file.drop i = file.getD i 0 :: file.drop (i + 1) := by
        rw [List.drop_eq_getElem_cons hlt, List.getD_eq_getElem?_getD, List.getElem?_eq_getElem hlt,
          Option.getD_some]
      have hcond : 2 ≤ (file.drop (i + 1)).length ↔ i + 2 < file.length := by
        rw [List.length_drop]
        omega
      rw [if_pos hlt, hdrop, getFilename_cons]
      simp only [hcond, List.drop_drop]
      split
      · rename_i hescape
        refine store_bind_eq (by omega) (ih (by omega) (by omega) ?_)
        rw [List.length_set]
        omega
      · refine store_bind_eq (by omega) (ih (by omega) (by omega) ?_)
        rw [List.length_set]
        omega
    · obtain rfl : i = file.length := by omega
      have hroom' : resultLen < result.length := by omega
      rw [if_neg hlt, List.drop_length, getFilename, store, if_pos hroom', List.set_eq_take_append_cons_drop,
        if_pos hroom', List.append_nil, List.length_nil, Nat.add_zero]

theorem filenameIn_eq (hresult : result.length = file.length + 1) :
    filenameIn hex file result = some (getFilename hex 0 file ++
      0 :: result.drop ((getFilename hex 0 file).length + 1)) := by
  have hloop : filenameIn hex file result = some (result.take 0 ++ getFilename hex 0 (file.drop 0) ++
      0 :: result.drop (0 + (getFilename hex 0 (file.drop 0)).length + 1)) :=
    filenameLoop_eq (Nat.zero_le _) (by omega) (by omega)
  rwa [List.take_zero, List.nil_append, List.drop_zero, Nat.zero_add] at hloop

/-! ## Escapes in order -/

/-- From every encoding of a string without zero bytes, `get_filename` gets the string back, and none of
its stores is outside the block, which has room for the encoding. -/
theorem decodes_spelling (h : Spells s name) (h0 : 0 ∉ name) :
    0 ∉ s ∧ ∀ hex result, result.length = s.length + 1 →
      ∃ decoded, filenameIn hex s result = some decoded ∧ cString decoded = name := by
  refine ⟨h.zero_not_mem h0, fun hex result hresult => ⟨_, filenameIn_eq hresult, ?_⟩⟩
  have hname : getFilename hex 0 s = name := by
    have happ : getFilename hex 0 (s ++ []) = name ++ [] := getFilename_append h 0 []
    rwa [List.append_nil, List.append_nil] at happ
  rw [hname, cString_append_zero h0]

/-- The name `a%2F/`, with the percent sign and the last slash encoded. -/
theorem decodes_percent_sign : 0 ∉ ascii "a%252F%2f" ∧ ∀ hex result, result.length = 10 →
    ∃ decoded, filenameIn hex (ascii "a%252F%2f") result = some decoded ∧
      cString decoded = ascii "a%2F/" := by
  have h : Spells (ascii "a%252F%2f") (ascii "a%2F/") := by
    refine .plain (by decide) (.escape (x := 2) (y := 5) (by decide) (by decide) ?_)
    refine .plain (by decide) (.plain (by decide) ?_)
    exact .escape (x := 2) (y := 15) (by decide) (by decide) .nil
  exact decodes_spelling h (by decide)

/-! ## Escapes in which there is no number -/

/-- The text begins with a number that one or two characters are enough for: a digit, unless it begins
`0x`, or a sign and a digit. -/
def BeginsWithNumber : List UInt8 → Prop
  | [] => False
  | [c] => hexDigit c ≠ none
  | c :: d :: _ => (hexDigit c ≠ none ∧ ¬ (c = 48 ∧ (d = 120 ∨ d = 88))) ∨
    ((c = 43 ∨ c = 45) ∧ hexDigit d ≠ none)

/-- `sscanf` assigns a number if there is one behind the white space. -/
theorem sscanf_ne_none_iff : sscanf s ≠ none ↔ BeginsWithNumber (s.dropWhile isSpace) := by
  have hx : hexDigit 120 = none ∧ hexDigit 88 = none := by decide
  have hsigns : hexDigit 43 = none ∧ hexDigit 45 = none := by decide
  unfold sscanf
  match s.dropWhile isSpace with
  | [] => simp [BeginsWithNumber]
  | [c] => simp [BeginsWithNumber]
  | c :: d :: rest =>
    simp only [List.take_succ_cons, List.take_zero, BeginsWithNumber]
    cases hc : hexDigit c with
    | some x =>
      have hsign : ¬ (c = 43 ∨ c = 45) := by
        rintro (rfl | rfl)
        · simp [hsigns.1] at hc
        · simp [hsigns.2] at hc
      cases hd : hexDigit d with
      | some y =>
        have hletter : ¬ (d = 120 ∨ d = 88) := by
          rintro (rfl | rfl)
          · simp [hx.1] at hd
          · simp [hx.2] at hd
        simp [hletter]
      | none => by_cases hbase : c = 48 ∧ (d = 120 ∨ d = 88) <;> simp [hbase, hsign]
    | none =>
      by_cases h43 : c = 43
      · simp [h43]
      · by_cases h45 : c = 45 <;> simp [h43, h45]

/-- Every escape that is decoded before the name ends has a number in it. Escapes are decoded from left
to right, and the two characters behind one are skipped; the name ends with the first zero byte. -/
inductive Decided : List UInt8 → Prop where
  | nil : Decided []
  | plain {c t} (hc : c ≠ 37) (h : Decided t) : Decided (c :: t)
  | short {t : List UInt8} (ht : t.length < 2) : Decided (37 :: t)
  | ended {t : List UInt8} (ht : 2 ≤ t.length) (hzero : sscanf t = some 0) : Decided (37 :: t)
  | escape {t : List UInt8} (ht : 2 ≤ t.length) (hnumber : BeginsWithNumber (t.dropWhile isSpace))
    (h : Decided (t.drop 2)) : Decided (37 :: t)

theorem cString_cons {c : UInt8} (hc : c ≠ 0) (s : List UInt8) : cString (c :: s) = c :: cString s := by
  simp [cString, hc]

/-- The first byte of the name decides no other. -/
theorem cString_cons_congr (c : UInt8) {t t' : List UInt8} (h : cString t = cString t') :
    cString (c :: t) = cString (c :: t') := by
  by_cases hc : c = 0
  · rw [hc]
    rfl
  · rw [cString_cons hc, cString_cons hc, h]

theorem Decided.determined (h : Decided s) (i : Nat) :
    cString (getFilename hex i s) = cString (getFilename hex' i s) := by
  induction h generalizing i with
  | nil => rfl
  | plain hc h ih =>
    rw [getFilename_plain hc, getFilename_plain hc]
    exact cString_cons_congr _ (ih (i + 1))
  | short ht => rw [getFilename_short ht, getFilename_short ht]
  | ended ht hzero =>
    rw [getFilename_escape ht, getFilename_escape ht, hzero]
    rfl
  | escape ht hnumber h ih =>
    obtain ⟨x, hx⟩ := Option.ne_none_iff_exists'.1 (sscanf_ne_none_iff.2 hnumber)
    rw [getFilename_escape ht, getFilename_escape ht, hx]
    exact cString_cons_congr _ (ih (i + 3))

theorem decided_of_determined {url : List UInt8} (h0 : 0 ∉ url) {i : Nat}
    (h : ∀ hex hex', cString (getFilename hex i url) = cString (getFilename hex' i url)) :
    Decided url := by
  induction hn : url.length using Nat.strongRecOn generalizing url i with
  | ind n ih =>
    subst hn
    match url with
    | [] => exact .nil
    | c :: t =>
      rw [List.mem_cons, not_or] at h0
      by_cases hc : c = 37
      · subst hc
        by_cases ht : t.length < 2
        · exact .short ht
        · have ht' : 2 ≤ t.length := not_lt.1 ht
          simp only [getFilename_escape ht'] at h
          cases hscan : sscanf t with
          | none =>
            -- two values of `hex` are seen
            have heq := h (fun _ => 1) (fun _ => 2)
            rw [hscan, Option.getD_none, Option.getD_none, cString_cons (by decide),
              cString_cons (by decide)] at heq
            exact absurd (List.cons.inj heq).1 (by decide)
          | some x =>
            by_cases hx : x = 0
            · exact .ended ht' (hx ▸ hscan)
            · simp only [hscan, Option.getD_some, cString_cons hx] at h
              have hdrop : (t.drop 2).length < (37 :: t).length := by
                rw [List.length_drop, List.length_cons]
                omega
              refine .escape ht' (sscanf_ne_none_iff.1 (by simp [hscan])) ?_
              exact ih _ hdrop (fun hmem => h0.2 (List.mem_of_mem_drop hmem))
                (fun hex hex' => (List.cons.inj (h hex hex')).2) rfl
      · simp only [getFilename_plain hc, cString_cons (Ne.symm h0.1)] at h
        exact .plain hc (ih _ (by simp) h0.2 (fun hex hex' => (List.cons.inj (h hex hex')).2) rfl)

/-- The name is the same for every content of `hex` if and only if each escape that is decoded before the
name ends has a number in it. -/
theorem file_determined_iff {url : List UInt8} (h0 : 0 ∉ url) :
    (∀ env env' : Env, env.file url = env'.file url) ↔ Decided url := by
  constructor
  · intro h
    exact decided_of_determined h0 fun hex hex' =>
      h ⟨[], hex, fun _ => none⟩ ⟨[], hex', fun _ => none⟩
  · exact fun h env env' => h.determined 0

/-- An escape with one digit, and one with a sign. -/
theorem odd_escapes_determined : 0 ∉ ascii "%4g%+5a" ∧
    ∀ env env' : Env, env.file (ascii "%4g%+5a") = env'.file (ascii "%4g%+5a") := by
  have h0 : 0 ∉ ascii "%4g%+5a" := by decide
  refine ⟨h0, (file_determined_iff h0).2 ?_⟩
  refine .escape (by decide) (sscanf_ne_none_iff.1 (by decide)) ?_
  refine .escape (by decide) (sscanf_ne_none_iff.1 (by decide)) ?_
  exact .plain (by decide) .nil

/-- `%zz` leaves `hex` as it was. -/
theorem no_number_undetermined : ¬ ∀ url, 0 ∉ url → ∀ env env' : Env, env.file url = env'.file url := by
  intro h
  have heq := h (ascii "%zz") (by decide) ⟨[], fun _ => 1, fun _ => none⟩ ⟨[], fun _ => 2, fun _ => none⟩
  revert heq
  decide

end SystemsProgramming.HttpServer
