import SystemsProgramming.HttpServer.Proofs.RequestLineProofs

/-!
# Proofs: the Content-Type and the file that is served

The file is found by the decoded URL, the Content-Type by the URL as it is written. The two go
together as long as a known extension, with its dot, is written without escapes. An escape in it hides
the one from the other; so does a zero byte, where the name ends and the URL goes on, or a dot in an
escape that is none.
-/

namespace SystemsProgramming.HttpServer

open Foundations

variable {s url extension mime : List UInt8} {hex : Nat → UInt8}

/-! ## Types and endings -/

/-- The extensions that `get_mime` knows, with their types. -/
def knownTypes : List (List UInt8 × List UInt8) :=
  [(ascii "html", ascii "text/html"), (ascii "txt", ascii "text/plain"),
    (ascii "jpg", ascii "image/jpeg"), (ascii "jpeg", ascii "image/jpeg"),
    (ascii "png", ascii "image/png")]

/-- The extension is one of those known for a type, in upper or lower case. -/
def HasType (mime extension : List UInt8) : Prop :=
  ∃ known, (known, mime) ∈ knownTypes ∧ caseEq extension known = true

/-- The text ends in a dot, which is not its first character, and an extension known for the type. -/
def EndsIn (mime s : List UInt8) : Prop :=
  ∃ stem extension, stem ≠ [] ∧ s = stem ++ 46 :: extension ∧ HasType mime extension

theorem caseEq_trans {s t u : List UInt8} (h : caseEq s t = true) (h' : caseEq s u = true) :
    caseEq t u = true := by
  simp only [caseEq, beq_iff_eq] at h h' ⊢
  rw [← h, h']

theorem getMime_of_hasType (h : HasType mime extension) : getMime extension = mime := by
  obtain ⟨known, hmem, hcase⟩ := h
  -- an extension that is one of the known ones is none of the others
  have hno : ∀ other, caseEq known other = false → caseEq extension other = false := by
    intro other hother
    cases h' : caseEq extension other with
    | false => rfl
    | true => rw [caseEq_trans hcase h'] at hother; cases hother
  simp only [knownTypes, List.mem_cons, Prod.mk.injEq, List.not_mem_nil, or_false] at hmem
  rcases hmem with ⟨rfl, rfl⟩ | ⟨rfl, rfl⟩ | ⟨rfl, rfl⟩ | ⟨rfl, rfl⟩ | ⟨rfl, rfl⟩
  · simp [getMime, hcase]
  · simp [getMime, hcase, hno (ascii "html") (by decide)]
  · simp [getMime, hcase, hno (ascii "html") (by decide), hno (ascii "txt") (by decide)]
  · simp [getMime, hcase, hno (ascii "html") (by decide), hno (ascii "txt") (by decide)]
  · simp [getMime, hcase, hno (ascii "html") (by decide), hno (ascii "txt") (by decide),
      hno (ascii "jpg") (by decide), hno (ascii "jpeg") (by decide)]

theorem getMime_of_not_hasType (h : ∀ mime, ¬ HasType mime extension) :
    getMime extension = ascii "application/octet-stream" := by
  have hno : ∀ known mime, (known, mime) ∈ knownTypes → caseEq extension known = false := by
    intro known mime hmem
    rw [← Bool.not_eq_true]
    exact fun hcase => h mime ⟨known, hmem, hcase⟩
  simp [getMime, hno (ascii "html") (ascii "text/html") (by simp [knownTypes]),
    hno (ascii "txt") (ascii "text/plain") (by simp [knownTypes]),
    hno (ascii "jpg") (ascii "image/jpeg") (by simp [knownTypes]),
    hno (ascii "jpeg") (ascii "image/jpeg") (by simp [knownTypes]),
    hno (ascii "png") (ascii "image/png") (by simp [knownTypes])]

theorem HasType.ne_octetStream (h : HasType mime extension) :
    mime ≠ ascii "application/octet-stream" := by
  obtain ⟨known, hmem, -⟩ := h
  have hall : ∀ k ∈ knownTypes, k.2 ≠ ascii "application/octet-stream" := by decide
  exact hall _ hmem

/-- `get_mime` tells extensions apart by their types only. -/
theorem getMime_eq_iff {extension' : List UInt8} :
    getMime extension = getMime extension' ↔ ∀ mime, HasType mime extension ↔ HasType mime extension' := by
  have hone : ∀ {e e' : List UInt8}, getMime e = getMime e' → ∀ mime, HasType mime e →
      HasType mime e' := by
    intro e e' heq mime h
    by_contra hnot
    have hmime : getMime e' = mime := heq ▸ getMime_of_hasType h
    by_cases hnone : ∀ mime', ¬ HasType mime' e'
    · exact h.ne_octetStream (hmime ▸ getMime_of_not_hasType hnone)
    · push Not at hnone
      obtain ⟨mime', h'⟩ := hnone
      rw [getMime_of_hasType h'] at hmime
      exact hnot (hmime ▸ h')
  constructor
  · exact fun heq mime => ⟨hone heq mime, hone heq.symm mime⟩
  · intro hiff
    by_cases hnone : ∀ mime, ¬ HasType mime extension
    · rw [getMime_of_not_hasType hnone,
        getMime_of_not_hasType fun mime h => hnone mime ((hiff mime).2 h)]
    · push Not at hnone
      obtain ⟨mime, h⟩ := hnone
      rw [getMime_of_hasType h, getMime_of_hasType ((hiff mime).1 h)]

/-- A known extension has letters only: no dot, and no percent sign. -/
theorem HasType.letters (h : HasType mime extension) : 46 ∉ extension ∧ 37 ∉ extension ∧
    extension ≠ [] := by
  obtain ⟨known, hmem, hcase⟩ := h
  have hlower : extension.map toLower = known.map toLower := by simpa [caseEq] using hcase
  have hall : ∀ k ∈ knownTypes, 46 ∉ k.1.map toLower ∧ 37 ∉ k.1.map toLower ∧ k.1 ≠ [] := by decide
  obtain ⟨h1, h2, h3⟩ := hall _ hmem
  rw [← hlower] at h1 h2
  refine ⟨fun h => h1 (List.mem_map.2 ⟨46, h, by decide⟩),
    fun h => h2 (List.mem_map.2 ⟨37, h, by decide⟩), ?_⟩
  rintro rfl
  exact h3 (List.length_eq_zero_iff.1 (caseEq_length hcase).symm)

/-- Two known extensions with the same characters behind the first of one of them are the same. -/
theorem HasType.eq_of_tail_suffix {mime' : List UInt8} {extension' : List UInt8}
    (h : HasType mime extension) (h' : HasType mime' extension')
    (hsuffix : extension'.tail <:+ extension) :
    extension.map toLower = extension'.map toLower ∧ mime = mime' := by
  obtain ⟨known, hmem, hcase⟩ := h
  obtain ⟨known', hmem', hcase'⟩ := h'
  have hlower : extension.map toLower = known.map toLower := by simpa [caseEq] using hcase
  have hlower' : extension'.map toLower = known'.map toLower := by simpa [caseEq] using hcase'
  have hall : ∀ k ∈ knownTypes, ∀ k' ∈ knownTypes,
      (k'.1.map toLower).tail <:+ k.1.map toLower → k = k' := by decide
  have hsuffix' : (known'.map toLower).tail <:+ known.map toLower := by
    rw [← hlower, ← hlower', ← List.map_tail]
    exact hsuffix.map toLower
  obtain ⟨rfl, rfl⟩ := Prod.mk.inj (hall _ hmem _ hmem' hsuffix')
  exact ⟨hlower.trans hlower'.symm, rfl⟩

/-- No known extension is the end of a longer one. -/
theorem HasType.not_cons {mime' : List UInt8} {c : UInt8} {after : List UInt8}
    (letters : List UInt8) (h : HasType mime (letters ++ c :: after)) : ¬ HasType mime' after := by
  intro h'
  have hsuffix : after.tail <:+ letters ++ c :: after :=
    (List.tail_suffix after).trans ((List.suffix_cons c after).trans (List.suffix_append letters _))
  have hlen := congrArg List.length (h.eq_of_tail_suffix h' hsuffix).1
  simp only [List.length_map, List.length_append, List.length_cons] at hlen
  omega

/-- If two known extensions end in the same characters, up to the first of one of them, that is also the
first of the other. -/
theorem HasType.eq_first {mime' : List UInt8} {b e : UInt8} {letters after : List UInt8}
    (h : HasType mime (letters ++ b :: after)) (h' : HasType mime' (e :: after)) :
    letters = [] ∧ caseEq [b] [e] = true ∧ mime = mime' := by
  have hsuffix : after <:+ letters ++ b :: after :=
    (List.suffix_cons b after).trans (List.suffix_append letters _)
  obtain ⟨hlower, hmime⟩ := h.eq_of_tail_suffix h' hsuffix
  have hlen := congrArg List.length hlower
  simp only [List.length_map, List.length_append, List.length_cons] at hlen
  obtain rfl : letters = [] := List.eq_nil_of_length_eq_zero (by omega)
  obtain ⟨hfirst, -⟩ := List.cons.inj hlower
  exact ⟨rfl, by simp [caseEq, hfirst], hmime⟩

theorem getExtension_append {stem : List UInt8} (hstem : stem ≠ []) (hext : 46 ∉ extension) :
    getExtension (stem ++ 46 :: extension) = extension := by
  rw [getExtension, splitLast_eq_some.2 ⟨rfl, hext⟩]
  cases stem with
  | nil => exact absurd rfl hstem
  | cons c stem => rfl

/-- `get_extension` finds the extension that a text ends in. -/
theorem endsIn_iff : EndsIn mime s ↔ HasType mime (getExtension s) := by
  constructor
  · rintro ⟨stem, extension, hstem, rfl, h⟩
    rw [getExtension_append hstem h.letters.1]
    exact h
  · intro h
    cases hs : splitLast 46 s with
    | none =>
      have hnil : getExtension s = [] := by simp [getExtension, hs]
      exact absurd hnil h.letters.2.2
    | some p =>
      obtain ⟨stem, extension⟩ := p
      obtain ⟨rfl, hext⟩ := splitLast_eq_some.1 hs
      cases stem with
      | nil =>
        have hnil : getExtension ([] ++ 46 :: extension) = [] := by rw [getExtension, hs]
        exact absurd hnil h.letters.2.2
      | cons c stem =>
        rw [getExtension_append (List.cons_ne_nil c stem) hext] at h
        exact ⟨c :: stem, extension, List.cons_ne_nil c stem, rfl, h⟩

/-! ## The decoded name -/

theorem sscanf_of_digits {d e x y : UInt8} (hd : hexDigit d = some x) (he : hexDigit e = some y) :
    sscanf (d :: e :: s) = some (16 * x + y) := by
  have hspace : isSpace d = false := by
    rw [← Bool.not_eq_true]
    intro h
    simp only [isSpace, hexDigit] at h hd
    split_ifs at hd <;>
      simp only [Bool.or_eq_true, Bool.and_eq_true, decide_eq_true_eq, UInt8.le_iff_toNat_le,
        ← UInt8.toNat_inj] at * <;> simp at * <;> omega
  simp [sscanf, hspace, hd, he]

theorem getFilename_plain {c : UInt8} (hc : c ≠ 37) (i : Nat) :
    getFilename hex i (c :: s) = c :: getFilename hex (i + 1) s := by
  match s with
  | [] => rfl
  | [_] => rfl
  | _ :: _ :: _ => rw [getFilename, if_neg hc]

theorem getFilename_short (h : s.length < 2) (i : Nat) :
    getFilename hex i (37 :: s) = 37 :: s := by
  match s with
  | [] => rfl
  | [_] => rfl
  | _ :: _ :: _ => simp only [List.length_cons] at h; omega

/-- A spelled name is decoded to itself, whatever follows. -/
theorem getFilename_append {name : List UInt8} (h : Spells s name) (i : Nat) (rest : List UInt8) :
    getFilename hex i (s ++ rest) = name ++ getFilename hex (i + s.length) rest := by
  induction h generalizing i with
  | nil => rfl
  | @plain c s name hc h ih =>
    rw [List.cons_append, getFilename_plain hc, ih, List.length_cons, List.cons_append,
      Nat.add_assoc, Nat.add_comm 1]
  | @escape d e x y s name hd he h ih =>
    simp only [List.cons_append, getFilename, if_true, sscanf_of_digits hd he, Option.getD_some, ih,
      List.length_cons]
    rw [Nat.add_assoc, Nat.add_comm 3]

theorem file_append {env : Env} {name : List UInt8} (h : Spells s name) (h0 : 0 ∉ name)
    (rest : List UInt8) :
    env.file (s ++ rest) = name ++ cString (getFilename env.hex s.length rest) := by
  rw [Env.file, getFilename_append h, Nat.zero_add, cString, cString, takeWhile_append_of_not_mem h0]

theorem file_of_spells {env : Env} {name : List UInt8} (h : Spells s name) (h0 : 0 ∉ name) :
    env.file s = name := by
  have happ : env.file (s ++ []) = name ++ [] := file_append h h0 []
  rwa [List.append_nil, List.append_nil] at happ

theorem file_of_zero {env : Env} {name rest : List UInt8} (h : Spells s name) (h0 : 0 ∉ name) :
    env.file (s ++ 37 :: 48 :: 48 :: rest) = name := by
  have hzero : sscanf (48 :: 48 :: rest) = some 0 :=
    sscanf_of_digits (x := 0) (y := 0) (by decide) (by decide)
  rw [file_append h h0, getFilename, if_pos rfl, hzero]
  simp [cString]

/-! ## Characters and escapes -/

/-- The URL as it is read, from the round `i` on. A percent sign with at least two characters behind it
is an escape with these two, and is read as the byte that `sscanf` assigns or, where it finds no
number, as what `hex` was; every other character is read as itself. -/
def units (hex : Nat → UInt8) : Nat → List UInt8 → List (List UInt8 × UInt8)
  | _, [] => []
  | i, c :: d :: e :: rest =>
    if c = 37 then
      ([37, d, e], (sscanf (d :: e :: rest)).getD (hex i)) :: units hex (i + 3) rest
    else
      ([c], c) :: units hex (i + 1) (d :: e :: rest)
  | i, c :: rest => ([c], c) :: units hex (i + 1) rest

/-- What is written. -/
def chars (us : List (List UInt8 × UInt8)) : List UInt8 := us.flatMap Prod.fst

/-- What it is read as. -/
def bytes (us : List (List UInt8 × UInt8)) : List UInt8 := us.map Prod.snd

theorem chars_units (hex : Nat → UInt8) (i : Nat) (s : List UInt8) : chars (units hex i s) = s := by
  fun_induction units hex i s <;> simp_all [chars]

theorem bytes_units (hex : Nat → UInt8) (i : Nat) (s : List UInt8) :
    bytes (units hex i s) = getFilename hex i s := by
  fun_induction units hex i s with
  | case1 => rfl
  | case2 i d e rest ih =>
    rw [getFilename, if_pos rfl, ← ih]
    rfl
  | case3 i c d e rest hc ih =>
    rw [getFilename, if_neg hc, ← ih]
    rfl
  | case4 i c rest hshort ih =>
    rw [getFilename, ← ih]
    · rfl
    · exact hshort

theorem mem_units {i : Nat} {u : List UInt8 × UInt8} (h : u ∈ units hex i s) :
    u.1 = [u.2] ∨ ∃ d e, u.1 = [37, d, e] := by
  fun_induction units hex i s with
  | case1 => cases h
  | case2 i d e rest ih =>
    rcases List.mem_cons.1 h with rfl | h
    · exact Or.inr ⟨d, e, rfl⟩
    · exact ih h
  | case3 i c d e rest hc ih =>
    rcases List.mem_cons.1 h with rfl | h
    · exact Or.inl rfl
    · exact ih h
  | case4 i c rest hshort ih =>
    rcases List.mem_cons.1 h with rfl | h
    · exact Or.inl rfl
    · exact ih h

theorem chars_eq_bytes {us : List (List UInt8 × UInt8)} (h : ∀ u ∈ us, u.1 = [u.2]) :
    chars us = bytes us := by
  induction us with
  | nil => rfl
  | cons u us ih =>
    have htail : chars us = bytes us := ih fun v hv => h v (List.mem_cons_of_mem u hv)
    simp only [chars, bytes, List.flatMap_cons, List.map_cons] at htail ⊢
    rw [h u List.mem_cons_self, htail]
    rfl

/-- There are no escapes, or there is a last one. -/
theorem plain_or_last_escape {us : List (List UInt8 × UInt8)}
    (h : ∀ u ∈ us, u.1 = [u.2] ∨ ∃ d e, u.1 = [37, d, e]) :
    (∀ u ∈ us, u.1 = [u.2]) ∨
      ∃ before d e b after, us = before ++ ([37, d, e], b) :: after ∧ ∀ u ∈ after, u.1 = [u.2] := by
  induction us with
  | nil => exact Or.inl fun u hu => by cases hu
  | cons v us ih =>
    rcases ih fun u hu => h u (List.mem_cons_of_mem v hu) with hplain | ⟨before, d, e, b, after, rfl, hplain⟩
    · rcases h v List.mem_cons_self with hv | ⟨d, e, hv⟩
      · exact Or.inl (List.forall_mem_cons.2 ⟨hv, hplain⟩)
      · exact Or.inr ⟨[], d, e, v.2, us, by rw [← hv]; rfl, hplain⟩
    · exact Or.inr ⟨v :: before, d, e, b, after, rfl, hplain⟩

/-- They end in one that is read as a dot, and is not the first, and others that are read as an
extension known for the type. -/
def ReadsEnding (mime : List UInt8) (us : List (List UInt8 × UInt8)) : Prop :=
  ∃ stem dot letters, us = stem ++ dot :: letters ∧ stem ≠ [] ∧ dot.2 = 46 ∧ HasType mime (bytes letters)

theorem bytes_ne_nil {us : List (List UInt8 × UInt8)} : bytes us ≠ [] ↔ us ≠ [] :=
  not_congr List.map_eq_nil_iff

theorem endsIn_bytes_iff {us : List (List UInt8 × UInt8)} :
    EndsIn mime (bytes us) ↔ ReadsEnding mime us := by
  constructor
  · rintro ⟨stem, extension, hstem, heq, htype⟩
    obtain ⟨us, rest, rfl, rfl, hrest⟩ := List.map_eq_append_iff.1 heq
    obtain ⟨dot, letters, rfl, hdot, rfl⟩ := List.map_eq_cons_iff.1 hrest
    exact ⟨us, dot, letters, rfl, bytes_ne_nil.1 hstem, hdot, htype⟩
  · rintro ⟨stem, dot, letters, rfl, hstem, hdot, htype⟩
    refine ⟨bytes stem, bytes letters, bytes_ne_nil.2 hstem, ?_, htype⟩
    rw [← hdot]
    exact List.map_append

/-! ## An escape in an ending -/

/-- Only what is behind the last dot counts. -/
theorem endsIn_append_congr {stem stem' after : List UInt8} (hdot : 46 ∈ after) (hstem : stem ≠ [])
    (hstem' : stem' ≠ []) : EndsIn mime (stem ++ after) ↔ EndsIn mime (stem' ++ after) := by
  obtain ⟨⟨before, extension⟩, hsplit⟩ := Option.ne_none_iff_exists'.1 fun h =>
    splitLast_eq_none.1 h hdot
  obtain ⟨rfl, hext⟩ := splitLast_eq_some.1 hsplit
  rw [endsIn_iff, endsIn_iff, ← List.append_assoc, ← List.append_assoc,
    getExtension_append (List.append_ne_nil_of_left_ne_nil hstem before) hext,
    getExtension_append (List.append_ne_nil_of_left_ne_nil hstem' before) hext]

/-- An ending as it is written, whose dot is not behind the escape, has it in the escape. -/
theorem endsIn_escape_iff {stem after : List UInt8} {d e : UInt8} (hdot : 46 ∉ after) :
    EndsIn mime (stem ++ 37 :: d :: e :: after) ↔
      e = 46 ∧ HasType mime after ∨ d = 46 ∧ HasType mime (e :: after) := by
  constructor
  · rintro ⟨stem', extension, -, heq, htype⟩
    rcases List.append_eq_append_iff.1 heq with ⟨mid, rfl, hmid⟩ | ⟨mid, rfl, hmid⟩
    · match mid with
      | [] => cases hmid
      | [_] =>
        obtain ⟨-, rfl, rfl⟩ : _ ∧ d = 46 ∧ e :: after = extension := by simpa using hmid
        exact Or.inr ⟨rfl, htype⟩
      | [_, _] =>
        obtain ⟨-, -, rfl, rfl⟩ : _ ∧ _ ∧ e = 46 ∧ after = extension := by simpa using hmid
        exact Or.inl ⟨rfl, htype⟩
      | _ :: _ :: _ :: mid =>
        obtain ⟨-, -, -, rfl⟩ : _ ∧ _ ∧ _ ∧ after = mid ++ 46 :: extension := by simpa using hmid
        simp at hdot
    · cases mid with
      | nil => cases hmid
      | cons c mid =>
        obtain ⟨-, rfl⟩ := List.cons.inj hmid
        exact absurd (by simp) htype.letters.2.1
  · rintro (⟨rfl, htype⟩ | ⟨rfl, htype⟩)
    · exact ⟨stem ++ [37, d], after, by simp, by simp, htype⟩
    · exact ⟨stem ++ [37], e :: after, by simp, by simp, htype⟩

/-- The same for the byte that an escape is read as. -/
theorem readsEnding_byte_iff {before after : List (List UInt8 × UInt8)} {u : List UInt8 × UInt8}
    (hdot : 46 ∉ bytes after) :
    ReadsEnding mime (before ++ u :: after) ↔
      (u.2 = 46 ∧ before ≠ [] ∧ HasType mime (bytes after)) ∨
      ∃ stem dot letters, before = stem ++ dot :: letters ∧ stem ≠ [] ∧ dot.2 = 46 ∧
        HasType mime (bytes letters ++ u.2 :: bytes after) := by
  have hbytes : ∀ letters : List (List UInt8 × UInt8),
      bytes (letters ++ u :: after) = bytes letters ++ u.2 :: bytes after := fun _ => List.map_append
  constructor
  · rintro ⟨stem, dot, letters, heq, hstem, hdot2, htype⟩
    rcases List.append_eq_append_iff.1 heq with ⟨mid, rfl, hmid⟩ | ⟨mid, rfl, hmid⟩
    · cases mid with
      | nil =>
        obtain ⟨rfl, rfl⟩ := List.cons.inj hmid
        exact Or.inl ⟨hdot2, by simpa using hstem, htype⟩
      | cons v mid =>
        obtain ⟨-, rfl⟩ := List.cons.inj hmid
        have hmem : dot ∈ mid ++ dot :: letters := List.mem_append_right mid List.mem_cons_self
        exact absurd (List.mem_map.2 ⟨dot, hmem, hdot2⟩) hdot
    · cases mid with
      | nil =>
        obtain ⟨rfl, rfl⟩ := List.cons.inj hmid
        exact Or.inl ⟨hdot2, by simpa using hstem, htype⟩
      | cons v mid =>
        obtain ⟨rfl, rfl⟩ := List.cons.inj hmid
        exact Or.inr ⟨stem, dot, mid, rfl, hstem, hdot2, hbytes mid ▸ htype⟩
  · rintro (⟨hu, hbefore, htype⟩ | ⟨stem, dot, letters, rfl, hstem, hdot2, htype⟩)
    · exact ⟨before, u, after, rfl, hbefore, hu, htype⟩
    · exact ⟨stem, dot, letters ++ u :: after, by simp, hstem, hdot2, (hbytes letters).symm ▸ htype⟩

/-- The escape `%de`, which is read as `b`, is the last, and hides no ending. `before` is what the URL is
read as up to the escape, `after` are the characters behind it.

With a known extension behind it, it is read as a dot that is not the first character if and only if its
second character is a dot. If its first character is a dot that begins a known extension, it is read as
the first letter of that extension, behind a dot that is not the first character. And it is read as a
letter of no other known extension. -/
structure EscapeFits (before : List (List UInt8 × UInt8)) (d e b : UInt8) (after : List UInt8) : Prop where
  dot : ∀ mime, HasType mime after → (b = 46 ∧ before ≠ [] ↔ e = 46)
  written : ∀ mime, d = 46 → HasType mime (e :: after) →
    caseEq [b] [e] = true ∧ ∃ stem dot, before = stem ++ [dot] ∧ stem ≠ [] ∧ dot.2 = 46
  read : ∀ mime stem dot letters, before = stem ++ dot :: letters → stem ≠ [] → dot.2 = 46 →
    HasType mime (bytes letters ++ b :: after) → letters = [] ∧ d = 46 ∧ caseEq [b] [e] = true

theorem caseEq_cons_of_head {b e : UInt8} (h : caseEq [b] [e] = true) (s : List UInt8) :
    caseEq (b :: s) (e :: s) = true := by
  simp only [caseEq, List.map_cons, List.map_nil, beq_iff_eq, List.cons.injEq, and_true] at h ⊢
  exact h

theorem HasType.congr {extension' : List UInt8} (h : HasType mime extension)
    (hcase : caseEq extension extension' = true) : HasType mime extension' := by
  obtain ⟨known, hmem, hknown⟩ := h
  exact ⟨known, hmem, caseEq_trans hcase hknown⟩

theorem caseEq_symm {s t : List UInt8} (h : caseEq s t = true) : caseEq t s = true := by
  simp only [caseEq, beq_iff_eq] at h ⊢
  exact h.symm

/-- If the escape fits, what is written and what is read end in extensions of the same types. -/
theorem EscapeFits.endsIn_iff {before after : List (List UInt8 × UInt8)} {d e b : UInt8}
    (h : EscapeFits before d e b (bytes after)) (stem : List UInt8) :
    EndsIn mime (stem ++ 37 :: d :: e :: bytes after) ↔
      ReadsEnding mime (before ++ ([37, d, e], b) :: after) := by
  by_cases hdot : 46 ∈ bytes after
  · have hbytes : bytes (before ++ ([37, d, e], b) :: after) = (bytes before ++ [b]) ++ bytes after := by
      simp [bytes]
    have hiff : EndsIn mime ((stem ++ [37, d, e]) ++ bytes after) ↔
        EndsIn mime ((bytes before ++ [b]) ++ bytes after) :=
      endsIn_append_congr hdot (by simp) (by simp)
    rw [← endsIn_bytes_iff, hbytes, ← hiff]
    simp
  · rw [endsIn_escape_iff hdot, readsEnding_byte_iff hdot]
    constructor
    · rintro (⟨he, htype⟩ | ⟨hd, htype⟩)
      · obtain ⟨hb, hbefore⟩ := (h.dot mime htype).2 he
        exact Or.inl ⟨hb, hbefore, htype⟩
      · obtain ⟨hcase, name, dot, hbefore, hname, hdot2⟩ := h.written mime hd htype
        exact Or.inr ⟨name, dot, [], hbefore, hname, hdot2,
          htype.congr (caseEq_symm (caseEq_cons_of_head hcase _))⟩
    · rintro (⟨hb, hbefore, htype⟩ | ⟨name, dot, letters, hbefore, hname, hdot2, htype⟩)
      · exact Or.inl ⟨(h.dot mime htype).1 ⟨hb, hbefore⟩, htype⟩
      · obtain ⟨rfl, hd, hcase⟩ := h.read mime name dot letters hbefore hname hdot2 htype
        exact Or.inr ⟨hd, htype.congr (caseEq_cons_of_head hcase _)⟩

/-- The escape fits if and only if what is written and what is read end in extensions of the same
types. -/
theorem escapeFits_iff {stem : List UInt8} {before after : List (List UInt8 × UInt8)} {d e b : UInt8} :
    EscapeFits before d e b (bytes after) ↔ ∀ mime, EndsIn mime (stem ++ 37 :: d :: e :: bytes after) ↔
      ReadsEnding mime (before ++ ([37, d, e], b) :: after) := by
  refine ⟨fun h mime => h.endsIn_iff stem, fun h => ⟨fun mime htype => ?_, fun mime hd htype => ?_,
    fun mime name dot letters hbefore hname hdot2 htype => ?_⟩⟩
  · have hiff := h mime
    rw [endsIn_escape_iff htype.letters.1, readsEnding_byte_iff htype.letters.1] at hiff
    -- the known extension behind the escape is not also the end of a longer one
    constructor
    · rintro ⟨hb, hbefore⟩
      rcases hiff.2 (Or.inl ⟨hb, hbefore, htype⟩) with ⟨he, -⟩ | ⟨-, hlong⟩
      · exact he
      · exact absurd htype (HasType.not_cons [] hlong)
    · intro he
      rcases hiff.1 (Or.inl ⟨he, htype⟩) with ⟨hb, hbefore, -⟩ | ⟨name, dot, letters, -, -, -, hlong⟩
      · exact ⟨hb, hbefore⟩
      · exact absurd htype (hlong.not_cons (bytes letters))
  · have hdot : 46 ∉ bytes after := fun hmem => htype.letters.1 (List.mem_cons_of_mem e hmem)
    have hiff := h mime
    rw [endsIn_escape_iff hdot, readsEnding_byte_iff hdot] at hiff
    rcases hiff.1 (Or.inr ⟨hd, htype⟩) with
      ⟨-, -, hshort⟩ | ⟨name, dot, letters, hbefore, hname, hdot2, hread⟩
    · exact absurd hshort (HasType.not_cons [] htype)
    · obtain ⟨hletters, hcase, -⟩ := hread.eq_first htype
      obtain rfl : letters = [] := List.map_eq_nil_iff.1 hletters
      exact ⟨hcase, name, dot, hbefore, hname, hdot2⟩
  · have hdot : 46 ∉ bytes after := fun hmem =>
      htype.letters.1 (List.mem_append_right _ (List.mem_cons_of_mem b hmem))
    have hiff := h mime
    rw [endsIn_escape_iff hdot, readsEnding_byte_iff hdot] at hiff
    rcases hiff.2 (Or.inr ⟨name, dot, letters, hbefore, hname, hdot2, htype⟩) with
      ⟨-, hshort⟩ | ⟨hd, hwritten⟩
    · exact absurd hshort (htype.not_cons (bytes letters))
    · obtain ⟨hletters, hcase, -⟩ := htype.eq_first hwritten
      exact ⟨List.map_eq_nil_iff.1 hletters, hd, hcase⟩

/-! ## The response -/

/-- The beginning of a `200` response, up to the type. -/
def typeField : List UInt8 := ascii "HTTP/1.1 200 OK\r\nContent-Type: "

/-- The Content-Type of a `200` response. -/
def contentType (response : List UInt8) : Option (List UInt8) :=
  if typeField <+: response then some ((response.drop typeField.length).takeWhile (· ≠ 13)) else none

theorem contentType_header (h : 13 ∉ mime) (body : List UInt8) :
    contentType (header mime ++ body) = some mime := by
  have hsplit : header mime ++ body = typeField ++ (mime ++ 13 :: (ascii "\n\r\n" ++ body)) := by
    have hend : ascii "\r\n\r\n" = 13 :: ascii "\n\r\n" := by decide
    rw [header, hend, ← typeField]
    simp only [List.append_assoc, List.cons_append]
  rw [contentType, hsplit, if_pos (List.prefix_append _ _), List.drop_left, takeWhile_append_cons h]

theorem not_mem_getMime (extension : List UInt8) : 13 ∉ getMime extension := by
  unfold getMime
  split_ifs <;> decide

/-- The handler gets this URL. -/
def Accepted (env : Env) (arrivals : List (List UInt8)) (url : List UInt8) : Prop :=
  (arrivals.headD []).take bufferSize ≠ [] ∧
    urlFile (env.buffer ((arrivals.headD []).take bufferSize)) = some url

/-- The handler sends a `200` response with this Content-Type. -/
def SendsType (env : Env) (arrivals : List (List UInt8)) (mime : List UInt8) : Prop :=
  ∃ response, handler env arrivals = .sent response ∧ contentType response = some mime

variable {env : Env} {arrivals : List (List UInt8)}

theorem Accepted.handler_eq (h : Accepted env arrivals url) :
    handler env arrivals = serve env url := by
  rw [HttpServer.handler_eq, if_neg h.1, h.2]
  rfl

/-- If its file can be opened, a URL gets the type of its own extension, which must fit into the
array. -/
theorem sendsType_iff (haccepted : Accepted env arrivals url)
    (hopen : env.openFile (env.file url) ≠ none) :
    SendsType env arrivals mime ↔ (getExtension url).length < 32 ∧ mime = getMime (getExtension url) := by
  obtain ⟨fd, hfd⟩ := Option.ne_none_iff_exists'.1 hopen
  rw [SendsType, haccepted.handler_eq, serve]
  by_cases hlen : 32 ≤ (getExtension url).length
  · rw [if_pos hlen]
    simp [Nat.not_lt.2 hlen]
  · have htype : contentType (buildHttp env.openFile (env.file url) (getExtension url)) =
        some (getMime (getExtension url)) := by
      rw [buildHttp, hfd]
      exact contentType_header (not_mem_getMime _) _
    rw [if_neg hlen]
    constructor
    · rintro ⟨response, hresponse, hmime⟩
      obtain rfl := Outcome.sent.inj hresponse
      rw [htype] at hmime
      exact ⟨Nat.not_le.1 hlen, (Option.some.inj hmime).symm⟩
    · rintro ⟨-, rfl⟩
      exact ⟨_, rfl, htype⟩

/-! ## Agreement -/

/-- The extension is short, and the URL shows the type of the file that it names.

If a character or an escape is read as a zero byte, what stands before it is read as an ending of the
type in which the URL goes on to end, or as none if the URL ends in none. Otherwise the last escape
hides no ending, neither one that is written nor one that is read. -/
structure ShowsType (env : Env) (url : List UInt8) : Prop where
  short : (getExtension url).length < 32
  zero : ∀ before u after, units env.hex 0 url = before ++ u :: after → u.2 = 0 →
    (∀ v ∈ before, v.2 ≠ 0) → ∀ mime, EndsIn mime url ↔ ReadsEnding mime before
  escape : ∀ before d e b after, units env.hex 0 url = before ++ ([37, d, e], b) :: after →
    (∀ v ∈ units env.hex 0 url, v.2 ≠ 0) → (∀ v ∈ after, v.1 = [v.2]) →
    EscapeFits before d e b (chars after)

theorem file_eq_bytes (env : Env) (url : List UInt8) :
    env.file url = cString (bytes (units env.hex 0 url)) := by
  rw [Env.file, bytes_units]

theorem zero_not_mem_bytes {us : List (List UInt8 × UInt8)} (h : ∀ u ∈ us, u.2 ≠ 0) :
    0 ∉ bytes us := by
  intro hmem
  obtain ⟨u, hu, hu0⟩ := List.mem_map.1 hmem
  exact h u hu hu0

theorem file_of_zero_unit {before after : List (List UInt8 × UInt8)} {u : List UInt8 × UInt8}
    (hunits : units env.hex 0 url = before ++ u :: after) (hu : u.2 = 0)
    (hbefore : ∀ v ∈ before, v.2 ≠ 0) : env.file url = bytes before := by
  have hbytes : bytes (before ++ u :: after) = bytes before ++ 0 :: bytes after := by
    rw [← hu]
    simp [bytes]
  rw [file_eq_bytes, hunits, hbytes, cString_append_zero (zero_not_mem_bytes hbefore)]

theorem file_of_nonzero (hnonzero : ∀ v ∈ units env.hex 0 url, v.2 ≠ 0) :
    env.file url = bytes (units env.hex 0 url) := by
  rw [file_eq_bytes, cString_of_not_mem (zero_not_mem_bytes hnonzero)]

/-- What is written and what is read, around the last escape. -/
theorem endsIn_of_last_escape {before after : List (List UInt8 × UInt8)} {d e b : UInt8}
    (hunits : units env.hex 0 url = before ++ ([37, d, e], b) :: after)
    (hnonzero : ∀ v ∈ units env.hex 0 url, v.2 ≠ 0) (hafter : ∀ v ∈ after, v.1 = [v.2]) :
    (∀ mime, EndsIn mime url ↔ EndsIn mime (env.file url)) ↔
      EscapeFits before d e b (chars after) := by
  have hurl : url = chars before ++ 37 :: d :: e :: bytes after := by
    rw [← chars_eq_bytes hafter]
    conv_lhs => rw [← chars_units env.hex 0 url, hunits]
    simp [chars]
  simp only [file_of_nonzero hnonzero, endsIn_bytes_iff]
  rw [chars_eq_bytes hafter, escapeFits_iff, ← hurl, hunits]

theorem showsType_iff : ShowsType env url ↔
    (getExtension url).length < 32 ∧ ∀ mime, EndsIn mime url ↔ EndsIn mime (env.file url) := by
  constructor
  · intro h
    refine ⟨h.short, ?_⟩
    by_cases hnonzero : ∀ v ∈ units env.hex 0 url, v.2 ≠ 0
    · rcases plain_or_last_escape fun u hu => mem_units hu with
        hplain | ⟨before, d, e, b, after, hunits, hafter⟩
      · have hfile : env.file url = url := by
          rw [file_of_nonzero hnonzero, ← chars_eq_bytes hplain, chars_units]
        intro mime
        rw [hfile]
      · exact (endsIn_of_last_escape hunits hnonzero hafter).2
          (h.escape before d e b after hunits hnonzero hafter)
    · push Not at hnonzero
      obtain ⟨v, hv, hv0⟩ := hnonzero
      have hfind : ((units env.hex 0 url).find? (·.2 = 0)).isSome :=
        List.find?_isSome.2 ⟨v, hv, decide_eq_true hv0⟩
      obtain ⟨u, hu⟩ := Option.isSome_iff_exists.1 hfind
      obtain ⟨hu0, before, after, hunits, hbefore⟩ := List.find?_eq_some_iff_append.1 hu
      have hbefore' : ∀ w ∈ before, w.2 ≠ 0 := fun w hw => by simpa using hbefore w hw
      intro mime
      rw [file_of_zero_unit hunits (of_decide_eq_true hu0) hbefore', endsIn_bytes_iff]
      exact h.zero before u after hunits (of_decide_eq_true hu0) hbefore' mime
  · rintro ⟨hshort, hends⟩
    refine ⟨hshort, fun before u after hunits hu hbefore mime => ?_,
      fun before d e b after hunits hnonzero hafter =>
        (endsIn_of_last_escape hunits hnonzero hafter).1 hends⟩
    rw [hends mime, file_of_zero_unit hunits hu hbefore, endsIn_bytes_iff]

/-- A URL without escapes shows the type of its file. -/
theorem showsType_of_plain (hshort : (getExtension url).length < 32) (h0 : 0 ∉ url) (h : 37 ∉ url) :
    ShowsType env url := by
  refine showsType_iff.2 ⟨hshort, fun mime => ?_⟩
  rw [file_of_spells (Spells.self h) h0]

/-- The Content-Type is that of the file which is served if and only if the URL shows it; and URLs that
do so get the same type if they name the same file. -/
theorem sendsType_of_file_iff (haccepted : Accepted env arrivals url)
    (hopen : env.openFile (env.file url) ≠ none) :
    (SendsType env arrivals (getMime (getExtension (env.file url))) ↔ ShowsType env url) ∧
    (ShowsType env url → ∀ env' arrivals' url', Accepted env' arrivals' url' →
      env'.openFile (env'.file url') ≠ none → env'.file url' = env.file url →
      ShowsType env' url' → ∃ mime, SendsType env arrivals mime ∧ SendsType env' arrivals' mime) := by
  have hiff : ∀ {env arrivals url}, Accepted env arrivals url →
      env.openFile (env.file url) ≠ none →
      (SendsType env arrivals (getMime (getExtension (env.file url))) ↔ ShowsType env url) := by
    intro env arrivals url haccepted hopen
    rw [sendsType_iff haccepted hopen, showsType_iff, eq_comm, getMime_eq_iff]
    simp only [endsIn_iff]
  refine ⟨hiff haccepted hopen, fun hshows env' arrivals' url' haccepted' hopen' hfile hshows' => ?_⟩
  have hsends := (hiff haccepted' hopen').2 hshows'
  rw [hfile] at hsends
  exact ⟨_, (hiff haccepted hopen).2 hshows, hsends⟩

/-- The type of `a.html`. -/
theorem plain_html_agrees :
    SendsType ⟨[], fun _ => 0, fun _ => some fun _ _ => some []⟩
      [ascii "GET /a.html HTTP/1.1\r\n\r\n"] (ascii "text/html") := by
  have haccepted : Accepted ⟨[], fun _ => 0, fun _ => some fun _ _ => some []⟩
      [ascii "GET /a.html HTTP/1.1\r\n\r\n"] (ascii "a.html") := by constructor <;> decide
  exact (sendsType_of_file_iff haccepted (by decide)).1.2
    (showsType_of_plain (by decide) (by decide) (by decide))

/-- With its dot escaped the same name is served as something else. -/
theorem escaped_dot_disagrees : ¬ ∀ (env : Env) (arrivals : List (List UInt8)) (url : List UInt8),
    Accepted env arrivals url → env.openFile (env.file url) ≠ none →
    SendsType env arrivals (getMime (getExtension (env.file url))) := by
  intro h
  have haccepted : Accepted ⟨[], fun _ => 0, fun _ => some fun _ _ => some []⟩
      [ascii "GET /a%2Ehtml HTTP/1.1\r\n\r\n"] (ascii "a%2Ehtml") := by constructor <;> decide
  obtain ⟨-, heq⟩ := (sendsType_iff haccepted (by decide)).1 (h _ _ _ haccepted (by decide))
  revert heq
  decide

end SystemsProgramming.HttpServer
