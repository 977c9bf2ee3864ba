import SystemsProgramming.HttpServer.Proofs.ContentTypeProofs

/-!
# Proofs: the extension and its array

`strcpy` copies what lies behind the last dot of the URL, of whatever length, into an array of 32 bytes.
-/

namespace SystemsProgramming.HttpServer

open Foundations

variable {url : List UInt8}

/-- What `get_extension` returns has at most `n` characters if and only if there is a dot among the last
`n + 1` characters of the URL, or none but perhaps the first. -/
theorem length_getExtension_le_iff (n : Nat) :
    (getExtension url).length ≤ n ↔ 46 ∈ url.drop (url.length - (n + 1)) ∨ 46 ∉ url.tail := by
  cases hs : splitLast 46 url with
  | none =>
    have hnil : getExtension url = [] := by simp [getExtension, hs]
    have hdot := splitLast_eq_none.1 hs
    rw [hnil]
    exact iff_of_true (Nat.zero_le n) (Or.inr fun h => hdot (List.mem_of_mem_tail h))
  | some p =>
    obtain ⟨stem, extension⟩ := p
    obtain ⟨rfl, hext⟩ := splitLast_eq_some.1 hs
    cases stem with
    | nil =>
      have hnil : getExtension ([] ++ 46 :: extension) = [] := by rw [getExtension, hs]
      rw [hnil]
      exact iff_of_true (Nat.zero_le n) (Or.inr hext)
    | cons c stem =>
      have htail : 46 ∈ (c :: stem ++ 46 :: extension).tail := by simp
      rw [getExtension_append (List.cons_ne_nil c stem) hext, mem_drop_append_cons hext,
        or_iff_left (fun h => h htail), List.length_append, List.length_cons, List.length_cons]
      omega

variable {env : Env} {arrivals : List (List UInt8)}

/-- There is a dot among the last 32 characters of the URL, or none but perhaps the first. -/
def ShortEnding (url : List UInt8) : Prop := 46 ∈ url.drop (url.length - 32) ∨ 46 ∉ url.tail

instance (url : List UInt8) : Decidable (ShortEnding url) := by
  unfold ShortEnding
  infer_instance

theorem Accepted.overflow_iff (h : Accepted env arrivals url) :
    handler env arrivals = .overflow ↔ ¬ ShortEnding url := by
  rw [h.handler_eq, serve, ShortEnding, ← length_getExtension_le_iff 31, Nat.not_le]
  split
  · exact iff_of_true rfl ‹_›
  · exact iff_of_false Outcome.noConfusion ‹_›

/-- Only an accepted request makes the copy run over the array. -/
theorem handler_ne_overflow_iff :
    handler env arrivals ≠ .overflow ↔ ∀ url, Accepted env arrivals url → ShortEnding url := by
  constructor
  · intro h url haccepted
    by_contra hlong
    exact h (haccepted.overflow_iff.2 hlong)
  · intro h hoverflow
    have heq := handler_eq env arrivals
    rw [hoverflow] at heq
    split at heq
    · cases heq
    · rename_i hreceived
      cases hurl : urlFile (env.buffer ((arrivals.headD []).take bufferSize)) with
      | none =>
        rw [hurl] at heq
        cases heq
      | some url =>
        have haccepted : Accepted env arrivals url := ⟨hreceived, hurl⟩
        exact haccepted.overflow_iff.1 hoverflow (h url haccepted)

/-- The extension of an accepted request, with its terminator, fits into the array if and only if the
last dot of the URL is one of its last 32 characters or its first, or there is none; otherwise the copy
runs over the array. -/
theorem extension_fits_iff (haccepted : Accepted env arrivals url) :
    ((getExtension url).length + 1 ≤ 32 ↔ ShortEnding url) ∧
    (handler env arrivals ≠ .overflow ↔ ShortEnding url) := by
  constructor
  · rw [Nat.succ_le_succ_iff]
    exact length_getExtension_le_iff 31
  · rw [Ne, haccepted.overflow_iff, not_not]

/-- The extension of `a.html` fits. -/
theorem html_fits :
    handler ⟨[], fun _ => 0, fun _ => none⟩ [ascii "GET /a.html HTTP/1.1"] ≠ .overflow := by
  have haccepted : Accepted ⟨[], fun _ => 0, fun _ => none⟩ [ascii "GET /a.html HTTP/1.1"]
      (ascii "a.html") := ⟨by decide, by decide⟩
  exact (extension_fits_iff haccepted).2.2 (by decide)

/-- A dot with 32 characters behind it is too much. -/
theorem long_extension_overflows : ¬ ∀ (env : Env) (arrivals : List (List UInt8)) (url : List UInt8),
    Accepted env arrivals url → (getExtension url).length + 1 ≤ 32 := by
  intro h
  have hle := h ⟨[], fun _ => 0, fun _ => none⟩
    [ascii "GET /a.0123456789abcdef0123456789abcdef HTTP/1.1"]
    (ascii "a.0123456789abcdef0123456789abcdef") ⟨by decide, by decide⟩
  revert hle
  decide

end SystemsProgramming.HttpServer
