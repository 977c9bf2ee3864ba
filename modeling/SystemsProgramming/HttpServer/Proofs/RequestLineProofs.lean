import SystemsProgramming.HttpServer.Server

/-!
# Proofs: what the handler makes of the bytes it received

The request buffer is not terminated after the bytes that `recv` put there, so `regexec` reads on into
whatever the memory holds. That makes a difference exactly when the bytes received are the beginning,
and not the whole, of some request line the expression matches.
-/

namespace SystemsProgramming.HttpServer

open Foundations

variable {s buffer p q received : List UInt8}

/-- The text that the expression matches when its group captures `p`. -/
def requestText (p : List UInt8) : List UInt8 := ascii "GET /" ++ (p ++ ascii " HTTP/1")

theorem get_length : (ascii "GET /").length = 5 := rfl

theorem requestText_length (p : List UInt8) : (requestText p).length = 5 + p.length + 7 := by
  have hhttp : (ascii " HTTP/1").length = 7 := rfl
  simp only [requestText, List.length_append, get_length, hhttp]
  omega

/-- The path, and the space behind it, in a string that begins with the text. -/
theorem requestText_append (p t : List UInt8) :
    requestText p ++ t = ascii "GET /" ++ (p ++ 32 :: (ascii "HTTP/1" ++ t)) := by
  have hhttp : ascii " HTTP/1" = 32 :: ascii "HTTP/1" := rfl
  rw [requestText, hhttp]
  simp only [List.append_assoc, List.cons_append]

theorem zero_mem_requestText : 0 ∈ requestText p ↔ 0 ∈ p := by
  have hget : 0 ∉ ascii "GET /" := by decide
  have hhttp : 0 ∉ ascii " HTTP/1" := by decide
  simp [requestText, hget, hhttp]

theorem matches_requestLine {t : List UInt8} {gs : List (List UInt8)} :
    requestLine.Matches t gs ↔ ∃ p, 32 ∉ p ∧ t = requestText p ∧ gs = [p] := by
  simp only [requestLine, Regex.matches_seq, Regex.matches_literal, Regex.matches_group,
    Regex.matches_many_one]
  constructor
  · rintro ⟨t₁, t₂, gs₁, gs₂, ⟨rfl, rfl⟩,
      ⟨u₁, u₂, hs₁, hs₂, ⟨ks, ⟨hp, rfl⟩, rfl⟩, ⟨rfl, rfl⟩, rfl, rfl⟩, rfl, rfl⟩
    exact ⟨u₁, fun h => by simpa using hp 32 h, rfl, rfl⟩
  · rintro ⟨p, hp, rfl, rfl⟩
    exact ⟨_, _, [], [p], ⟨rfl, rfl⟩, ⟨p, _, [p], [], ⟨[], ⟨ne_of_not_mem hp, rfl⟩, rfl⟩, ⟨rfl, rfl⟩,
      rfl, rfl⟩, rfl, rfl⟩

/-- The path that a request text at the beginning of a string captures is what lies before the first
space. -/
theorem takeWhile_of_requestText (hp : 32 ∉ p) (h : requestText p <+: s) :
    (s.drop 5).takeWhile (· ≠ 32) = p := by
  obtain ⟨t, rfl⟩ := h
  rw [requestText_append, ← get_length, List.drop_left, takeWhile_append_cons hp]

theorem requestText_unique (hp : 32 ∉ p) (hq : 32 ∉ q) (h : requestText p <+: s)
    (h' : requestText q <+: s) : p = q := by
  rw [← takeWhile_of_requestText hp h, takeWhile_of_requestText hq h']

theorem regexec_eq_some {m : Regmatch × Regmatch} : regexec s = some m ↔
    ∃ p, 32 ∉ p ∧ requestText p <+: s ∧ m = (⟨0, 5 + p.length + 7⟩, ⟨5, 5 + p.length⟩) := by
  simp only [regexec]
  constructor
  · intro h
    split_ifs at h with h1 h2
    obtain rfl := Option.some.inj h
    refine ⟨(s.drop 5).takeWhile (· ≠ 32), fun h32 => by simpa using List.mem_takeWhile_imp h32, ?_,
      rfl⟩
    obtain ⟨t, rfl⟩ := h1
    rw [← get_length, List.drop_left] at h2 ⊢
    rw [List.drop_append, List.drop_eq_nil_of_le (by omega), List.nil_append, Nat.add_sub_cancel_left]
      at h2
    obtain ⟨w, hw⟩ := List.takeWhile_prefix (p := fun b : UInt8 => decide (b ≠ 32)) (l := t)
    rw [requestText, List.prefix_append_right_inj]
    generalize hq : t.takeWhile (fun b : UInt8 => decide (b ≠ 32)) = q at h2 hw ⊢
    rw [← hw, List.drop_left] at h2
    rw [← hw, List.prefix_append_right_inj]
    exact h2
  · rintro ⟨p, hp, h, rfl⟩
    have hget : ascii "GET /" <+: s := (List.prefix_append _ _).trans h
    have hhttp : ascii " HTTP/1" <+: s.drop (5 + p.length) := by
      obtain ⟨t, rfl⟩ := h
      have hlen : (ascii "GET /" ++ p).length = 5 + p.length := by
        rw [List.length_append, get_length]
      rw [requestText, ← List.append_assoc, List.append_assoc, ← hlen, List.drop_left]
      exact List.prefix_append _ _
    rw [if_pos hget]
    simp only [takeWhile_of_requestText hp h, if_pos hhttp]

/-- `regexec` finds the longest match of the expression at the beginning of the string, and what its
group captures. -/
theorem regexec_found {m : Regmatch × Regmatch} : regexec s = some m ↔
    ∃ t p, requestLine.Found s t [p] ∧ m = (⟨0, t.length⟩, ⟨5, 5 + p.length⟩) := by
  rw [regexec_eq_some]
  constructor
  · rintro ⟨p, hp, h, rfl⟩
    refine ⟨requestText p, p, ⟨h, matches_requestLine.2 ⟨p, hp, rfl, rfl⟩, fun u hs hu hm => ?_⟩, ?_⟩
    · obtain ⟨q, hq, rfl, -⟩ := matches_requestLine.1 hm
      rw [requestText_unique hp hq h hu]
    · rw [requestText_length]
  · rintro ⟨t, p, hfound, rfl⟩
    obtain ⟨q, hq, rfl, hpq⟩ := matches_requestLine.1 hfound.isMatch
    obtain rfl : p = q := by simpa using hpq
    exact ⟨p, hq, hfound.isPrefix, by rw [requestText_length]⟩

/-! ## The URL -/

/-- The URL that the handler takes from the request buffer, if it accepts the request. -/
def urlFile (buffer : List UInt8) : Option (List UInt8) :=
  (regexec (cString buffer)).map fun m => cString ((buffer.set m.2.eo 0).drop m.2.so)

theorem handler_eq (env : Env) (arrivals : List (List UInt8)) :
    handler env arrivals =
      if (arrivals.headD []).take bufferSize = [] then .nothing
      else ((urlFile (env.buffer ((arrivals.headD []).take bufferSize))).map (serve env)).getD
        .nothing := by
  simp only [handler, urlFile]
  cases regexec (cString (env.buffer ((arrivals.headD []).take bufferSize))) <;> rfl

theorem serve_ne_nothing (env : Env) (url : List UInt8) : serve env url ≠ .nothing := by
  simp only [serve]
  split <;> simp

/-- With the zero byte written at its end, the captured path is the C string that begins there. -/
theorem urlFile_eq_some :
    urlFile buffer = some p ↔ 32 ∉ p ∧ 0 ∉ p ∧ requestText p <+: buffer := by
  have hcaptured : ∀ q, 0 ∉ q → requestText q <+: buffer →
      cString ((buffer.set (5 + q.length) 0).drop 5) = q := by
    rintro q hq ⟨t, rfl⟩
    have hset : (requestText q ++ t).set (5 + q.length) 0 =
        ascii "GET /" ++ (q ++ 0 :: (ascii "HTTP/1" ++ t)) := by
      rw [requestText_append, ← get_length]
      simp
    rw [hset, ← get_length, List.drop_left, cString_append_zero hq]
  unfold urlFile
  rw [Option.map_eq_some_iff]
  constructor
  · rintro ⟨m, hm, hp⟩
    obtain ⟨q, hq, h, rfl⟩ := regexec_eq_some.1 hm
    obtain ⟨hpre, h0⟩ := prefix_cString_iff.1 h
    rw [zero_mem_requestText] at h0
    rw [hcaptured q h0 hpre] at hp
    subst hp
    exact ⟨hq, h0, hpre⟩
  · rintro ⟨hp, h0, h⟩
    have hzero : 0 ∉ requestText p := by rwa [zero_mem_requestText]
    exact ⟨_, regexec_eq_some.2 ⟨p, hp, prefix_cString_iff.2 ⟨h, hzero⟩, rfl⟩, hcaptured p h0 h⟩

/-- The bytes received are the beginning, but not the whole, of a text that the expression matches. -/
def Cut (received : List UInt8) : Prop :=
  ∃ p rest, 32 ∉ p ∧ 0 ∉ p ∧ rest ≠ [] ∧ received ++ rest = requestText p

/-- What was received and is not cut decides the URL, whatever lies behind it. -/
theorem urlFile_append_iff (h : ¬ Cut received) (memory : List UInt8) :
    urlFile (received ++ memory) = some p ↔ 32 ∉ p ∧ 0 ∉ p ∧ requestText p <+: received := by
  rw [urlFile_eq_some]
  refine and_congr_right fun hp => and_congr_right fun h0 => ⟨fun hpre => ?_, fun hpre => ?_⟩
  · rcases List.prefix_or_prefix_of_prefix hpre (List.prefix_append received memory) with hle | hle
    · exact hle
    · obtain ⟨rest, hrest⟩ := hle
      by_cases hnil : rest = []
      · subst hnil
        rw [List.append_nil] at hrest
        exact hrest ▸ List.prefix_refl _
      · exact absurd ⟨p, rest, hp, h0, hnil, hrest⟩ h
  · exact hpre.trans (List.prefix_append _ _)

theorem urlFile_append_eq (h : ¬ Cut received) (memory memory' : List UInt8) :
    urlFile (received ++ memory) = urlFile (received ++ memory') := by
  refine Option.ext fun p => ?_
  rw [urlFile_append_iff h, urlFile_append_iff h]

/-! ## The rest of the buffer -/

/-- Memory that completes a request line that was cut. -/
theorem exists_completing_memory (h : Cut received) :
    ∃ memory p : List UInt8, 32 ∉ p ∧ 0 ∉ p ∧ received.length < (requestText p).length ∧
      received ++ memory.drop received.length = requestText p := by
  obtain ⟨p, rest, hp, h0, hrest, heq⟩ := h
  have hpos := List.length_pos_iff.2 hrest
  refine ⟨received ++ rest, p, hp, h0, ?_, by rw [List.drop_left, heq]⟩
  rw [← heq, List.length_append]
  omega

/-- A request line that was cut has no match in it. -/
theorem urlFile_of_cut (h : Cut received) : urlFile received = none := by
  obtain ⟨p, rest, hp, h0, hrest, heq⟩ := h
  have hpos := List.length_pos_iff.2 hrest
  cases hu : urlFile received with
  | none => rfl
  | some q =>
    obtain ⟨hq, -, hpre⟩ := urlFile_eq_some.1 hu
    have hpre' : requestText q <+: requestText p := heq ▸ hpre.trans (List.prefix_append _ _)
    obtain rfl := requestText_unique hq hp hpre' (List.prefix_refl _)
    have hle := hpre.length_le
    rw [← heq, List.length_append] at hle
    omega

/-- The handler's reading of the request depends on the received bytes only, and stays within them,
for every content of the rest of the buffer, if and only if the received bytes are not a request line
that was cut. -/
theorem received_decides_iff (received : List UInt8) :
    (∀ (env : Env) (memory : List UInt8),
      urlFile (env.buffer received) = urlFile ({ env with memory := memory }.buffer received) ∧
      (urlFile (env.buffer received)).map env.file =
        (urlFile ({ env with memory := memory }.buffer received)).map env.file ∧
      ∀ m, regexec (cString (env.buffer received)) = some m →
        m.1.eo ≤ received.length ∧ m.2.eo < received.length) ↔
      ¬ Cut received := by
  constructor
  · intro h hcut
    obtain ⟨memory, p, hp, h0, hlen, heq⟩ := exists_completing_memory hcut
    obtain ⟨-, -, hwithin⟩ := h ⟨memory, fun _ => 0, fun _ => none⟩ []
    have hzero : 0 ∉ requestText p := by rwa [zero_mem_requestText]
    have hm : regexec (cString (received ++ memory.drop received.length)) =
        some (⟨0, 5 + p.length + 7⟩, ⟨5, 5 + p.length⟩) := by
      rw [heq, cString_of_not_mem hzero]
      exact regexec_eq_some.2 ⟨p, hp, List.prefix_refl _, rfl⟩
    have hle := (hwithin _ hm).1
    rw [requestText_length] at hlen
    simp only at hle
    omega
  · intro hcut env memory
    have heq := urlFile_append_eq hcut (env.memory.drop received.length)
      (memory.drop received.length)
    refine ⟨heq, congrArg (Option.map env.file) heq, fun m hm => ?_⟩
    obtain ⟨p, hp, hpre, rfl⟩ := regexec_eq_some.1 hm
    obtain ⟨hpre', h0⟩ := prefix_cString_iff.1 hpre
    rw [zero_mem_requestText] at h0
    have hu := (urlFile_append_iff hcut (env.memory.drop received.length)).1
      (urlFile_eq_some.2 ⟨hp, h0, hpre'⟩)
    have hle := hu.2.2.length_le
    rw [requestText_length] at hle
    exact ⟨hle, by simp only; omega⟩

/-- After `GET /a`, a space and `HTTP/1` that an earlier use left in the memory complete the request
line. -/
theorem stale_memory_completes : ¬ ∀ (received : List UInt8) (env : Env) (memory : List UInt8),
    urlFile (env.buffer received) = urlFile ({ env with memory := memory }.buffer received) ∧
    (urlFile (env.buffer received)).map env.file =
      (urlFile ({ env with memory := memory }.buffer received)).map env.file ∧
    ∀ m, regexec (cString (env.buffer received)) = some m →
      m.1.eo ≤ received.length ∧ m.2.eo < received.length := by
  intro h
  have heq := (h (ascii "GET /a") ⟨[], fun _ => 0, fun _ => none⟩ (ascii "GET /b HTTP/1.1")).1
  revert heq
  decide

/-! ## The pieces the request arrives in -/

/-- A request for `path`. -/
def request (path headers : List UInt8) : List UInt8 :=
  ascii "GET /" ++ path ++ ascii " HTTP/1.1\r\n" ++ headers ++ ascii "\r\n\r\n"

/-- For an ordinary path, the first piece is cut if and only if it ends before the version does. -/
theorem cut_iff_length {path headers piece : List UInt8} (hp : 32 ∉ path) (h0 : 0 ∉ path)
    (hpiece : piece <+: request path headers) : Cut piece ↔ piece.length < 5 + path.length + 7 := by
  have htext : requestText path <+: request path headers := by
    have h1 : ascii " HTTP/1.1\r\n" = ascii " HTTP/1" ++ ascii ".1\r\n" := by decide
    rw [request, h1, requestText]
    simp only [List.append_assoc]
    exact (List.prefix_append_right_inj _).2 ((List.prefix_append_right_inj _).2
      (List.prefix_append _ _))
  rw [← requestText_length path]
  constructor
  · rintro ⟨q, rest, hq, -, hrest, heq⟩
    by_contra hlen
    have hle : requestText path <+: piece :=
      List.prefix_of_prefix_length_le htext hpiece (by omega)
    have hle' : requestText path <+: requestText q := heq ▸ hle.trans (List.prefix_append _ _)
    obtain rfl := requestText_unique hp hq hle' (List.prefix_refl _)
    have hpos := List.length_pos_iff.2 hrest
    have hsum := congrArg List.length heq
    rw [List.length_append] at hsum
    omega
  · intro hlen
    obtain ⟨rest, hrest⟩ := List.prefix_of_prefix_length_le hpiece htext (by omega)
    refine ⟨path, rest, hp, h0, ?_, hrest⟩
    rintro rfl
    rw [List.append_nil] at hrest
    rw [hrest] at hlen
    omega

/-- The response is the same however the request arrives if and only if the first piece is not a
request line that was cut; for an ordinary path, if and only if that piece has the request line up to
the version. -/
theorem same_response_iff (path headers : List UInt8) (arrivals : List (List UInt8))
    (hpieces : ∀ piece ∈ arrivals, piece ≠ []) (hwhole : arrivals.flatten = request path headers)
    (hlen : (request path headers).length ≤ bufferSize) :
    ((∀ (env : Env) (memory : List UInt8),
      handler env arrivals = handler { env with memory := memory } [request path headers]) ↔
        ¬ Cut (arrivals.headD [])) ∧
    (32 ∉ path → 0 ∉ path →
      (Cut (arrivals.headD []) ↔ (arrivals.headD []).length < 5 + path.length + 7)) := by
  have hreq : request path headers ≠ [] := by
    have h1 : ascii "GET /" = 71 :: ascii "ET /" := by decide
    simp [request, h1]
  cases arrivals with
  | nil => exact absurd hwhole.symm hreq
  | cons piece pieces =>
    have hpiece : piece <+: request path headers := ⟨pieces.flatten, hwhole⟩
    have hne : piece ≠ [] := hpieces piece List.mem_cons_self
    have htake : piece.take bufferSize = piece :=
      List.take_of_length_le (hpiece.length_le.trans hlen)
    have hfirst : ∀ env, handler env (piece :: pieces) =
        ((urlFile (env.buffer piece)).map (serve env)).getD .nothing := by
      intro env
      rw [handler_eq, List.headD_cons, htake, if_neg hne]
    have hall : ∀ env, handler env [request path headers] =
        ((urlFile (env.buffer (request path headers))).map (serve env)).getD .nothing := by
      intro env
      rw [handler_eq, List.headD_cons, List.take_of_length_le hlen, if_neg hreq]
    refine ⟨?_, fun hp h0 => cut_iff_length hp h0 hpiece⟩
    simp only [hfirst, hall, List.headD_cons]
    constructor
    · -- what lies behind a piece that was cut makes a difference
      intro h hcut
      obtain ⟨memory, p, hp, h0, -, heq⟩ := exists_completing_memory hcut
      have h1 := h ⟨memory, fun _ => 0, fun _ => none⟩ []
      have h2 := h ⟨[], fun _ => 0, fun _ => none⟩ []
      have hsome : urlFile (piece ++ memory.drop piece.length) = some p := by
        rw [heq]
        exact urlFile_eq_some.2 ⟨hp, h0, List.prefix_refl _⟩
      have hnone : urlFile (piece ++ ([] : List UInt8).drop piece.length) = none := by
        rw [List.drop_nil, List.append_nil]
        exact urlFile_of_cut hcut
      rw [Env.buffer, hsome] at h1
      rw [Env.buffer, hnone] at h2
      exact serve_ne_nothing _ p (h1.trans h2.symm)
    · intro hcut env memory
      obtain ⟨t, ht⟩ := hpiece
      have hbuffer : ({ env with memory := memory } : Env).buffer (request path headers) =
          piece ++ (t ++ memory.drop (request path headers).length) := by
        rw [Env.buffer, ← ht, List.append_assoc]
      rw [hbuffer, Env.buffer, urlFile_append_eq hcut _ (t ++ memory.drop (request path headers).length)]
      rfl

/-- A request cut after the version is answered like the whole of it. -/
theorem late_cut_harmless :
    handler ⟨[], fun _ => 0, fun _ => none⟩
        [ascii "GET /a HTTP/1.1\r\nHo", ascii "st: x\r\n\r\n"] =
      handler ⟨[], fun _ => 0, fun _ => none⟩ [request (ascii "a") (ascii "Host: x")] := by
  have hiff := same_response_iff (ascii "a") (ascii "Host: x")
    [ascii "GET /a HTTP/1.1\r\nHo", ascii "st: x\r\n\r\n"] (by decide) (by decide) (by decide)
  have hcut : ¬ Cut (ascii "GET /a HTTP/1.1\r\nHo") := by
    have hlen := hiff.2 (by decide) (by decide)
    rw [List.headD_cons] at hlen
    rw [hlen]
    decide
  exact hiff.1.2 hcut _ []

/-- A request cut in its first line is not answered at all. -/
theorem early_cut_unanswered : ¬ ∀ (path headers : List UInt8) (arrivals : List (List UInt8)),
    (∀ piece ∈ arrivals, piece ≠ []) → arrivals.flatten = request path headers →
    (request path headers).length ≤ bufferSize → ∀ (env : Env) (memory : List UInt8),
      handler env arrivals = handler { env with memory := memory } [request path headers] := by
  intro h
  have heq := h (ascii "a") (ascii "Host: x") [ascii "GET /a", ascii " HTTP/1.1\r\nHost: x\r\n\r\n"]
    (by decide) (by decide) (by decide) ⟨[], fun _ => 0, fun _ => none⟩ []
  revert heq
  decide

end SystemsProgramming.HttpServer
