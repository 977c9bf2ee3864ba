import SystemsProgramming.HttpServer.Response
import SystemsProgramming.HttpServer.Proofs.BodyProofs

/-!
# Proofs: the block for the response

`*response_len` never exceeds `BUFFER_SIZE`, so that the count for the next `read` is what is left of it.
A `read` for which nothing is left returns nothing, and ends the loop.
-/

namespace SystemsProgramming.HttpServer

open Foundations

variable {fd : Descriptor} {fuel k start : Nat} {body block pre : List UInt8} {len : UInt64}

/-- The subtraction does not underflow. -/
theorem count_toNat (h : len.toNat ≤ bufferSize) : (count len).toNat = bufferSize - len.toNat := by
  have hsize : (UInt64.ofNat bufferSize).toNat = bufferSize := by decide
  have hle : len ≤ UInt64.ofNat bufferSize := by rwa [UInt64.le_iff_toNat_le, hsize]
  rw [count, UInt64.toNat_sub_of_le _ _ hle, hsize]

theorem add_ofNat_toNat {n : Nat} (h : len.toNat + n ≤ bufferSize) :
    (len + UInt64.ofNat n).toNat = len.toNat + n := by
  have hsize : bufferSize < 2 ^ 64 := by decide
  rw [UInt64.toNat_add, UInt64.toNat_ofNat', Nat.add_mod_mod]
  exact Nat.mod_eq_of_lt (by omega)

/-- What the loop leaves, from a response that is within its bounds: it stays so at every `read`, the
reads suffice, and the bytes are those of `readLoop`. -/
structure Bounded (pre : List UInt8) (start : Nat) (body : List UInt8) (r : Response) : Prop where
  len : r.responseLen.toNat = start + body.length
  le : start + body.length ≤ bufferSize
  size : r.response.length = bufferSize * 2
  bytes : r.response.take r.responseLen.toNat = pre ++ body
  reads : ∀ p ∈ r.reads, p.1.toNat ≤ bufferSize ∧ p.2.toNat = bufferSize - p.1.toNat

theorem responseLoop_bounded (hlen : len.toNat = start + body.length)
    (hle : start + body.length ≤ bufferSize) (hfuel : bufferSize < fuel + len.toNat)
    (hsize : block.length = bufferSize * 2) (hbytes : block.take len.toNat = pre ++ body) :
    ∃ r, responseLoop fd fuel k body.length block len = some r ∧
      Bounded pre start (readLoop fd start fuel k body).1 r ∧
      r.reads.length + len.toNat ≤ bufferSize + 1 := by
  induction fuel generalizing k body block len with
  | zero => omega
  | succ fuel ih =>
    have hcount : (count len).toNat = bufferSize - (start + body.length) := by
      rw [count_toNat (by omega), hlen]
    have hread : len.toNat ≤ bufferSize ∧ (count len).toNat = bufferSize - len.toNat := by omega
    cases hr : received (read (bufferSize - (start + body.length)) (fd k body.length)) with
    | none =>
      refine ⟨⟨block, len, [(len, count len)]⟩, ?_, ?_, ?_⟩
      · simp only [responseLoop, hcount, hr]
      · rw [readLoop_succ_none hr]
        refine ⟨hlen, hle, hsize, hbytes, fun p hp => ?_⟩
        rw [List.mem_singleton.1 hp]
        exact hread
      · show 1 + len.toNat ≤ bufferSize + 1
        omega
    | some red =>
      obtain ⟨hpos, hred⟩ := received_length_le hr
      have hroom : len.toNat + red.length ≤ block.length := by omega
      obtain ⟨block', hwrite, hsize', htake⟩ := writeAt_eq_some hroom
      have hlen' : (len + UInt64.ofNat red.length).toNat = len.toNat + red.length :=
        add_ofNat_toNat (by omega)
      have happend : (body ++ red).length = body.length + red.length := List.length_append
      have hbytes' : block'.take (len + UInt64.ofNat red.length).toNat = pre ++ (body ++ red) := by
        rw [hlen', htake, hbytes, List.append_assoc]
      obtain ⟨r, hloop, hbounded, hreads⟩ :=
        ih (k := k + 1) (by omega) (by omega) (by omega) (by omega) hbytes'
      rw [happend] at hloop
      refine ⟨{ r with reads := (len, count len) :: r.reads }, ?_, ?_, ?_⟩
      · simp only [responseLoop, hcount, hr, hwrite, hloop, Option.bind_eq_bind, Option.bind_some,
          Option.pure_def]
      · rw [readLoop_succ_some hr]
        refine ⟨hbounded.len, hbounded.le, hbounded.size, hbounded.bytes, fun p hp => ?_⟩
        rcases List.mem_cons.1 hp with rfl | hp
        · exact hread
        · exact hbounded.reads p hp
      · show r.reads.length + 1 + len.toNat ≤ bufferSize + 1
        omega

theorem responseLoop_start (fd : Descriptor) (hpre : pre.length ≤ bufferSize)
    (hsize : block.length = bufferSize * 2) (htake : block.take pre.length = pre) :
    ∃ r, responseLoop fd (bufferSize + 1) 0 0 block (UInt64.ofNat pre.length) = some r ∧
      Bounded pre pre.length (readFile fd pre.length).1 r ∧ r.reads.length ≤ bufferSize + 1 := by
  have hmax : bufferSize < 2 ^ 64 := by decide
  have hlen : (UInt64.ofNat pre.length).toNat = pre.length :=
    UInt64.toNat_ofNat_of_lt' (Nat.lt_of_le_of_lt hpre hmax)
  have hbytes : block.take (UInt64.ofNat pre.length).toNat = pre ++ [] := by
    rw [hlen, htake, List.append_nil]
  obtain ⟨r, hloop, hbounded, hreads⟩ :=
    responseLoop_bounded (k := 0) hlen hpre (show bufferSize < bufferSize + 1 + _ by omega) hsize hbytes
  exact ⟨r, hloop, hbounded, by omega⟩

theorem notFound_length : notFound.length = 65 := by decide

/-- The response that says that there is no file. -/
theorem writeAt_notFound (hsize : block.length = bufferSize * 2) :
    ∃ block', writeAt block 0 (notFound ++ [0]) = some block' ∧ block'.length = bufferSize * 2 ∧
      cString block' = notFound ∧ block'.take notFound.length = notFound := by
  have hbuffer : bufferSize = 52428800 := rfl
  have hroom : (notFound ++ [0]).length ≤ block.length := by
    rw [List.length_append, notFound_length, List.length_singleton]
    omega
  obtain ⟨block', hwrite, hsize', htake⟩ := writeAt_zero hroom
  have hblock : block' = notFound ++ 0 :: block'.drop (notFound ++ [0]).length := by
    have hsplit := List.take_append_drop (notFound ++ [0]).length block'
    rw [htake, List.append_assoc] at hsplit
    exact hsplit.symm
  refine ⟨block', hwrite, hsize'.trans hsize, ?_, ?_⟩
  · rw [hblock]
    exact cString_append_zero (by decide) _
  · rw [hblock, List.take_left]

/-- Whatever the reads return, `*response_len` is at most `BUFFER_SIZE` at every `read`, so that the
count does not underflow, no byte comes to lie outside of the block, there are at most so many reads and
one more, and the response is that of `buildHttp`. -/
theorem response_bounds (openFile : List UInt8 → Option Descriptor) (file extension : List UInt8)
    (memory : Memory) :
    ∃ r, buildHttpIn openFile file extension memory = some r ∧
      (∀ p ∈ r.reads, p.1.toNat ≤ bufferSize ∧ p.2.toNat = bufferSize - p.1.toNat) ∧
      r.reads.length ≤ bufferSize + 1 ∧ r.responseLen.toNat ≤ bufferSize ∧
      r.response.length = bufferSize * 2 ∧
      r.response.take r.responseLen.toNat = buildHttp openFile file extension := by
  have hmalloc : (malloc memory (bufferSize * 2)).length = bufferSize * 2 := malloc_length
  unfold buildHttpIn buildHttp
  cases openFile file with
  | none =>
    obtain ⟨block, hwrite, hsize, hstring, htake⟩ := writeAt_notFound hmalloc
    have hlen : (UInt64.ofNat notFound.length).toNat = notFound.length := by
      rw [notFound_length]
      rfl
    refine ⟨⟨block, UInt64.ofNat (cString block).length, []⟩, ?_, ?_⟩
    · simp only [hwrite, Option.bind_eq_bind, Option.bind_some, Option.pure_def]
    · simp only [hstring, hlen]
      refine ⟨fun p hp => absurd hp List.not_mem_nil, Nat.zero_le _, ?_, hsize, htake⟩
      rw [notFound_length]
      decide
  | some fd =>
    have hstart := header_length_le extension
    simp only
    generalize header (getMime extension) = pre at hstart ⊢
    have hroom : pre.length ≤ (malloc memory (bufferSize * 2)).length := by omega
    obtain ⟨block, hwrite, hsize, htake⟩ := writeAt_zero hroom
    obtain ⟨r, hloop, hbounded, hreads⟩ := responseLoop_start fd hstart (hsize.trans hmalloc) htake
    refine ⟨r, ?_, hbounded.reads, hreads, ?_, hbounded.size, hbounded.bytes⟩
    · simp only [hwrite, Option.bind_eq_bind, Option.bind_some]
      exact hloop
    · rw [hbounded.len]
      exact hbounded.le

end SystemsProgramming.HttpServer
