import SystemsProgramming.HttpServer.Server
import Mathlib.Data.List.TakeDrop

/-!
# Proofs: how much of the file is in the response

The loop of `build_http` ends when `read` returns no positive number, and what the number was is not
looked at. So a `200` response ends wherever the file does, a `read` fails or the buffer is full.
-/

namespace SystemsProgramming.HttpServer

open Foundations

/-- A file, and what the reads on it do: the `k`-th `read` fails (`none`), or it returns at most
`n + 1` of the bytes left (`some n`). -/
structure File where
  content : List UInt8
  reads : Nat → Option Nat

/-- The descriptor of an open file. -/
def File.descriptor (f : File) : Descriptor := fun k offset =>
  (f.reads k).map fun n => (f.content.drop offset).take (n + 1)

/-- The `open` of a file system. -/
def opened (files : List UInt8 → Option File) (path : List UInt8) : Option Descriptor :=
  (files path).map File.descriptor

/-- The reads from the `k`-th on deliver `n` bytes before one of them fails. -/
inductive Delivers (reads : Nat → Option Nat) : Nat → Nat → Prop where
  | done (k : Nat) : Delivers reads k 0
  | more {k n m : Nat} (h : reads k = some m) (hrest : Delivers reads (k + 1) (n - (m + 1))) :
      Delivers reads k n

/-- The reads do not fail before they have delivered the file, and the first of them does not fail. -/
def File.ReadsThrough (f : File) : Prop :=
  Delivers f.reads 0 f.content.length ∧ (f.content = [] → f.reads 0 ≠ none)

variable {f : File} {fd : Descriptor} {start fuel k : Nat} {body : List UInt8}

theorem readLoop_succ_none (h : received (read (bufferSize - (start + body.length))
    (fd k body.length)) = none) :
    readLoop fd start (fuel + 1) k body =
      (body, read (bufferSize - (start + body.length)) (fd k body.length)) := by
  simp [readLoop, h]

theorem readLoop_succ_some {chunk : List UInt8} (h : received (read
    (bufferSize - (start + body.length)) (fd k body.length)) = some chunk) :
    readLoop fd start (fuel + 1) k body = readLoop fd start fuel (k + 1) (body ++ chunk) := by
  simp [readLoop, h]

/-- A `read` returns at most as many bytes as were asked for. -/
theorem received_length_le {count : Nat} {answer : Option (List UInt8)} {chunk : List UInt8}
    (h : received (read count answer) = some chunk) : 0 < chunk.length ∧ chunk.length ≤ count := by
  refine ⟨List.length_pos_iff.2 (received_ne_nil h), ?_⟩
  cases answer with
  | none => cases h
  | some bytes =>
    have htake : received (some (bytes.take count)) = some chunk := h
    cases ht : bytes.take count with
    | nil =>
      rw [ht] at htake
      cases htake
    | cons b bs =>
      rw [ht] at htake
      obtain rfl : b :: bs = chunk := Option.some.inj htake
      rw [← ht, List.length_take]
      exact Nat.min_le_left _ _

/-- The response never outgrows the buffer. -/
theorem readLoop_length_le (h : start + body.length ≤ bufferSize) :
    start + (readLoop fd start fuel k body).1.length ≤ bufferSize := by
  induction fuel generalizing k body with
  | zero => exact h
  | succ fuel ih =>
    cases hr : received (read (bufferSize - (start + body.length)) (fd k body.length)) with
    | none =>
      rw [readLoop_succ_none hr]
      exact h
    | some chunk =>
      obtain ⟨-, hle⟩ := received_length_le hr
      rw [readLoop_succ_some hr]
      refine ih ?_
      rw [List.length_append]
      omega

/-- The rounds that are allowed for suffice: the loop ends because a `read` returns no positive
number. -/
theorem readLoop_fuel (h : start + body.length ≤ bufferSize)
    (hfuel : bufferSize < fuel + (start + body.length)) (extra : Nat) :
    readLoop fd start (fuel + extra) k body = readLoop fd start fuel k body := by
  induction fuel generalizing k body with
  | zero => omega
  | succ fuel ih =>
    rw [show fuel + 1 + extra = fuel + extra + 1 by omega]
    cases hr : received (read (bufferSize - (start + body.length)) (fd k body.length)) with
    | none => rw [readLoop_succ_none hr, readLoop_succ_none hr]
    | some chunk =>
      obtain ⟨hpos, hle⟩ := received_length_le hr
      rw [readLoop_succ_some hr, readLoop_succ_some hr]
      refine ih ?_ ?_ <;> rw [List.length_append] <;> omega

/-- A `read` on a file, when there is room for all that is left. -/
theorem File.read_eq (f : File) (k : Nat) {count : Nat} {left : List UInt8}
    (hcontent : f.content = body ++ left) (hroom : left.length ≤ count) :
    read count (f.descriptor k body.length) = (f.reads k).map fun n => left.take (n + 1) := by
  have hdrop : f.content.drop body.length = left := by rw [hcontent, List.drop_left]
  have hshort : ∀ n, (left.take (n + 1)).take count = left.take (n + 1) := by
    intro n
    rw [List.take_of_length_le]
    exact (List.length_take_le' _ _).trans hroom
  rw [File.descriptor, hdrop, read, Option.map_map]
  exact congrArg (Option.map · (f.reads k)) (funext hshort)

/-- From a response that has the beginning of the file, when the file fits into the buffer: the loop
gets to the end of the file if and only if the reads deliver what is left. -/
theorem readLoop_eq_iff {left : List UInt8} (hcontent : f.content = body ++ left)
    (hfits : start + f.content.length ≤ bufferSize) (hfuel : left.length < fuel) :
    (readLoop f.descriptor start fuel k body).1 = f.content ↔ Delivers f.reads k left.length := by
  induction fuel generalizing k body left with
  | zero => omega
  | succ fuel ih =>
    have hlen : f.content.length = body.length + left.length := by rw [hcontent, List.length_append]
    have hread := f.read_eq k hcontent
      (show left.length ≤ bufferSize - (start + body.length) by omega)
    cases hreads : f.reads k with
    | none =>
      rw [hreads] at hread
      rw [readLoop_succ_none (by rw [hread]; rfl), hcontent]
      constructor
      · intro h
        have hnil : left = [] := by simpa using h
        rw [hnil]
        exact .done k
      · intro h
        cases hl : left with
        | nil => rw [List.append_nil]
        | cons b bs =>
          rw [hl] at h
          cases h with
          | more h' => simp [hreads] at h'
    | some m =>
      rw [hreads] at hread
      cases hl : left with
      | nil =>
        rw [readLoop_succ_none (by rw [hread, hl]; rfl), hcontent, hl]
        exact ⟨fun _ => .done k, fun _ => (List.append_nil body).symm⟩
      | cons b bs =>
        have hrec : received (read (bufferSize - (start + body.length))
            (f.descriptor k body.length)) = some (left.take (m + 1)) := by
          rw [hread, hl]
          rfl
        have hleft : (left.drop (m + 1)).length = left.length - (m + 1) := List.length_drop
        have hpos : 0 < left.length := by rw [hl]; simp
        have hcontent' : f.content = (body ++ left.take (m + 1)) ++ left.drop (m + 1) := by
          rw [hcontent, List.append_assoc, List.take_append_drop]
        rw [readLoop_succ_some hrec, ih hcontent' (by omega), hleft, hl]
        constructor
        · exact fun h => .more hreads h
        · intro h
          cases h with
          | more h' hrest =>
            obtain rfl := Option.some.inj (hreads.symm.trans h')
            exact hrest

/-- Which `read` ends the loop on an empty file. -/
theorem readLoop_of_empty (hempty : f.content = []) :
    (readLoop f.descriptor start (fuel + 1) k []).2 = none ↔ f.reads k = none := by
  have hread := f.read_eq k (hempty.trans (List.append_nil []).symm)
    (Nat.zero_le (bufferSize - (start + ([] : List UInt8).length)))
  have hnone : received (read (bufferSize - (start + ([] : List UInt8).length))
      (f.descriptor k ([] : List UInt8).length)) = none := by
    rw [hread]
    cases f.reads k <;> rfl
  rw [readLoop_succ_none hnone, hread]
  exact Option.map_eq_none_iff

/-! ## The response -/

/-- A response that begins like a `200` response has the header and the whole file, and no more; and
if a `read` failed, what it has of the file is not nothing. -/
def Complete (files : List UInt8 → Option File) (path extension : List UInt8) : Prop :=
  ascii "HTTP/1.1 200 OK" <+: buildHttp (opened files) path extension →
    ∃ f, files path = some f ∧
      buildHttp (opened files) path extension = header (getMime extension) ++ f.content ∧
      ((readFile f.descriptor (header (getMime extension)).length).2 = none → f.content ≠ [])

theorem buildHttp_of_found {files : List UInt8 → Option File} {path extension : List UInt8}
    (h : files path = some f) : buildHttp (opened files) path extension =
      header (getMime extension) ++
        (readFile f.descriptor (header (getMime extension)).length).1 := by
  simp [buildHttp, opened, h]

theorem buildHttp_of_not_found {files : List UInt8 → Option File} {path extension : List UInt8}
    (h : files path = none) : buildHttp (opened files) path extension = notFound := by
  simp [buildHttp, opened, h]

theorem header_length_le (extension : List UInt8) :
    (header (getMime extension)).length ≤ bufferSize := by
  unfold getMime
  split_ifs <;> decide

/-- A `200` response is complete if and only if header and file fit into the buffer and the reads get
through the file. -/
theorem complete_iff (files : List UInt8 → Option File) (path extension : List UInt8) :
    Complete files path extension ↔ ∀ f, files path = some f →
      (header (getMime extension)).length + f.content.length ≤ bufferSize ∧ f.ReadsThrough := by
  unfold Complete
  cases hf : files path with
  | none =>
    have hnot : ¬ ascii "HTTP/1.1 200 OK" <+: notFound := by decide
    simp [buildHttp_of_not_found hf, hnot]
  | some f =>
    have hpre : ascii "HTTP/1.1 200 OK" <+: buildHttp (opened files) path extension := by
      have hsplit : ascii "HTTP/1.1 200 OK\r\nContent-Type: " =
          ascii "HTTP/1.1 200 OK" ++ ascii "\r\nContent-Type: " := by decide
      rw [buildHttp_of_found hf, header, hsplit]
      simp only [List.append_assoc]
      exact List.prefix_append _ _
    simp only [hpre, true_implies, Option.some.injEq, exists_eq_left', forall_eq']
    rw [buildHttp_of_found hf, List.append_cancel_left_eq]
    have hstart := header_length_le extension
    generalize hs : (header (getMime extension)).length = start at hstart ⊢
    by_cases hfits : start + f.content.length ≤ bufferSize
    · have hbody : (readFile f.descriptor start).1 = f.content ↔
          Delivers f.reads 0 f.content.length :=
        readLoop_eq_iff (List.nil_append _).symm hfits (by omega)
      have hempty : f.content = [] →
          ((readFile f.descriptor start).2 = none ↔ f.reads 0 = none) := fun h =>
        readLoop_of_empty h
      rw [hbody, File.ReadsThrough]
      constructor
      · exact fun h => ⟨hfits, h.1, fun hnil hnone => h.2 ((hempty hnil).2 hnone) hnil⟩
      · exact fun h => ⟨h.2.1, fun hend hnil => h.2.2 hnil ((hempty hnil).1 hend)⟩
    · -- the buffer is full before the end of the file
      have hle : start + (readFile f.descriptor start).1.length ≤ bufferSize :=
        readLoop_length_le hstart
      constructor
      · rintro ⟨hbody, -⟩
        rw [hbody] at hle
        exact absurd hle hfits
      · exact fun h => absurd h.1 hfits

/-- A `read` that fails at once, as on a directory, makes a `200` response without a body. -/
theorem failed_read_truncates : ¬ ∀ (files : List UInt8 → Option File) (path extension : List UInt8),
    Complete files path extension := by
  intro h
  have hresponse : buildHttp (opened fun _ => some ⟨[65], fun _ => none⟩) [97] [] =
      header (getMime []) := by decide
  obtain ⟨f, hf, heq, -⟩ := h (fun _ => some ⟨[65], fun _ => none⟩) [97] [] (by decide)
  obtain rfl := Option.some.inj hf
  rw [hresponse] at heq
  revert heq
  decide

end SystemsProgramming.HttpServer
